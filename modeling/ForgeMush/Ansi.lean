import ForgeMush.Codes
import ForgeMush.Loop
import ForgeMush.Regex
import Mathlib.Tactic.SplitIfs

/-!
`AnsiData::parse_markup`: which definitions of a colour are accepted.

A definition is matched by `std::regex_match`, so that a pattern has to take in all that is
left of it. Only spaces and the two markers are ever taken off the front.
-/

namespace ForgeMush

open Regex

/-- A literal of the source. -/
def ascii (s : String) : Bytes := s.toList.map Char.toUInt8

namespace AnsiData

/-! ### Patterns -/

/-- `\d` in the classic locale. -/
def isDigit (b : UInt8) : Bool := '0'.toUInt8 ≤ b && b ≤ '9'.toUInt8

def isLower (b : UInt8) : Bool := 'a'.toUInt8 ≤ b && b ≤ 'z'.toUInt8

def isUpper (b : UInt8) : Bool := 'A'.toUInt8 ≤ b && b ≤ 'Z'.toUInt8

/-- `\w` in the classic locale. -/
def isWord (b : UInt8) : Bool := isLower b || isUpper b || isDigit b || b = '_'.toUInt8

/-- `[a-z ]` -/
def isLetterOrSpace (b : UInt8) : Bool := isLower b || b = ' '.toUInt8

/-- `[0-9A-F]` -/
def isHex (b : UInt8) : Bool := isDigit b || ('A'.toUInt8 ≤ b && b ≤ 'F'.toUInt8)

/-- `^([a-z ]+)\b` -/
def letters : Pattern UInt8 := [.many isLetterOrSpace 1 none, .edge isWord]

/-- `^(\d+)\b` -/
def numbers : Pattern UInt8 := [.many isDigit 1 none, .edge isWord]

/-- `^<(\d{1,3})\s+(\d{1,3})\s+(\d{1,3})>(\b)?` -/
def rgb : Pattern UInt8 :=
  [.lit '<'.toUInt8, .many isDigit 1 (some 3), .many isSpace 1 none,
    .many isDigit 1 (some 3), .many isSpace 1 none, .many isDigit 1 (some 3),
    .lit '>'.toUInt8, .opt (.edge isWord)]

/-- `^#([0-9A-F]{6})\b` -/
def hex1 : Pattern UInt8 := [.lit '#'.toUInt8, .many isHex 6 (some 6), .edge isWord]

/-- `^<#([0-9A-F]{6})>(\b)?` -/
def hex2 : Pattern UInt8 :=
  [.lit '<'.toUInt8, .lit '#'.toUInt8, .many isHex 6 (some 6), .lit '>'.toUInt8,
    .opt (.edge isWord)]

/-- `^\+(\w+)\b` -/
def name : Pattern UInt8 := [.lit '+'.toUInt8, .many isWord 1 none, .edge isWord]

def getMatch : List (String × Pattern UInt8) :=
  [("letters", letters), ("numbers", numbers), ("rgb", rgb), ("hex1", hex1), ("hex2", hex2),
    ("name", name)]

/-! ### Parsing -/

/-- `AnsiGround::process`. What it reads goes into locals of its own, and the mode into its
own parameter. -/
def process (_mode : String) (_background : Bool) : Bool := true

def errorMessage (src : Bytes) : Bytes := ascii "#-1 INVALID ANSI DEFINITION: " ++ src

/-- The two loops over `getMatch`, which are alike. -/
def matchCodes (src codes : Bytes) : Loop.Ctl Bytes (Option Bytes) :=
  match getMatch.findSome? fun r => (r.2.fullMatch codes).map fun n => (r.1, n) with
  | some (mode, n) =>
    if process mode true then .next (codes.drop n) else .done (some (errorMessage src))
  | none => .done (some (errorMessage src))

/-- One turn of `while(codes.length())`. The result is `errmsg` where the source returns
false. -/
def parseTurn (src codes : Bytes) : Loop.Ctl Bytes (Option Bytes) :=
  match codes with
  | [] => .done none
  | c :: rest =>
    if c = '/'.toUInt8 ∨ c = '!'.toUInt8 then
      match rest with
      | [] => .done none
      | d :: _ =>
        if d = '/'.toUInt8 ∨ d = '!'.toUInt8 ∨ d = ' '.toUInt8 then .next rest
        else matchCodes src rest
    else if c = ' '.toUInt8 then .next rest
    else matchCodes src codes

lemma matchCodes_shortens {src codes d : Bytes} (h : matchCodes src codes = .next d)
    (hne : codes ≠ []) : d.length < codes.length := by
  unfold matchCodes at h
  split at h
  · next mode n hfind =>
      obtain ⟨r, -, hr⟩ := List.exists_of_findSome?_eq_some hfind
      obtain ⟨m, hm, hmn⟩ := Option.map_eq_some_iff.mp hr
      have hlen := Pattern.fullMatch_length hm
      cases hmn
      cases h
      have hpos := List.length_pos_iff.mpr hne
      rw [List.length_drop]
      omega
  · cases h

lemma parseTurn_shortens (src codes d : Bytes) (h : parseTurn src codes = .next d) :
    d.length < codes.length := by
  unfold parseTurn at h
  split at h
  · cases h
  · next c rest =>
      split_ifs at h with hmark hspace
      · split at h
        · cases h
        · next e more =>
            split_ifs at h with hagain
            · cases h
              simp
            · have := matchCodes_shortens h (by simp)
              simp only [List.length_cons] at this ⊢
              omega
      · cases h
        simp
      · exact matchCodes_shortens h (by simp)

/-- `parse_markup`: the message for a definition that is not accepted. -/
def parseMarkup (src : Bytes) : Option Bytes :=
  Loop.execute (parseTurn src) List.length (parseTurn_shortens src) src

lemma eq_errorMessage {src msg : Bytes} (h : parseMarkup src = some msg) :
    msg = errorMessage src := by
  have hmatch : ∀ codes, (matchCodes src codes).Holds (fun _ => True)
      fun r => ∀ msg, r = some msg → msg = errorMessage src := by
    intro codes
    unfold matchCodes
    split
    · split_ifs
      · trivial
      · exact fun msg h => (Option.some.inj h).symm
    · exact fun msg h => (Option.some.inj h).symm
  refine (Loop.yields_execute (parseTurn_shortens src) src).invariant (I := fun _ => True)
    (Q := fun r => ∀ msg, r = some msg → msg = errorMessage src) (fun codes _ => ?_) trivial msg h
  unfold parseTurn
  split
  · exact fun msg h => nomatch h
  · split_ifs
    · split
      · exact fun msg h => nomatch h
      · split_ifs
        · trivial
        · exact hmatch _
    · trivial
    · exact hmatch _

end AnsiData

end ForgeMush
