import ForgeMush.Ansi
import Mathlib.Data.List.Nodup

/-!
The grammar of the definitions of colours, and which of them `parse_markup` decides by it.

The loop takes off what a pattern has matched, as if it were a prefix of what is left. But
`std::regex_match` matches all that is left or nothing.
-/

namespace ForgeMush

open Regex

namespace AnsiData

/-! ### Which pattern -/

/-- The pattern for a text that begins like this one. -/
def mode : Bytes → String
  | [] => ""
  | c :: rest =>
    if isLetterOrSpace c then "letters"
    else if isDigit c then "numbers"
    else if c = '#'.toUInt8 then "hex1"
    else if c = '+'.toUInt8 then "name"
    else if c = '<'.toUInt8 then if rest.head? = some '#'.toUInt8 then "hex2" else "rgb"
    else ""

lemma mode_digit {c : UInt8} (hc : isDigit c) (rest : Bytes) : mode (c :: rest) = "numbers" := by
  have hletter : isLetterOrSpace c = false := by
    simp only [isDigit, isLetterOrSpace, isLower, Bool.and_eq_true, decide_eq_true_eq,
      UInt8.le_iff_toNat_le, Bool.or_eq_false_iff, Bool.and_eq_false_iff, decide_eq_false_iff_not,
      ← UInt8.toNat_inj] at hc ⊢
    have h0 : ('0'.toUInt8).toNat = 48 := rfl
    have h9 : ('9'.toUInt8).toNat = 57 := rfl
    have ha : ('a'.toUInt8).toNat = 97 := rfl
    have hspace : (' '.toUInt8).toNat = 32 := rfl
    omega
  simp [mode, hletter, hc]

lemma mode_angle (rest : Bytes) : mode ('<'.toUInt8 :: rest) =
    if rest.head? = some '#'.toUInt8 then "hex2" else "rgb" := rfl

/-- **A pattern** matches only what begins like it. -/
lemma mode_eq {r : String × Pattern UInt8} (hr : r ∈ getMatch) {w : Bytes} (hw : r.2.Word w)
    (t : Bytes) : mode (w ++ t) = r.1 := by
  simp only [getMatch, List.mem_cons, List.not_mem_nil, or_false] at hr
  rcases hr with rfl | rfl | rfl | rfl | rfl | rfl
  · obtain ⟨c, v, rfl, hc⟩ := Pattern.word_many_cons hw
    simp [mode, hc]
  · obtain ⟨c, v, rfl, hc⟩ := Pattern.word_many_cons hw
    exact mode_digit hc _
  · obtain ⟨v, rfl, hv⟩ := Pattern.word_lit_cons hw
    obtain ⟨c, v, rfl, hc⟩ := Pattern.word_many_cons hv
    have hne : c ≠ '#'.toUInt8 := by
      rintro rfl
      cases hc
    have hsecond : ((c :: v) ++ t).head? ≠ some '#'.toUInt8 := by simpa using hne
    exact (mode_angle _).trans (if_neg hsecond)
  · obtain ⟨v, rfl, -⟩ := Pattern.word_lit_cons hw
    rfl
  · obtain ⟨v, rfl, hv⟩ := Pattern.word_lit_cons hw
    obtain ⟨v, rfl, -⟩ := Pattern.word_lit_cons hv
    rfl
  · obtain ⟨v, rfl, -⟩ := Pattern.word_lit_cons hw
    rfl

lemma mode_of_prefixMatch {r : String × Pattern UInt8} (hr : r ∈ getMatch) {codes : Bytes} {n : ℕ}
    (hn : r.2.prefixMatch codes = some n) : mode codes = r.1 := by
  obtain ⟨w, t, rfl, hw, -⟩ := Pattern.prefixMatch_word hn
  exact mode_eq hr hw t

/-- No two patterns match prefixes of the same text. -/
lemma eq_of_mode {r r' : String × Pattern UInt8} (hr : r ∈ getMatch) (hr' : r' ∈ getMatch)
    (h : r.1 = r'.1) : r = r' :=
  List.inj_on_of_nodup_map (f := Prod.fst) (by decide) hr hr' h

/-- A longer match is tried before a shorter one, by every pattern. -/
lemma greedy_of_mem {r : String × Pattern UInt8} (hr : r ∈ getMatch) : r.2.Greedy := by
  simp only [getMatch, List.mem_cons, List.not_mem_nil, or_false] at hr
  rcases hr with rfl | rfl | rfl | rfl | rfl | rfl
  · exact Pattern.greedy_many_edge _ _ _ _
  · exact Pattern.greedy_many_edge _ _ _ _
  · have hlast : Pattern.Last '>'.toUInt8 rgb :=
      ((((((Pattern.last_lit _ isWord).many rfl _ _).many rfl _ _).many rfl _ _).many rfl _ _).many
        rfl _ _).many rfl _ _
    exact hlast.greedy
  · exact (Pattern.greedy_many_edge _ _ _ _).lit _
  · have hlast : Pattern.Last '>'.toUInt8 hex2 :=
      (((Pattern.last_lit _ isWord).many rfl _ _).many rfl _ _).many rfl _ _
    exact hlast.greedy
  · exact (Pattern.greedy_many_edge _ _ _ _).lit _

/-- The length of the prefix that the first pattern with one matches. -/
def firstMatch (codes : Bytes) : Option ℕ := getMatch.findSome? fun r => r.2.prefixMatch codes

lemma firstMatch_eq_some_iff {codes : Bytes} {n : ℕ} :
    firstMatch codes = some n ↔ ∃ r ∈ getMatch, r.2.prefixMatch codes = some n := by
  refine ⟨List.exists_of_findSome?_eq_some, ?_⟩
  rintro ⟨r, hr, hn⟩
  cases hfirst : firstMatch codes with
  | none =>
      rw [List.findSome?_eq_none_iff.mp hfirst r hr] at hn
      cases hn
  | some m =>
      obtain ⟨r', hr', hm⟩ := List.exists_of_findSome?_eq_some hfirst
      have hmode := (mode_of_prefixMatch hr' hm).symm.trans (mode_of_prefixMatch hr hn)
      rw [eq_of_mode hr' hr hmode, hn] at hm
      exact hm.symm

lemma firstMatch_le {codes : Bytes} {n : ℕ} (h : firstMatch codes = some n) :
    n ≤ codes.length := by
  obtain ⟨r, -, hn⟩ := firstMatch_eq_some_iff.mp h
  obtain ⟨w, t, rfl, -, rfl⟩ := Pattern.prefixMatch_word hn
  rw [List.length_append]
  exact Nat.le_add_right _ _

/-- **A full match** is the first prefix match, when that takes in all. -/
lemma firstMatch_eq_length_iff {codes : Bytes} :
    firstMatch codes = some codes.length ↔ ∃ r ∈ getMatch, (r.2.fullMatch codes).isSome := by
  rw [firstMatch_eq_some_iff]
  constructor
  · rintro ⟨r, hr, hn⟩
    exact ⟨r, hr, by rw [Pattern.fullMatch_of_prefixMatch hn, Option.isSome_some]⟩
  · rintro ⟨r, hr, hfull⟩
    obtain ⟨n, hn⟩ := Option.isSome_iff_exists.mp hfull
    rw [← Pattern.fullMatch_length hn]
    exact ⟨r, hr, (greedy_of_mem hr).prefixMatch hn⟩

/-! ### The grammar -/

/-- The definition can be consumed from left to right, a space, a marker or an item at a time. -/
inductive Accepts : Bytes → Prop
  | nil : Accepts []
  | space {codes : Bytes} (h : Accepts codes) : Accepts (' '.toUInt8 :: codes)
  | marker {c : UInt8} {codes : Bytes} (hc : c = '/'.toUInt8 ∨ c = '!'.toUInt8)
    (h : Accepts codes) : Accepts (c :: codes)
  | item {codes : Bytes} {n : ℕ} (hn : firstMatch codes = some n) (h : Accepts (codes.drop n)) :
    Accepts codes

/-- Spaces and markers are left out before an item. -/
def isSeparator (c : UInt8) : Bool := c = ' '.toUInt8 || c = '/'.toUInt8 || c = '!'.toUInt8

/-- What is left of a definition when its leading spaces and markers are taken off. -/
def strip (codes : Bytes) : Bytes := codes.dropWhile isSeparator

lemma isSeparator_iff {c : UInt8} :
    isSeparator c ↔ c = ' '.toUInt8 ∨ c = '/'.toUInt8 ∨ c = '!'.toUInt8 := by
  simp [isSeparator, or_assoc]

lemma accepts_marker {c : UInt8} (hc : c = '/'.toUInt8 ∨ c = '!'.toUInt8) {codes : Bytes} :
    Accepts (c :: codes) ↔ Accepts codes := by
  refine ⟨fun h => ?_, .marker hc⟩
  cases h with
  | space h => exact h
  | marker _ h => exact h
  | item hn h =>
      obtain ⟨r, hr, hn⟩ := firstMatch_eq_some_iff.mp hn
      have hmode : mode (c :: codes) = "" := by rcases hc with rfl | rfl <;> rfl
      have hnamed : ∀ r ∈ getMatch, r.1 ≠ "" := by decide
      exact absurd ((mode_of_prefixMatch hr hn).symm.trans hmode) (hnamed r hr)

/-- A space in front is taken off by itself, or by the letters, which go on as without it. -/
lemma accepts_space {codes : Bytes} : Accepts (' '.toUInt8 :: codes) ↔ Accepts codes := by
  refine ⟨fun h => ?_, .space⟩
  cases h with
  | space h => exact h
  | marker _ h => exact h
  | item hn h =>
      obtain ⟨r, hr, hn⟩ := firstMatch_eq_some_iff.mp hn
      have hletters : ("letters", letters) ∈ getMatch := List.mem_cons_self
      have hmode : mode (' '.toUInt8 :: codes) = "letters" := rfl
      cases eq_of_mode hr hletters ((mode_of_prefixMatch hr hn).symm.trans hmode)
      have hcons : letters.prefixMatch (' '.toUInt8 :: codes) =
          ((letters.prefixMatch codes).map (· + 1)).or
            (if Pos.atEdge isWord ⟨[' '.toUInt8], codes⟩ then some 1 else none) :=
        Pattern.prefixMatch_many_edge_cons (by decide) codes
      have hn : letters.prefixMatch (' '.toUInt8 :: codes) = some _ := hn
      rw [hn] at hcons
      cases hrest : letters.prefixMatch codes with
      | some m =>
          rw [hrest] at hcons
          cases hcons
          exact .item (firstMatch_eq_some_iff.mpr ⟨_, hletters, hrest⟩) h
      | none =>
          rw [hrest, Option.map_none, Option.none_or] at hcons
          split_ifs at hcons
          cases hcons
          exact h

lemma accepts_strip (codes : Bytes) : Accepts codes ↔ Accepts (strip codes) := by
  induction codes with
  | nil => rfl
  | cons c codes ih =>
      unfold strip at ih ⊢
      by_cases hc : isSeparator c
      · rw [List.dropWhile_cons_of_pos hc, ← ih]
        rcases isSeparator_iff.mp hc with rfl | hmark
        · exact accepts_space
        · exact accepts_marker hmark
      · rw [List.dropWhile_cons_of_neg hc]

lemma strip_cons_of_pos {c : UInt8} (hc : isSeparator c) (codes : Bytes) :
    strip (c :: codes) = strip codes :=
  List.dropWhile_cons_of_pos hc

lemma strip_cons_of_neg {c : UInt8} (hc : ¬ isSeparator c) (codes : Bytes) :
    strip (c :: codes) = c :: codes :=
  List.dropWhile_cons_of_neg hc

lemma not_isSeparator_of_strip {codes : Bytes} {c : UInt8} {rest : Bytes}
    (h : strip codes = c :: rest) : ¬ isSeparator c := by
  have hhead := List.head?_dropWhile_not isSeparator codes
  rw [show codes.dropWhile isSeparator = c :: rest from h] at hhead
  simpa using hhead

lemma accepts_stripped_iff (codes : Bytes) : Accepts (strip codes) ↔
    strip codes = [] ∨ ∃ n, firstMatch (strip codes) = some n ∧ Accepts ((strip codes).drop n) := by
  have hhead := @not_isSeparator_of_strip codes
  generalize strip codes = stripped at hhead ⊢
  constructor
  · intro h
    cases h with
    | nil => exact Or.inl rfl
    | space _ => exact absurd (isSeparator_iff.mpr (Or.inl rfl)) (hhead rfl)
    | marker hc _ => exact absurd (isSeparator_iff.mpr (Or.inr hc)) (hhead rfl)
    | item hn h => exact Or.inr ⟨_, hn, h⟩
  · rintro (hnil | ⟨n, hn, h⟩)
    · exact hnil ▸ .nil
    · exact .item hn h

/-! ### The loop -/

/-- There is nothing left, or one item that takes in all. -/
def Whole (codes : Bytes) : Prop := codes = [] ∨ firstMatch codes = some codes.length

lemma Whole.accepts {codes : Bytes} (h : Whole codes) : Accepts codes := by
  rcases h with rfl | hall
  · exact .nil
  · exact .item hall (by rw [List.drop_length]; exact .nil)

lemma matchCodes_eq (src codes : Bytes) : matchCodes src codes =
    if firstMatch codes = some codes.length then .next [] else .done (some (errorMessage src)) := by
  unfold matchCodes
  cases hfind : getMatch.findSome? fun r => (r.2.fullMatch codes).map fun n => (r.1, n) with
  | none =>
      have hnone : firstMatch codes ≠ some codes.length := by
        intro hfirst
        obtain ⟨r, hr, hfull⟩ := firstMatch_eq_length_iff.mp hfirst
        have hmatch := List.findSome?_eq_none_iff.mp hfind r hr
        rw [Option.map_eq_none_iff] at hmatch
        rw [hmatch] at hfull
        cases hfull
      rw [if_neg hnone]
  | some x =>
      obtain ⟨r, hr, hmatch⟩ := List.exists_of_findSome?_eq_some hfind
      obtain ⟨n, hn, rfl⟩ := Option.map_eq_some_iff.mp hmatch
      have hfirst : firstMatch codes = some codes.length :=
        firstMatch_eq_length_iff.mpr ⟨r, hr, by rw [hn, Option.isSome_some]⟩
      rw [if_pos hfirst]
      simp [process, Pattern.fullMatch_length hn]

/-- `codes` are left at the head of the loop, and it returns true in the end. -/
def Succeeds (src codes : Bytes) : Prop := Loop.Yields (parseTurn src) codes none

lemma succeeds_nil (src : Bytes) : Succeeds src [] := by
  have hturn : parseTurn src [] = .done none := rfl
  exact (Loop.yields_done hturn).mpr rfl

lemma succeeds_of_matchCodes {src codes left : Bytes} (hleft : left ≠ [])
    (hturn : parseTurn src codes = matchCodes src left) : Succeeds src codes ↔ Whole left := by
  rw [matchCodes_eq] at hturn
  unfold Whole Succeeds
  rw [or_iff_right hleft]
  split_ifs at hturn with hfirst
  · rw [Loop.yields_next hturn]
    exact iff_of_true (succeeds_nil src) hfirst
  · rw [Loop.yields_done hturn]
    exact iff_of_false (Option.some_ne_none _) hfirst

/-- **The loop** returns true where nothing is left behind the spaces and markers in front, or
one item. -/
lemma succeeds_iff_whole (src codes : Bytes) : Succeeds src codes ↔ Whole (strip codes) := by
  induction codes with
  | nil => exact iff_of_true (succeeds_nil src) (Or.inl rfl)
  | cons c rest ih =>
      by_cases hmark : c = '/'.toUInt8 ∨ c = '!'.toUInt8
      · rw [strip_cons_of_pos (isSeparator_iff.mpr (Or.inr hmark))]
        cases rest with
        | nil =>
            have hturn : parseTurn src [c] = .done none := by simp only [parseTurn, if_pos hmark]
            exact iff_of_true ((Loop.yields_done hturn).mpr rfl) (Or.inl rfl)
        | cons d more =>
            by_cases hd : d = '/'.toUInt8 ∨ d = '!'.toUInt8 ∨ d = ' '.toUInt8
            · have hturn : parseTurn src (c :: d :: more) = .next (d :: more) := by
                simp only [parseTurn, if_pos hmark, if_pos hd]
              rw [← ih]
              exact Loop.yields_next hturn
            · have hturn : parseTurn src (c :: d :: more) = matchCodes src (d :: more) := by
                simp only [parseTurn, if_pos hmark, if_neg hd]
              have hsep : ¬ isSeparator d := fun h =>
                hd (or_assoc.mp (isSeparator_iff.mp h).symm)
              rw [strip_cons_of_neg hsep]
              exact succeeds_of_matchCodes (List.cons_ne_nil _ _) hturn
      · by_cases hspace : c = ' '.toUInt8
        · have hturn : parseTurn src (c :: rest) = .next rest := by
            simp only [parseTurn, if_neg hmark, if_pos hspace]
          rw [strip_cons_of_pos (isSeparator_iff.mpr (Or.inl hspace)), ← ih]
          exact Loop.yields_next hturn
        · have hturn : parseTurn src (c :: rest) = matchCodes src (c :: rest) := by
            simp only [parseTurn, if_neg hmark, if_neg hspace]
          have hsep : ¬ isSeparator c := fun h =>
            (isSeparator_iff.mp h).elim hspace hmark
          rw [strip_cons_of_neg hsep]
          exact succeeds_of_matchCodes (List.cons_ne_nil _ _) hturn

/-- The first item is not the last thing in the definition, which goes on as the grammar has it. -/
def Compound (src : Bytes) : Prop :=
  ∃ n < (strip src).length, firstMatch (strip src) = some n ∧ Accepts ((strip src).drop n)

/-- `parse_markup` returns, and returns true exactly if the grammar accepts the definition. -/
def Decided (src : Bytes) : Prop :=
  ∃ errmsg, Loop.Yields (parseTurn src) src errmsg ∧ (errmsg = none ↔ Accepts src)

/-- **The grammar of definitions** is what `parse_markup` decides by, exactly for those that are
not compound. -/
theorem decided_iff_not_compound (src : Bytes) : Decided src ↔ ¬ Compound src := by
  have hyields : Loop.Yields (parseTurn src) src (parseMarkup src) := Loop.yields_execute _ src
  have hresult : parseMarkup src = none ↔ Whole (strip src) := by
    rw [← succeeds_iff_whole]
    refine ⟨fun h => ?_, fun h => hyields.unique h⟩
    rwa [h] at hyields
  have hdecided : Decided src ↔ (Whole (strip src) ↔ Accepts (strip src)) := by
    rw [← hresult, ← accepts_strip]
    refine ⟨?_, fun h => ⟨_, hyields, h⟩⟩
    rintro ⟨errmsg, herr, h⟩
    rwa [hyields.unique herr]
  rw [hdecided]
  constructor
  · rintro hiff ⟨n, hlt, hn, hrest⟩
    rcases hiff.mpr (.item hn hrest) with hnil | hall
    · rw [hnil] at hlt
      exact absurd hlt (Nat.not_lt_zero n)
    · rw [hall] at hn
      exact hlt.ne (Option.some.inj hn).symm
  · refine fun hnot => ⟨Whole.accepts, fun h => ?_⟩
    rcases (accepts_stripped_iff src).mp h with hnil | ⟨n, hn, hrest⟩
    · exact Or.inl hnil
    · have hall : n = (strip src).length := by
        by_contra hne
        exact hnot ⟨n, lt_of_le_of_ne (firstMatch_le hn) hne, hn, hrest⟩
      exact Or.inr (hall ▸ hn)

/-- A foreground followed by a background. -/
theorem ground_not_decided : Accepts (ascii "r/b") ∧ ¬ Decided (ascii "r/b") := by
  have haccepts : Accepts (ascii "r/b") :=
    .item (n := 1) (by decide) (.marker (Or.inl rfl) (.item (n := 1) (by decide) .nil))
  refine ⟨haccepts, ?_⟩
  rintro ⟨errmsg, hyields, hiff⟩
  have hrejected : parseMarkup (ascii "r/b") = some (errorMessage (ascii "r/b")) := by decide
  have hresult := hyields.unique (Loop.yields_execute (parseTurn_shortens _) _)
  rw [hiff.mpr haccepts] at hresult
  cases hresult.trans hrejected

end AnsiData

end ForgeMush
