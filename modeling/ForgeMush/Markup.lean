import ForgeMush.Ansi

/-!
`MarkupString`: text with the markup of each of its characters, and the scanner that reads it
from a source with tags.

A shared pointer is the index of its `Markup` among all that were constructed.
-/

namespace ForgeMush

abbrev TAG_START : UInt8 := 2
abbrev TAG_END : UInt8 := 3

inductive MarkupType | color | mxp
  deriving DecidableEq

/-- No member of it is ever read. -/
structure AnsiData
  deriving DecidableEq

/-- `ShMarkup`. Nothing whose behaviour is defined makes it the null pointer. -/
abbrev ShMarkup := ℕ

abbrev OpMarkup := Option ShMarkup

structure Markup where
  parent : OpMarkup := none
  type : MarkupType
  startText : Bytes := []
  endText : Bytes := []
  /-- A `std::optional` of a pointer, which may be null. -/
  ansi : Option (Option AnsiData)
  engaged : type = .color → ansi.isSome
  deriving DecidableEq

namespace Markup

/-- The constructor. `emplace` with no argument leaves a null pointer in `ansi`. -/
def new (type : UInt8) : Markup :=
  if type = 'p'.toUInt8 then { type := .mxp, ansi := none, engaged := fun h => by cases h }
  else { type := .color, ansi := some none, engaged := fun _ => rfl }

def setParent (k : Markup) (mark : ShMarkup) : Markup := { k with parent := some mark }

/-- The message, where the source returns false. `parse_markup` does not touch the `AnsiData`
it is called on. -/
def validate (k : Markup) : Option Bytes :=
  match k.type with
  | .color => AnsiData.parseMarkup k.startText
  | .mxp => none

end Markup

/-- All markups constructed. -/
abbrev Markups := List Markup

structure MarkupString where
  text : Bytes := []
  source : Bytes := []
  markup : List ShMarkup := []
  idx : List (OpMarkup × UInt8) := []
  deriving DecidableEq

/-- The entries of `idx` for characters without markup. -/
def plainIdx (s : Bytes) : List (OpMarkup × UInt8) := s.map fun c => (none, c)

/-! ### Decoding -/

namespace Scanner

/-- Where the scanner stands. The type of a tag is known once its first two characters are
read. -/
inductive State
  | outside
  | start
  | inside (tag : UInt8)
  | opening
  | closing
  deriving DecidableEq

/-- The scanner, with the back of `mstack` in front. -/
structure Decoder where
  state : State := .outside
  heap : Markups
  string : MarkupString
  mstack : List ShMarkup := []
  current : OpMarkup := none
  deriving DecidableEq

/-- An access that nothing guards. -/
inductive Fault
  /-- `current.value()` with nothing in `current`. -/
  | badOptionalAccess
  /-- `back` or `pop_back` of an empty vector. -/
  | emptyVector
  deriving DecidableEq

/-- How the scan ends before the end of the source. -/
inductive Exit
  | rejected (heap : Markups) (string : MarkupString)
  | fault (f : Fault)
  deriving DecidableEq

/-- A closing tag is complete. -/
def close (d : Decoder) : Except Exit Decoder :=
  match d.current with
  | none => .error (.fault .badOptionalAccess)
  | some current =>
    match d.heap[current]?.bind Markup.validate with
    | some errmsg =>
      .error (.rejected d.heap
        { d.string with text := errmsg, markup := [], idx := plainIdx errmsg })
    | none =>
      match d.mstack with
      | [] => .error (.fault .emptyVector)
      | back :: mstack =>
        -- the tag that is being closed, not the one around it
        .ok { d with current := some back, mstack := mstack, state := .outside }

def step (d : Decoder) (s : UInt8) : Except Exit Decoder :=
  match d.state with
  | .outside =>
    if s = TAG_START then .ok { d with state := .start }
    else
      -- `current` plays no part in this
      .ok { d with string := { d.string with
        text := d.string.text ++ [s], idx := d.string.idx ++ [(none, s)] } }
  | .start => .ok { d with state := .inside s }
  | .inside tag =>
    if s = '/'.toUInt8 then .ok { d with state := .closing }
    else
      let mk := Markup.new tag
      let mk := d.current.elim mk mk.setParent
      let mk := { mk with startText := mk.startText ++ [s] }
      .ok { state := .opening, heap := d.heap ++ [mk]
            string := { d.string with markup := d.string.markup ++ [d.heap.length] }
            mstack := d.heap.length :: d.mstack, current := some d.heap.length }
  | .opening =>
    if s = TAG_END then .ok { d with state := .outside }
    else
      match d.string.markup.getLast? with
      | none => .error (.fault .emptyVector)
      | some back =>
        .ok { d with heap := d.heap.modify back fun k =>
          { k with startText := k.startText ++ [s] } }
  | .closing =>
    if s = TAG_END then close d
    else
      match d.mstack with
      | [] => .error (.fault .emptyVector)
      | back :: _ =>
        .ok { d with heap := d.heap.modify back fun k => { k with endText := k.endText ++ [s] } }

/-! What a turn can do. -/

variable {d d' : Decoder} {c : UInt8}

lemma close_ok (h : close d = .ok d') : ∃ back mstack, d.mstack = back :: mstack ∧
    d' = { d with current := some back, mstack := mstack, state := .outside } := by
  unfold close at h
  split at h
  · cases h
  · split at h
    · cases h
    · split at h
      · cases h
      · next back mstack hstack =>
          cases h
          exact ⟨back, mstack, hstack, rfl⟩

lemma close_rejected {heap : Markups} {m : MarkupString} (h : close d = .error (.rejected heap m)) :
    ∃ errmsg, m = { d.string with text := errmsg, markup := [], idx := plainIdx errmsg } := by
  unfold close at h
  split at h
  · cases h
  · split at h
    · next errmsg _ =>
        cases h
        exact ⟨errmsg, rfl⟩
    · split at h <;> cases h

lemma close_fault {x : Fault} (h : close d = .error (.fault x)) :
    d.current = none ∨ d.mstack = [] := by
  unfold close at h
  split at h
  · next hcurrent => exact Or.inl hcurrent
  · split at h
    · cases h
    · split at h
      · next hstack => exact Or.inr hstack
      · cases h

lemma step_ok (h : step d c = .ok d') :
    d'.string = d.string ∨
    (c ≠ TAG_START ∧ d'.string =
      { d.string with text := d.string.text ++ [c], idx := d.string.idx ++ [(none, c)] }) ∨
    ∃ mark, d'.string = { d.string with markup := d.string.markup ++ [mark] } := by
  obtain ⟨state, heap, string, mstack, current⟩ := d
  cases state with
  | outside =>
      simp only [step] at h
      split_ifs at h with hc
      · cases h
        exact Or.inl rfl
      · cases h
        exact Or.inr (Or.inl ⟨hc, rfl⟩)
  | start =>
      cases h
      exact Or.inl rfl
  | inside tag =>
      simp only [step] at h
      split_ifs at h
      · cases h
        exact Or.inl rfl
      · cases h
        exact Or.inr (Or.inr ⟨_, rfl⟩)
  | opening =>
      simp only [step] at h
      split_ifs at h
      · cases h
        exact Or.inl rfl
      · split at h
        · cases h
        · cases h
          exact Or.inl rfl
  | closing =>
      simp only [step] at h
      split_ifs at h
      · obtain ⟨back, mstack, -, rfl⟩ := close_ok h
        exact Or.inl rfl
      · split at h
        · cases h
        · cases h
          exact Or.inl rfl

lemma close_of_rejected {heap : Markups} {m : MarkupString}
    (h : step d c = .error (.rejected heap m)) :
    d.state = .closing ∧ c = TAG_END ∧ close d = .error (.rejected heap m) := by
  obtain ⟨state, heap, string, mstack, current⟩ := d
  cases state with
  | closing =>
      simp only [step] at h
      split_ifs at h with hc
      · exact ⟨rfl, hc, h⟩
      · split at h <;> cases h
  | start => cases h
  | opening =>
      simp only [step] at h
      split_ifs at h
      split at h <;> cases h
  | _ =>
      simp only [step] at h
      split_ifs at h

lemma step_rejected {heap : Markups} {m : MarkupString}
    (h : step d c = .error (.rejected heap m)) :
    ∃ errmsg, m = { d.string with text := errmsg, markup := [], idx := plainIdx errmsg } :=
  close_rejected (close_of_rejected h).2.2

end Scanner

/-- How a call of `decode_markup` ends. -/
inductive Outcome
  | returned (result : Bool) (heap : Markups) (string : MarkupString)
  | fault (f : Scanner.Fault)
  deriving DecidableEq

namespace MarkupString

/-- What `decode_markup` begins with. -/
def reset (m : MarkupString) : MarkupString :=
  if m.idx ≠ [] then { m with idx := [], markup := [], text := [] } else m

lemma idx_reset (m : MarkupString) : m.reset.idx = [] := by
  unfold reset
  split_ifs with h
  · rfl
  · exact not_not.mp h

/-- `decode_markup`, where the markups constructed before are `heap`. -/
def decodeMarkup (m : MarkupString) (heap : Markups) (src : Bytes) : Outcome :=
  match src.foldlM Scanner.step { heap := heap, string := { m.reset with source := src } } with
  | .ok d => .returned true d.heap d.string
  | .error (.rejected heap m) => .returned false heap m
  | .error (.fault f) => .fault f

end MarkupString

end ForgeMush
