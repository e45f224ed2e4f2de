import ForgeMush.Markup
import ForgeMush.Runs

/-!
The public operations of `MarkupString`, and when its text and its index stay in step.

The system is a program that has any number of strings, which it constructs, decodes, copies,
joins and writes to in any order. The strings share their markups.
-/

namespace ForgeMush

open Runs

/-- `std::string(s)` of a C string. -/
def cString (s : Bytes) : Bytes := s.takeWhile fun c => c ≠ 0

namespace MarkupString

/-- The constructor from a `std::string`, with `clear_idx`. -/
def ofString (src : Bytes) : MarkupString :=
  { text := src, source := src, idx := plainIdx src }

/-- `operator+=(const MarkupString&)`. -/
def append (m other : MarkupString) : MarkupString where
  text := m.text ++ other.text
  source := m.source ++ other.source
  markup := m.markup ++ other.markup
  idx := m.idx ++ other.idx

/-- `operator+=(const std::string&)`. -/
def appendString (m : MarkupString) (other : Bytes) : MarkupString :=
  { m with idx := m.idx ++ plainIdx other, text := m.text ++ other }

/-- `operator+=(const char)`. -/
def appendChar (m : MarkupString) (other : UInt8) : MarkupString :=
  { m with idx := m.idx ++ [(none, other)], text := m.text ++ [other] }

/-- `push_back`. -/
def pushBack (m : MarkupString) (c : UInt8) : MarkupString := m.appendChar c

def clear (_m : MarkupString) : MarkupString where
  text := []
  source := []
  markup := []
  idx := []

/-- A write through the non-const `operator[]`. -/
def write (m : MarkupString) (pos : ℕ) (c : UInt8) : MarkupString :=
  { m with text := m.text.set pos c }

/-- The `i`-th character of the text is the one in the `i`-th entry of the index, and there are
as many of both. -/
def InStep (m : MarkupString) : Prop := m.idx.map Prod.snd = m.text

lemma map_snd_plainIdx (s : Bytes) : (plainIdx s).map Prod.snd = s := by
  simp [plainIdx, Function.comp_def]

lemma inStep_empty : InStep {} := rfl

lemma inStep_ofString (s : Bytes) : (ofString s).InStep := map_snd_plainIdx s

variable {m other : MarkupString}

lemma InStep.append (h : m.InStep) (h' : other.InStep) : (m.append other).InStep := by
  unfold InStep at h h' ⊢
  simp only [MarkupString.append, List.map_append, h, h']

lemma InStep.appendString (h : m.InStep) (s : Bytes) : (m.appendString s).InStep := by
  unfold InStep at h ⊢
  simp only [MarkupString.appendString, List.map_append, h, map_snd_plainIdx]

lemma InStep.appendChar (h : m.InStep) (c : UInt8) : (m.appendChar c).InStep := h.appendString [c]

/-- A write keeps the two in step only if it changes nothing. -/
lemma InStep.write_iff (h : m.InStep) {pos : ℕ} (hpos : pos < m.text.length) (c : UInt8) :
    (m.write pos c).InStep ↔ m.text[pos]? = some c := by
  unfold InStep at h ⊢
  simp only [write, h]
  constructor
  · intro hset
    rw [hset, List.getElem?_set_self hpos]
  · intro hc
    obtain ⟨_, hget⟩ := List.getElem?_eq_some_iff.mp hc
    rw [← hget, List.set_getElem_self]

/-- There are as many entries as characters. -/
def SameLength (m : MarkupString) : Prop := m.idx.length = m.text.length

lemma InStep.sameLength (h : m.InStep) : m.SameLength := by
  unfold InStep at h
  rw [SameLength, ← h, List.length_map]

lemma SameLength.append (h : m.SameLength) (h' : other.SameLength) :
    (m.append other).SameLength := by
  unfold SameLength at h h' ⊢
  simp only [MarkupString.append, List.length_append, h, h']

lemma SameLength.text_reset (h : m.SameLength) : m.reset.text = [] := by
  unfold MarkupString.reset
  split_ifs with hidx
  · rfl
  · rw [SameLength, not_not.mp hidx] at h
    exact List.length_eq_zero_iff.mp h.symm

lemma SameLength.reset (h : m.SameLength) (src : Bytes) :
    InStep { m.reset with source := src } := by
  unfold InStep
  dsimp only
  rw [h.text_reset, m.idx_reset, List.map_nil]

/-- **The scanner** keeps the two in step, whichever way it ends. -/
lemma inStep_scan (src : Bytes) {d : Scanner.Decoder} (h : d.string.InStep) :
    (∀ d', src.foldlM Scanner.step d = .ok d' → d'.string.InStep) ∧
      ∀ heap m, src.foldlM Scanner.step d = .error (.rejected heap m) → m.InStep := by
  induction src generalizing d with
  | nil =>
      refine ⟨fun d' hd => ?_, fun heap m hd => ?_⟩
      · cases hd
        exact h
      · cases hd
  | cons c src ih =>
      rw [List.foldlM_cons]
      cases hstep : Scanner.step d c with
      | ok d₁ =>
          refine ih ?_
          rcases Scanner.step_ok hstep with heq | ⟨-, heq⟩ | ⟨mark, heq⟩
          · rw [heq]
            exact h
          · rw [heq]
            exact h.appendChar c
          · rw [heq]
            exact h
      | error x =>
          refine ⟨fun d' hd => (nomatch hd), fun heap m hd => ?_⟩
          cases hd
          obtain ⟨errmsg, rfl⟩ := Scanner.step_rejected hstep
          exact map_snd_plainIdx errmsg

lemma SameLength.decodeMarkup (h : m.SameLength) {heap heap' : Markups} {src : Bytes}
    {result : Bool} {m' : MarkupString}
    (hdecode : m.decodeMarkup heap src = .returned result heap' m') : m'.InStep := by
  obtain ⟨hreturned, hrejected⟩ := inStep_scan src
    (d := { heap := heap, string := { m.reset with source := src } }) (h.reset src)
  unfold MarkupString.decodeMarkup at hdecode
  split at hdecode
  · next d hd =>
      cases hdecode
      exact hreturned d hd
  · next heap₁ m₁ hd =>
      cases hdecode
      exact hrejected _ _ hd
  · cases hdecode

end MarkupString

/-! ### Programs -/

structure Strings where
  heap : Markups := []
  objects : List MarkupString := []

namespace Strings

/-- The operations; a string is named by its place among those constructed. -/
inductive Event
  | construct
  | constructCopy (i : ℕ)
  | constructString (s : Bytes)
  | assign (i j : ℕ)
  | decodeMarkup (i : ℕ) (src : Bytes)
  | decodeMarkupC (i : ℕ) (src : Bytes)
  | append (i j : ℕ)
  | appendString (i : ℕ) (s : Bytes)
  | appendC (i : ℕ) (s : Bytes)
  | appendChar (i : ℕ) (c : UInt8)
  | plus (i j : ℕ)
  | plusString (i : ℕ) (s : Bytes)
  | plusC (i : ℕ) (s : Bytes)
  | plusChar (i : ℕ) (c : UInt8)
  | pushBack (i : ℕ) (c : UInt8)
  | clear (i : ℕ)
  | write (i pos : ℕ) (c : UInt8)

/-- The `i`-th string becomes `f` of what it is. -/
def Changes (p : Strings) (i : ℕ) (f : MarkupString → MarkupString) (p' : Strings) : Prop :=
  ∃ m, p.objects[i]? = some m ∧ p' = { p with objects := p.objects.set i (f m) }

/-- A string is constructed, which is `f` of the `i`-th. -/
def Constructs (p : Strings) (i : ℕ) (f : MarkupString → MarkupString) (p' : Strings) : Prop :=
  ∃ m, p.objects[i]? = some m ∧ p' = { p with objects := p.objects ++ [f m] }

/-- A call of `decode_markup` that returns. -/
def Decodes (p : Strings) (i : ℕ) (src : Bytes) (p' : Strings) : Prop :=
  ∃ m result heap m', p.objects[i]? = some m ∧
    m.decodeMarkup p.heap src = .returned result heap m' ∧
    p' = { heap := heap, objects := p.objects.set i m' }

def Step (p : Strings) : Event → Strings → Prop
  | .construct, p' => p' = { p with objects := p.objects ++ [{}] }
  | .constructCopy i, p' => p.Constructs i id p'
  | .constructString s, p' => p' = { p with objects := p.objects ++ [.ofString s] }
  | .assign i j, p' => ∃ other, p.objects[j]? = some other ∧ p.Changes i (fun _ => other) p'
  | .decodeMarkup i src, p' => p.Decodes i src p'
  | .decodeMarkupC i src, p' => p.Decodes i (cString src) p'
  | .append i j, p' =>
      -- undefined in the source for `i = j`, where a vector's own range is inserted into it: here
      -- that is joining two strings which are equal
      ∃ other, p.objects[j]? = some other ∧ p.Changes i (fun m => m.append other) p'
  | .appendString i s, p' => p.Changes i (fun m => m.appendString s) p'
  | .appendC i s, p' => p.Changes i (fun m => m.appendString (cString s)) p'
  | .appendChar i c, p' => p.Changes i (fun m => m.appendChar c) p'
  | .plus i j, p' => ∃ other, p.objects[j]? = some other ∧
      p.Constructs i (fun m => m.append other) p'
  | .plusString i s, p' => p.Constructs i (fun m => m.appendString s) p'
  | .plusC i s, p' => p.Constructs i (fun m => m.appendString (cString s)) p'
  | .plusChar i c, p' => p.Constructs i (fun m => m.appendChar c) p'
  | .pushBack i c, p' => p.Changes i (fun m => m.pushBack c) p'
  | .clear i, p' => p.Changes i MarkupString.clear p'
  | .write i pos c, p' => ∃ m, p.objects[i]? = some m ∧ pos < m.text.length ∧
      p' = { p with objects := p.objects.set i (m.write pos c) }

/-- The source that is decoded. -/
def Event.source? : Event → Option Bytes
  | .decodeMarkup _ src => some src
  | .decodeMarkupC _ src => some (cString src)
  | _ => none

/-- The plain characters that are appended. -/
def Event.plain? : Event → Option Bytes
  | .appendString _ s => some s
  | .appendC _ s => some (cString s)
  | .appendChar _ c => some [c]
  | .plusString _ s => some s
  | .plusC _ s => some (cString s)
  | .plusChar _ c => some [c]
  | .pushBack _ c => some [c]
  | _ => none

/-- The string that an event makes. -/
inductive Made (p : Strings) (e : Event) : MarkupString → Prop
  | empty : Made p e {}
  | old {m : MarkupString} (hm : m ∈ p.objects) : Made p e m
  | ofString {s : Bytes} (he : e = .constructString s) : Made p e (.ofString s)
  | decoded {m m' : MarkupString} {src : Bytes} {result : Bool} {heap : Markups}
    (hm : m ∈ p.objects) (he : e.source? = some src)
    (h : m.decodeMarkup p.heap src = .returned result heap m') : Made p e m'
  | joined {m other : MarkupString} (hm : m ∈ p.objects) (hother : other ∈ p.objects) :
    Made p e (m.append other)
  | appended {m : MarkupString} {s : Bytes} (hm : m ∈ p.objects) (he : e.plain? = some s) :
    Made p e (m.appendString s)
  | written {m : MarkupString} {i pos : ℕ} {c : UInt8} (he : e = .write i pos c)
    (hm : p.objects[i]? = some m) (hpos : pos < m.text.length) : Made p e (m.write pos c)

variable {p p' : Strings}

/-- One string is made, and the others are as they were. -/
def Makes (p : Strings) (e : Event) (p' : Strings) : Prop :=
  ∃ m, Made p e m ∧ m ∈ p'.objects ∧ ∀ m' ∈ p'.objects, m' ∈ p.objects ∨ m' = m

lemma makes_snoc {e : Event} {m : MarkupString} (hm : Made p e m) :
    Makes p e { p with objects := p.objects ++ [m] } := by
  refine ⟨m, hm, by simp, fun m' hm' => ?_⟩
  simpa using hm'

lemma makes_set {e : Event} {i : ℕ} {m m' : MarkupString} (hi : p.objects[i]? = some m)
    (hm' : Made p e m') (heap : Markups) :
    Makes p e { heap := heap, objects := p.objects.set i m' } := by
  obtain ⟨hlt, -⟩ := List.getElem?_eq_some_iff.mp hi
  exact ⟨m', hm', List.mem_set hlt m', fun _ h => List.mem_or_eq_of_mem_set h⟩

lemma makes_changes {e : Event} {i : ℕ} {f : MarkupString → MarkupString}
    (hf : ∀ m ∈ p.objects, Made p e (f m)) (hp : p.Changes i f p') : Makes p e p' := by
  obtain ⟨m, hm, rfl⟩ := hp
  exact makes_set hm (hf m (List.mem_of_getElem? hm)) p.heap

lemma makes_constructs {e : Event} {i : ℕ} {f : MarkupString → MarkupString}
    (hf : ∀ m ∈ p.objects, Made p e (f m)) (hp : p.Constructs i f p') : Makes p e p' := by
  obtain ⟨m, hm, rfl⟩ := hp
  exact makes_snoc (hf m (List.mem_of_getElem? hm))

lemma makes_decodes {e : Event} {i : ℕ} {src : Bytes} (he : e.source? = some src)
    (hp : p.Decodes i src p') : Makes p e p' := by
  obtain ⟨m, result, heap, m', hm, hdecode, rfl⟩ := hp
  exact makes_set hm (.decoded (List.mem_of_getElem? hm) he hdecode) heap

/-- **What an operation can do.** -/
theorem makes_of_step {e : Event} (hstep : Step p e p') : Makes p e p' := by
  cases e with
  | construct => exact hstep ▸ makes_snoc .empty
  | constructCopy i => exact makes_constructs (fun _ hm => .old hm) hstep
  | constructString s => exact hstep ▸ makes_snoc (.ofString rfl)
  | assign i j =>
      obtain ⟨other, hother, hp⟩ := hstep
      exact makes_changes (fun _ _ => .old (List.mem_of_getElem? hother)) hp
  | decodeMarkup i src => exact makes_decodes rfl hstep
  | decodeMarkupC i src => exact makes_decodes rfl hstep
  | append i j =>
      obtain ⟨other, hother, hp⟩ := hstep
      exact makes_changes (fun _ hm => .joined hm (List.mem_of_getElem? hother)) hp
  | appendString i s => exact makes_changes (fun _ hm => .appended hm rfl) hstep
  | appendC i s => exact makes_changes (fun _ hm => .appended hm rfl) hstep
  | appendChar i c => exact makes_changes (fun _ hm => .appended hm rfl) hstep
  | plus i j =>
      obtain ⟨other, hother, hp⟩ := hstep
      exact makes_constructs (fun _ hm => .joined hm (List.mem_of_getElem? hother)) hp
  | plusString i s => exact makes_constructs (fun _ hm => .appended hm rfl) hstep
  | plusC i s => exact makes_constructs (fun _ hm => .appended hm rfl) hstep
  | plusChar i c => exact makes_constructs (fun _ hm => .appended hm rfl) hstep
  | pushBack i c => exact makes_changes (fun _ hm => .appended hm rfl) hstep
  | clear i => exact makes_changes (fun _ _ => .empty) hstep
  | write i pos c =>
      obtain ⟨m, hm, hpos, rfl⟩ := hstep
      exact makes_set hm (.written rfl hm hpos) p.heap

/-- **The rule for all strings**: what the string made has, if all had it, all have again. -/
lemma Makes.all {e : Event} {I : MarkupString → Prop} (h : Makes p e p')
    (hp : ∀ m ∈ p.objects, I m) (hI : ∀ m, Made p e m → I m) : ∀ m ∈ p'.objects, I m := by
  obtain ⟨m, hmade, -, hall⟩ := h
  intro m' hm'
  rcases hall m' hm' with hold | rfl
  · exact hp m' hold
  · exact hI m' hmade

/-- Every string is in step. -/
def AllInStep (p : Strings) : Prop := ∀ m ∈ p.objects, m.InStep

/-- What is written through `operator[]` is the character that is there. -/
def WritesSame (p : Strings) : Event → Prop
  | .write i pos c => ∀ m, p.objects[i]? = some m → m.text[pos]? = some c
  | _ => True

lemma AllInStep.step {e : Event} (h : p.AllInStep) (hsame : p.WritesSame e)
    (hstep : Step p e p') : p'.AllInStep := by
  refine (makes_of_step hstep).all h fun m hm => ?_
  cases hm with
  | empty => exact MarkupString.inStep_empty
  | old hm => exact h m hm
  | ofString _ => exact MarkupString.inStep_ofString _
  | decoded hm _ hdecode => exact (h _ hm).sameLength.decodeMarkup hdecode
  | joined hm hother => exact (h _ hm).append (h _ hother)
  | appended hm _ => exact (h _ hm).appendString _
  | written he hm hpos =>
      subst he
      exact ((h _ (List.mem_of_getElem? hm)).write_iff hpos _).mpr (hsame _ hm)

lemma AllInStep.not_step {e : Event} (h : p.AllInStep) (hdiff : ¬ p.WritesSame e)
    (hstep : Step p e p') : ¬ p'.AllInStep := by
  cases e with
  | write i pos c =>
      obtain ⟨m, hm, hpos, rfl⟩ := hstep
      intro hall
      refine hdiff fun m' hm' => ?_
      rw [hm] at hm'
      cases hm'
      obtain ⟨hi, -⟩ := List.getElem?_eq_some_iff.mp hm
      exact ((h m (List.mem_of_getElem? hm)).write_iff hpos c).mp (hall _ (List.mem_set hi _))
  | _ => exact absurd trivial hdiff

/-- **Lengths** are the same for every string of a program, even if some are written to. -/
theorem sameLength_of_run {tr : List (Event × Strings)} (h : Run Step {} tr) :
    ∀ m ∈ (final {} tr).objects, m.SameLength := by
  refine h.invariant (I := fun p => ∀ m ∈ p.objects, m.SameLength) (fun p e p' hp hstep => ?_)
    fun m hm => absurd hm List.not_mem_nil
  refine (makes_of_step hstep).all hp fun m hm => ?_
  cases hm with
  | empty => rfl
  | old hm => exact hp m hm
  | ofString _ => exact (MarkupString.inStep_ofString _).sameLength
  | decoded hm _ hdecode => exact ((hp _ hm).decodeMarkup hdecode).sameLength
  | joined hm hother => exact (hp _ hm).append (hp _ hother)
  | appended hm _ =>
      have hlen := hp _ hm
      unfold MarkupString.SameLength at hlen ⊢
      simp only [MarkupString.appendString, List.length_append, hlen, plainIdx, List.length_map]
  | written _ hm _ =>
      have hlen := hp _ (List.mem_of_getElem? hm)
      unfold MarkupString.SameLength at hlen ⊢
      rwa [MarkupString.write, List.length_set]

/-- **Text and index** stay in step in a program, from its first string on, exactly if every
write through `operator[]` stores the character that is there already. -/
theorem allInStep_iff_writesSame (tr : List (Event × Strings)) (h : Run Step {} tr) :
    Always AllInStep {} tr ↔ AllSteps WritesSame {} tr := by
  have hinit : AllInStep {} := fun m hm => absurd hm List.not_mem_nil
  exact h.always_iff_allSteps (fun _ hI => hI) (fun _ _ _ hI hsame hstep => hI.step hsame hstep)
    (fun _ _ _ hI hdiff hstep => hI.not_step hdiff hstep) hinit

/-- A string that is constructed, decoded, joined to itself and written to. -/
theorem same_write_in_step : ∃ tr : List (Event × Strings),
    events tr = [.constructString [97], .decodeMarkup 0 [98, 99], .plus 0 0, .append 1 0,
      .write 1 0 98] ∧
    Run Step {} tr ∧ Always AllInStep {} tr := by
  have hrun : Run Step {} [(.constructString [97], _), (.decodeMarkup 0 [98, 99], _),
      (.plus 0 0, _), (.append 1 0, _), (.write 1 0 98, _)] :=
    .cons rfl (.cons ⟨_, _, _, _, rfl, rfl, rfl⟩ (.cons ⟨_, rfl, _, rfl, rfl⟩
      (.cons ⟨_, rfl, _, rfl, rfl⟩ (.cons ⟨_, rfl, by decide, rfl⟩ (.nil _)))))
  refine ⟨_, rfl, hrun, (allInStep_iff_writesSame _ hrun).mpr ?_⟩
  refine ⟨trivial, trivial, trivial, trivial, fun m hm => ?_, trivial⟩
  cases hm
  rfl

/-- Another character is written. -/
theorem write_out_of_step : ∃ tr : List (Event × Strings),
    events tr = [.constructString [97], .write 0 0 98] ∧ Run Step {} tr ∧
    ¬ Always AllInStep {} tr ∧
    (final {} tr).objects = [{ text := [98], source := [97], idx := [(none, 97)] }] := by
  have hrun : Run Step {} [(.constructString [97], _), (.write 0 0 98, _)] :=
    .cons rfl (.cons ⟨_, rfl, by decide, rfl⟩ (.nil _))
  refine ⟨_, rfl, hrun, fun hall => ?_, rfl⟩
  have hchars : ([97] : Bytes) = [98] := hall.final _ (List.mem_singleton_self _)
  exact absurd hchars (by decide)

end Strings

end ForgeMush
