import ForgeMush.Concatenation
import ForgeMush.Rejection

/-!
When the source of a string is the source of its text.

The overload of `+=` for strings with markup adds to the source, and so does `operator+`; those
for plain characters add to the text and the index only.
-/

namespace ForgeMush

open Runs

namespace MarkupString

/-- Decoding the source in a fresh string comes to the text. -/
def Resourced (m : MarkupString) : Prop :=
  ∀ heap, ∃ heap' m', decodeMarkup {} heap m.source = .returned true heap' m' ∧ m'.text = m.text

/-- The string has been decoded from, or put together of, sources that are accepted. -/
structure Sourced (m : MarkupString) : Prop where
  length : m.SameLength
  source : ∃ f : Source, f.bytes = m.source ∧ f.text = m.text ∧ ∀ o ∈ f.checks, o.validate = none

variable {m other : MarkupString}

lemma sourced_empty : Sourced {} :=
  ⟨rfl, .nil, rfl, rfl, List.forall_mem_nil _⟩

lemma sourced_ofString {s : Bytes} (hs : TAG_START ∉ s) : Sourced (ofString s) := by
  obtain ⟨f, hbytes, htext, hchecks⟩ := Source.exists_plain hs
  exact ⟨(inStep_ofString s).sameLength, f, hbytes, htext, by simp [hchecks]⟩

lemma Sourced.append (h : m.Sourced) (h' : other.Sourced) : (m.append other).Sourced := by
  obtain ⟨f, hbytes, htext, hf⟩ := h.source
  obtain ⟨g, hbytes', htext', hg⟩ := h'.source
  refine ⟨h.length.append h'.length, f.append g, ?_, ?_, checks_append hf hg⟩
  · rw [Source.bytes_append, hbytes, hbytes', MarkupString.append]
  · rw [Source.text_append, htext, htext', MarkupString.append]

lemma checks_of_decodeMarkup {f : Source} {heap heap' : Markups} {m' : MarkupString}
    (h : m.decodeMarkup heap f.bytes = .returned true heap' m') :
    ∀ o ∈ f.checks, o.validate = none := by
  obtain ⟨d, hrun, -⟩ := decodeMarkup_eq_true.mp h
  rw [← f.bytes.append_nil] at hrun
  exact Scanner.checks_of_run_ok rfl hrun

lemma SameLength.sourced_decodeMarkup (hm : m.SameLength) {f : Source}
    (hchecks : ∀ o ∈ f.checks, o.validate = none) {heap heap' : Markups} {result : Bool}
    {m' : MarkupString} (h : m.decodeMarkup heap f.bytes = .returned result heap' m') :
    m'.Sourced := by
  refine ⟨(hm.decodeMarkup h).sameLength, f, ?_, ?_, hchecks⟩
  all_goals
    rw [decodeMarkup_accepted hchecks] at h
    cases h
  · rfl
  · rw [hm.text_reset, List.nil_append]

lemma Sourced.resourced (h : m.Sourced) : m.Resourced := by
  obtain ⟨f, hbytes, htext, hchecks⟩ := h.source
  intro heap
  rw [← hbytes, ← htext]
  exact ⟨_, _, decodeMarkup_accepted hchecks {} heap, rfl⟩

lemma appendString_nil (m : MarkupString) : m.appendString [] = m := by
  simp [appendString, plainIdx]

/-- The characters are in the text, but not in the source. -/
lemma Sourced.appendString_not_resourced (h : m.Sourced) {s : Bytes} (hs : s ≠ []) :
    ¬ (m.appendString s).Resourced := by
  intro happend
  obtain ⟨heap', m', hdecode, htext⟩ := h.resourced []
  obtain ⟨heap'', m'', hdecode', htext'⟩ := happend []
  cases hdecode.symm.trans hdecode'
  rw [htext] at htext'
  exact hs (List.self_eq_append_right.mp htext')

end MarkupString

namespace Strings

variable {p p' : Strings}

/-- The call returns true. -/
def Succeeds (p : Strings) (i : ℕ) (src : Bytes) : Prop :=
  ∃ m heap m', p.objects[i]? = some m ∧ m.decodeMarkup p.heap src = .returned true heap m'

/-- Only well-nested sources are decoded, with success, no start of a tag is put in as plain
text, and nothing is written through `operator[]`. -/
def Builds (p : Strings) : Event → Prop
  | .decodeMarkup i src => (∃ f : Source, f.bytes = src) ∧ p.Succeeds i src
  | .decodeMarkupC i src => (∃ f : Source, f.bytes = cString src) ∧ p.Succeeds i (cString src)
  | .constructString s => TAG_START ∉ s
  | .write _ _ _ => False
  | e => ∀ s, e.plain? = some s → TAG_START ∉ s

/-- The source of every string is that of its text. -/
def AllResourced (p : Strings) : Prop := ∀ m ∈ p.objects, m.Resourced

/-- No plain characters are appended. -/
def NoPlain (_ : Strings) (e : Event) : Prop := ∀ s, e.plain? = some s → s = []

lemma Builds.accepted {e : Event} (h : p.Builds e) {src : Bytes} (he : e.source? = some src) :
    ∃ f : Source, f.bytes = src ∧ ∀ o ∈ f.checks, o.validate = none := by
  have hof : ∀ {i src}, (∃ f : Source, f.bytes = src) ∧ p.Succeeds i src →
      ∃ f : Source, f.bytes = src ∧ ∀ o ∈ f.checks, o.validate = none := by
    rintro i _ ⟨⟨f, rfl⟩, m, heap, m', -, hdecode⟩
    exact ⟨f, rfl, MarkupString.checks_of_decodeMarkup hdecode⟩
  cases e with
  | decodeMarkup i _ =>
      cases he
      exact hof h
  | decodeMarkupC i _ =>
      cases he
      exact hof h
  | _ => cases he

lemma sourced_step {e : Event} (h : ∀ m ∈ p.objects, m.Sourced) (hbuilds : p.Builds e)
    (hplain : p.NoPlain e) (hstep : Step p e p') : ∀ m ∈ p'.objects, m.Sourced := by
  refine (makes_of_step hstep).all h fun m hm => ?_
  cases hm with
  | empty => exact MarkupString.sourced_empty
  | old hm => exact h m hm
  | ofString he =>
      subst he
      exact MarkupString.sourced_ofString hbuilds
  | decoded hm he hdecode =>
      obtain ⟨f, rfl, hchecks⟩ := hbuilds.accepted he
      exact (h _ hm).length.sourced_decodeMarkup hchecks hdecode
  | joined hm hother => exact (h _ hm).append (h _ hother)
  | appended hm he =>
      rw [hplain _ he, MarkupString.appendString_nil]
      exact h _ hm
  | written he _ _ =>
      subst he
      exact hbuilds.elim

lemma exists_appended {e : Event} {s : Bytes} (he : e.plain? = some s) (hstep : Step p e p') :
    ∃ m ∈ p.objects, m.appendString s ∈ p'.objects := by
  have hchanges : ∀ {i : ℕ} {s : Bytes}, p.Changes i (fun m => m.appendString s) p' →
      ∃ m ∈ p.objects, m.appendString s ∈ p'.objects := by
    rintro i s ⟨m, hm, rfl⟩
    obtain ⟨hi, -⟩ := List.getElem?_eq_some_iff.mp hm
    exact ⟨m, List.mem_of_getElem? hm, List.mem_set hi _⟩
  have hconstructs : ∀ {i : ℕ} {s : Bytes}, p.Constructs i (fun m => m.appendString s) p' →
      ∃ m ∈ p.objects, m.appendString s ∈ p'.objects := by
    rintro i s ⟨m, hm, rfl⟩
    exact ⟨m, List.mem_of_getElem? hm, List.mem_append_right _ (List.mem_singleton_self _)⟩
  cases e with
  | appendString i _ | appendC i _ | appendChar i _ | pushBack i _ =>
      cases he
      exact hchanges hstep
  | plusString i _ | plusC i _ | plusChar i _ =>
      cases he
      exact hconstructs hstep
  | _ => cases he

/-- **The source of a string** is that of its text, throughout a program that decodes
well-nested sources with success, adds up the strings and appends plain characters, exactly if
what it appends is always empty. -/
theorem allResourced_iff_noPlain (tr : List (Event × Strings)) (h : Run Step {} tr)
    (hbuilds : AllSteps Builds {} tr) : Always AllResourced {} tr ↔ AllSteps NoPlain {} tr := by
  refine (h.restrict_steps hbuilds).always_iff_allSteps (I := fun p => ∀ m ∈ p.objects, m.Sourced)
    (fun p hI m hm => (hI m hm).resourced) ?_ ?_ fun m hm => absurd hm List.not_mem_nil
  · intro p e p' hI hplain hstep
    exact sourced_step hI hstep.2 hplain hstep.1
  · intro p e p' hI hplain hstep hall
    refine hplain fun s he => ?_
    obtain ⟨m, hm, happend⟩ := exists_appended he hstep.1
    by_contra hs
    exact (hI m hm).appendString_not_resourced hs (hall _ happend)

/-- A letter in an element and a plain one, decoded and added, with nothing appended. -/
theorem sum_resourced : ∃ tr : List (Event × Strings),
    events tr = [.construct, .decodeMarkup 0 MarkupString.inside.bytes, .constructString [98],
      .append 0 1, .appendString 0 []] ∧
    Run Step {} tr ∧ AllSteps Builds {} tr ∧ Always AllResourced {} tr := by
  obtain ⟨tr, hevents, hrun, hbuilds, hplain⟩ : ∃ tr : List (Event × Strings),
      events tr = [.construct, .decodeMarkup 0 MarkupString.inside.bytes, .constructString [98],
        .append 0 1, .appendString 0 []] ∧
      Run Step {} tr ∧ AllSteps Builds {} tr ∧ AllSteps NoPlain {} tr := by
    have hrun : Run Step {} [(.construct, _), (.decodeMarkup 0 MarkupString.inside.bytes, _),
        (.constructString [98], _), (.append 0 1, _), (.appendString 0 [], _)] :=
      .cons rfl (.cons ⟨_, _, _, _, rfl, rfl, rfl⟩ (.cons rfl (.cons ⟨_, rfl, _, rfl, rfl⟩
        (.cons ⟨_, rfl, rfl⟩ (.nil _)))))
    refine ⟨_, rfl, hrun, ?_, ?_⟩
    · refine ⟨fun s hs => (nomatch hs), ⟨⟨_, rfl⟩, _, _, _, rfl, rfl⟩,
        (by decide : TAG_START ∉ [98]), fun s hs => (nomatch hs), fun s hs => ?_, trivial⟩
      cases hs
      exact List.not_mem_nil
    · refine ⟨fun s hs => (nomatch hs), fun s hs => (nomatch hs), fun s hs => (nomatch hs),
        fun s hs => (nomatch hs), fun s hs => ?_, trivial⟩
      cases hs
      rfl
  exact ⟨tr, hevents, hrun, hbuilds, (allResourced_iff_noPlain tr hrun hbuilds).mpr hplain⟩

/-- A letter is appended to an empty string. -/
theorem letter_not_resourced : ∃ tr : List (Event × Strings),
    events tr = [.construct, .appendChar 0 97] ∧ Run Step {} tr ∧ AllSteps Builds {} tr ∧
    ¬ Always AllResourced {} tr ∧
    (final {} tr).objects = [{ text := [97], idx := [(none, 97)] }] := by
  have hrun : Run Step {} [(.construct, _), (.appendChar 0 97, _)] :=
    .cons rfl (.cons ⟨_, rfl, rfl⟩ (.nil _))
  refine ⟨_, rfl, hrun, ⟨fun s hs => (nomatch hs), fun s hs => ?_, trivial⟩, fun hall => ?_, rfl⟩
  · cases hs
    decide
  · obtain ⟨heap', m', hdecode, htext⟩ := hall.final _ (List.mem_singleton_self _) []
    cases hdecode
    cases htext

end Strings

end ForgeMush
