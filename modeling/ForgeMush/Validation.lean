import ForgeMush.Attribution

/-!
Which start texts of a well-nested source are checked.

A closing tag has `current` validated, and that is its own tag only if there is no element
inside. An element's tag is otherwise seen when the element around it is closed, and only if it
is the last one in there.
-/

namespace ForgeMush

namespace Source

def closes : Source → List OpenTag
  | nil => []
  | char _ _ rest => rest.closes
  | element o body _ rest => body.closes ++ [o] ++ rest.closes

lemma mem_closes {f : Source} {o : OpenTag} : o ∈ f.closes ↔ o ∈ f.opens := by
  induction f with
  | nil => exact Iff.rfl
  | char c _ rest ih => exact ih
  | element t body e rest ihbody ihrest =>
      simp only [closes, opens, List.mem_append, List.mem_cons, List.not_mem_nil, or_false, ihbody,
        ihrest]
      tauto

end Source

/-- The call returns: true if every start text is accepted, and false with the message for the
first tag to close whose start text is not. -/
def Outcome.Validates (f : Source) : Outcome → Prop
  | .returned true _ _ => ∀ o ∈ f.opens, o.validate = none
  | .returned false _ m => ∃ errmsg, f.closes.findSome? OpenTag.validate = some errmsg ∧
      m.text = errmsg ∧ m.idx = plainIdx errmsg ∧ m.markup = []
  | .fault _ => False

namespace MarkupString

/-- **Validation** covers the tags of a source exactly if the first message among the tags that
are validated is the first among those that are closed. -/
theorem validates_iff_checks (f : Source) (m : MarkupString) (heap : Markups) :
    (m.decodeMarkup heap f.bytes).Validates f ↔
      f.checks.findSome? OpenTag.validate = f.closes.findSome? OpenTag.validate := by
  cases hchecks : f.checks.findSome? OpenTag.validate with
  | none =>
      rw [decodeMarkup_accepted (List.findSome?_eq_none_iff.mp hchecks), eq_comm,
        List.findSome?_eq_none_iff]
      simp only [Outcome.Validates, Source.mem_closes]
  | some errmsg =>
      obtain ⟨heap', hdecode⟩ := decodeMarkup_rejected hchecks m heap
      rw [hdecode]
      constructor
      · rintro ⟨msg, hmsg, rfl, -, -⟩
        exact hmsg.symm
      · intro h
        exact ⟨errmsg, h.symm, rfl, rfl, rfl⟩

def badOutside : Source := .color '?'.toUInt8 (by decide) (.red .nil .nil) .nil

theorem bad_outside_not_validated :
    ¬ (MarkupString.decodeMarkup {} [] badOutside.bytes).Validates badOutside ∧
    ∃ heap m, MarkupString.decodeMarkup {} [] badOutside.bytes = .returned true heap m := by
  refine ⟨fun h => ?_, _, _, rfl⟩
  have hall : ∀ o ∈ badOutside.opens, o.validate = none := h
  exact absurd (hall _ List.mem_cons_self) (by decide)

end MarkupString

end ForgeMush
