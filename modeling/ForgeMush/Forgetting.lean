import ForgeMush.Rejection
import ForgeMush.Relocation

/-!
What decoding keeps of what a string held before.

Text and index are always dropped, since one is empty when the other is. The markups are
dropped only if there is an index, so that those of a source with tags and no text are kept.
-/

namespace ForgeMush

open Runs

namespace MarkupString

variable {m m' : MarkupString} {heap heap' : Markups} {src : Bytes}

lemma plain_of_returned_false (h : m.decodeMarkup heap src = .returned false heap' m') :
    m'.markup = [] ∧ m'.idx = plainIdx m'.text := by
  rw [decodeMarkup_eq_false] at h
  obtain ⟨u, c, v, d, -, -, -, hstep⟩ := Scanner.exists_exit (Scanner.hasRead_nil rfl rfl) h
  obtain ⟨errmsg, rfl⟩ := Scanner.step_rejected hstep
  exact ⟨rfl, rfl⟩

lemma not_reaches (hmarkup : m.markup = []) (hidx : m.idx = plainIdx m.text) (mark : ShMarkup) :
    ¬ Reaches heap m mark := by
  intro h
  induction h with
  | markup h => simp [hmarkup] at h
  | idx h => simp [hidx, plainIdx] at h
  | parent _ _ _ ih => exact ih

lemma markup_reset_iff (m : MarkupString) : m.reset.markup = [] ↔ m.idx ≠ [] ∨ m.markup = [] := by
  unfold reset
  split_ifs with hidx
  · exact ⟨fun _ => Or.inl hidx, fun _ => rfl⟩
  · exact (or_iff_right hidx).symm

/-- **Decoding forgets what was before**, in a string that a program has reached, exactly if the
string has text or no markups, or the source is not accepted. -/
theorem forgets_iff {tr : List (Strings.Event × Strings)} (h : Run Strings.Step {} tr)
    (m : MarkupString) (hm : m ∈ (final {} tr).objects) (src : Bytes) (result : Bool)
    (heap₁ : Markups) (m₁ : MarkupString)
    (hdecode : m.decodeMarkup (final {} tr).heap src = .returned result heap₁ m₁)
    (heap : Markups) (result' : Bool) (heap₂ : Markups) (m₂ : MarkupString)
    (hfresh : decodeMarkup {} heap src = .returned result' heap₂ m₂) :
    (result = result' ∧ Same heap₂ m₂ heap₁ m₁) ↔
      m.idx ≠ [] ∨ m.markup = [] ∨ ∃ o, Scanner.Rejects src o := by
  have hlen := Strings.sameLength_of_run h m hm
  rw [← or_assoc, ← markup_reset_iff, ← returned_false_iff hdecode]
  rw [decodeMarkup_move] at hdecode hfresh
  cases hbase : decodeMarkup {} [] src with
  | fault x =>
      rw [hbase] at hdecode
      cases hdecode
  | returned b K s =>
      rw [hbase] at hdecode hfresh
      cases b with
      | false =>
          cases hdecode
          cases hfresh
          obtain ⟨hmarkup, hidx⟩ := plain_of_returned_false hbase
          refine ⟨fun _ => Or.inr rfl, fun _ => ⟨rfl, id, rfl, rfl, ?_, ?_, ?_, ?_⟩⟩
          · rw [hmarkup, List.map_nil]
          · rw [hidx, renameIdx_plainIdx]
          · exact fun i j hi => absurd hi (not_reaches hmarkup hidx i)
          · exact fun i hi => absurd hi (not_reaches hmarkup hidx i)
      | true =>
          cases hdecode
          cases hfresh
          simp only [Bool.true_eq_false, or_false, true_and]
          constructor
          · rintro ⟨ρ, hρ⟩
            have hcount := congrArg List.length hρ.markup
            simpa [Scanner.moveString, reset] using hcount
          · intro hnone
            have hsame := same_move heap (final {} tr).heap K s
            have hpre : Scanner.moveString (final {} tr).heap m.reset s =
                Scanner.moveString (final {} tr).heap {} s := by
              simp [Scanner.moveString, hlen.text_reset, m.idx_reset, hnone]
            rwa [hpre]

/-- An empty element, with nothing to be seen of it in the text. -/
def bare : Bytes := emptyElement 'r'.toUInt8

theorem text_forgotten : ∃ tr : List (Strings.Event × Strings),
    events tr = [.constructString [97]] ∧ Run Strings.Step {} tr ∧
    ∃ heap₁ m₁ heap₂ m₂,
      (ofString [97]).decodeMarkup (final {} tr).heap bare = .returned true heap₁ m₁ ∧
      decodeMarkup {} [] bare = .returned true heap₂ m₂ ∧ Same heap₂ m₂ heap₁ m₁ := by
  have hrun : Run Strings.Step {} [(.constructString [97], _)] := .cons rfl (.nil _)
  refine ⟨_, rfl, hrun, _, _, _, _, rfl, rfl, ?_⟩
  exact ((forgets_iff hrun (ofString [97]) List.mem_cons_self bare true _ _ rfl [] true _ _
    rfl).mpr (Or.inl (by decide))).2

/-- A string that the element has been decoded into before. It is listed twice. -/
theorem bare_element_kept : ∃ tr : List (Strings.Event × Strings),
    events tr = [.construct, .decodeMarkup 0 bare] ∧ Run Strings.Step {} tr ∧
    ∃ m ∈ (final {} tr).objects, ∃ heap₁ m₁ heap₂ m₂,
      m.decodeMarkup (final {} tr).heap bare = .returned true heap₁ m₁ ∧
      decodeMarkup {} [] bare = .returned true heap₂ m₂ ∧ m₁.markup = [0, 1] ∧
      m₂.markup = [0] ∧ ¬ Same heap₂ m₂ heap₁ m₁ := by
  have hrun : Run Strings.Step {} [(.construct, _), (.decodeMarkup 0 bare, _)] :=
    .cons rfl (.cons ⟨_, _, _, _, rfl, rfl, rfl⟩ (.nil _))
  refine ⟨_, rfl, hrun, _, List.mem_cons_self, _, _, _, _, rfl, rfl, rfl, rfl, ?_⟩
  rintro ⟨ρ, hρ⟩
  have hcount : 2 = 1 := congrArg List.length hρ.markup
  cases hcount

end MarkupString

end ForgeMush
