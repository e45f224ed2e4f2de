import Mathlib.Data.List.Basic

/-!
Cutting a list after every separator.

`split` gives the segments that end in a separator, each with its separator, and the
remainder after the last one. Cutting a list that arrives in parts gives the same segments
as cutting it at once, if each part is put behind the remainder of the parts before it.
-/

namespace ForgeMush.Segments

variable {α : Type*} (p : α → Bool)

/-- The segments of a list that end in a separator, and what follows the last of them. -/
def split : List α → List (List α) × List α
  | [] => ([], [])
  | a :: l =>
    if p a then ([a] :: (split l).1, (split l).2)
    else
      match (split l).1 with
      | [] => ([], a :: (split l).2)
      | s :: ss => ((a :: s) :: ss, (split l).2)

def segments (l : List α) : List (List α) := (split p l).1

def remainder (l : List α) : List α := (split p l).2

variable {p}

lemma split_of_forall_not {l : List α} (h : ∀ a ∈ l, p a = false) : split p l = ([], l) := by
  induction l with
  | nil => rfl
  | cons a l ih => simp [split, h a (by simp), ih fun b hb => h b (by simp [hb])]

lemma split_first {u : List α} {a : α} (hu : ∀ b ∈ u, p b = false) (ha : p a = true)
    (v : List α) : split p (u ++ a :: v) = ((u ++ [a]) :: segments p v, remainder p v) := by
  induction u with
  | nil => simp [split, ha, segments, remainder]
  | cons b u ih =>
      have := ih fun c hc => hu c (by simp [hc])
      simp [split, hu b (by simp), this]

lemma of_mem_remainder {l : List α} {a : α} (h : a ∈ remainder p l) : p a = false := by
  unfold remainder at h
  induction l with
  | nil => cases h
  | cons b l ih =>
      rw [split] at h
      split_ifs at h with hb
      · exact ih h
      · split at h
        · rcases List.mem_cons.mp h with rfl | h
          · simpa using hb
          · exact ih h
        · exact ih h

/-- **Cutting in parts**: the segments of the first part stand, and the rest is cut
behind its remainder. -/
theorem split_append (u v : List α) :
    split p (u ++ v) =
      (segments p u ++ segments p (remainder p u ++ v), remainder p (remainder p u ++ v)) := by
  unfold segments remainder
  induction u with
  | nil => simp [split]
  | cons a u ih =>
      rw [List.cons_append, split, ih]
      by_cases ha : p a
      · simp [split, ha]
      · rcases hs : (split p u).1 with _ | ⟨s, ss⟩ <;> simp [split, ha, hs]

lemma segments_append (u v : List α) :
    segments p (u ++ v) = segments p u ++ segments p (remainder p u ++ v) := by
  rw [segments, split_append]

lemma remainder_append (u v : List α) :
    remainder p (u ++ v) = remainder p (remainder p u ++ v) := by
  rw [remainder, split_append]

end ForgeMush.Segments
