import ForgeMush.Regex

/-!
Which subjects a pattern matches as a whole, item by item and without backtracking.
-/

namespace ForgeMush.Regex

variable {α : Type*}

lemma Item.mem_ends_many {p : α → Bool} {lo : ℕ} {hi : Option ℕ} {x y : Pos α} :
    y ∈ (many p lo hi).ends x ↔ ∃ w, (many p lo hi).Word w ∧ x.Between w y := by
  refine ⟨exists_word, ?_⟩
  rintro ⟨w, ⟨hall, hlo, hhi⟩, hafter, hbefore⟩
  have hlen : w.length ≤ (x.after.takeWhile p).length := by
    rw [hafter, List.takeWhile_append_of_pos hall, List.length_append]
    exact Nat.le_add_right _ _
  generalize hn : hi.elim (x.after.takeWhile p).length
    (min (x.after.takeWhile p).length) = n
  have hle : w.length ≤ n := by
    cases hi with
    | none => exact hn ▸ hlen
    | some hi =>
        subst hn
        exact Nat.le_min.mpr ⟨hlen, hhi hi rfl⟩
  have hy : x.advance w.length = y := by
    obtain ⟨before, after⟩ := y
    dsimp only at hafter hbefore
    simp only [Pos.advance, hafter, List.take_left, List.drop_left, hbefore]
  refine List.mem_map.mpr ⟨n - w.length, ?_, ?_⟩
  · rw [List.mem_range, hn]
    omega
  · rw [hn, Nat.sub_sub_self hle, hy]

namespace Pattern

/-- The pattern takes in all of `s`, where `b` stands before it, nearest first. -/
def Fits (r : Pattern α) (b s : List α) : Prop := ∃ y ∈ r.ends ⟨b, s⟩, y.after = []

variable {i : Item α} {r : Pattern α} {b s : List α} {p word : α → Bool} {lo : ℕ} {hi : Option ℕ}

lemma fits_nil : Fits [] b s ↔ s = [] := by
  simp [Fits]

lemma fits_cons : Fits (i :: r) b s ↔ ∃ y ∈ i.ends ⟨b, s⟩, r.Fits y.before y.after := by
  simp only [Fits, ends_cons, List.mem_flatMap]
  constructor
  · rintro ⟨y, ⟨z, hz, hy⟩, hnil⟩
    exact ⟨z, hz, y, hy, hnil⟩
  · rintro ⟨z, hz, y, hy, hnil⟩
    exact ⟨y, ⟨z, hz, hy⟩, hnil⟩

lemma fits_many : Fits (.many p lo hi :: r) b s ↔
    ∃ u v, s = u ++ v ∧ (Item.many p lo hi).Word u ∧ r.Fits (u.reverse ++ b) v := by
  rw [fits_cons]
  constructor
  · rintro ⟨y, hy, hfits⟩
    obtain ⟨u, hu, hafter, hbefore⟩ := Item.mem_ends_many.mp hy
    exact ⟨u, y.after, hafter, hu, hbefore ▸ hfits⟩
  · rintro ⟨u, v, rfl, hu, hfits⟩
    exact ⟨⟨u.reverse ++ b, v⟩, Item.mem_ends_many.mpr ⟨u, hu, rfl, rfl⟩, hfits⟩

lemma fits_lit [DecidableEq α] {a : α} :
    Fits (.lit a :: r) b s ↔ ∃ v, s = a :: v ∧ r.Fits (a :: b) v := by
  unfold Item.lit
  rw [fits_many]
  constructor
  · rintro ⟨u, v, rfl, hu, hfits⟩
    obtain ⟨t, hcons, rfl⟩ := word_lit_cons (r := []) ⟨u, [], (List.append_nil u).symm, hu, rfl⟩
    subst hcons
    exact ⟨v, rfl, hfits⟩
  · rintro ⟨v, rfl, hfits⟩
    exact ⟨[a], v, rfl, ⟨by simp, le_rfl, by simp⟩, hfits⟩

lemma fits_edge : Fits (.edge word :: r) b s ↔ Pos.atEdge word ⟨b, s⟩ ∧ r.Fits b s := by
  rw [fits_cons, Item.ends]
  split_ifs with hedge <;> simp [hedge]

lemma fits_opt_edge : Fits [.opt (.edge word)] b s ↔ s = [] := by
  rw [fits_cons, Item.ends, Item.ends]
  split_ifs <;> simp [fits_nil]

/-- A class up to the edge of a word, which is there if the last character is one of a word. -/
lemma fits_many_edge : Fits [.many p (lo + 1) hi, .edge word] b s ↔
    (Item.many p (lo + 1) hi).Word s ∧ s.getLast?.any word := by
  have hend : ∀ u : List α, (Item.many p (lo + 1) hi).Word u →
      (Pos.atEdge word ⟨u.reverse ++ b, []⟩ ↔ u.getLast?.any word) := by
    rintro u ⟨-, hlen, -⟩
    have hne : u ≠ [] := List.ne_nil_of_length_pos (Nat.lt_of_lt_of_le lo.succ_pos hlen)
    rw [← List.dropLast_concat_getLast hne]
    simp [Pos.atEdge]
  simp only [fits_many, fits_edge, fits_nil]
  constructor
  · rintro ⟨u, v, rfl, hu, hedge, rfl⟩
    rw [List.append_nil]
    exact ⟨hu, (hend u hu).mp hedge⟩
  · rintro ⟨hs, hlast⟩
    exact ⟨s, [], (List.append_nil s).symm, hs, (hend s hs).mpr hlast, rfl⟩

/-- **A pattern matches** what it takes in from the beginning. -/
theorem isSome_fullMatch_iff : (r.fullMatch s).isSome ↔ r.Fits [] s := by
  unfold fullMatch Fits
  rw [Option.isSome_map, List.find?_isSome]
  simp only [List.isEmpty_iff, Pos.begin]

end Pattern

end ForgeMush.Regex
