import ForgeMush.Attribution
import ForgeMush.Malformed
import ForgeMush.Relocation
import ForgeMush.Strings

/-!
Decoding two well-nested sources one behind the other.

The scanner forgets nothing between the two: the first element of the second source gets the
last one of the first for its parent, where it would have none by itself.
-/

namespace ForgeMush

open Runs

namespace Source

variable (f g : Source)

lemma text_append : (f.append g).text = f.text ++ g.text := by
  induction f with
  | nil => rfl
  | char c plain rest ih => simp [append, text, ih]
  | element o body e rest _ ih => simp [append, text, ih]

lemma count_append : (f.append g).count = f.count + g.count := by
  induction f with
  | nil => simp [append, count]
  | char c plain rest ih => simp [append, count, ih]
  | element o body e rest _ ih => simp [append, count, ih, Nat.add_assoc]

lemma checks_append : (f.append g).checks = f.checks ++ g.checks := by
  induction f with
  | nil => rfl
  | char c plain rest ih => simp [append, checks, ih]
  | element o body e rest _ ih => simp [append, checks, ih]

lemma tags_append (n : ℕ) (current : OpMarkup) : (f.append g).tags n current =
    f.tags n current ++ g.tags (n + f.count) (f.last n current) := by
  induction f generalizing n current with
  | nil => simp [append, tags, count, last]
  | char c plain rest ih => exact ih n current
  | element o body e rest _ ih => simp [append, tags, count, last, ih, Nat.add_assoc]

lemma map_rename_tags (i n : ℕ) (current : OpMarkup) :
    (f.tags n current).map (Markup.rename (moved i)) =
      f.tags (moved i n) (current.map (moved i)) := by
  induction f generalizing n current with
  | nil => rfl
  | char c plain rest ih => exact ih n current
  | element o body e rest ihbody ihrest =>
      have hnext : ∀ k, moved i (n + k) = moved i n + k := fun k => (Nat.add_assoc i n k).symm
      simp only [tags, List.map_cons, List.map_append, ihbody, ihrest, Nat.add_assoc, hnext]
      rfl

lemma last_of_count_eq_zero {f : Source} (h : f.count = 0) (n : ℕ) (current : OpMarkup) :
    f.last n current = current := by
  induction f with
  | nil => rfl
  | char c plain rest ih => exact ih h
  | element o body e rest _ _ =>
      unfold count at h
      omega

lemma tags_of_count_eq_zero {f : Source} (h : f.count = 0) (n : ℕ) (current : OpMarkup) :
    f.tags n current = [] := by
  rw [← List.length_eq_zero_iff, length_tags, h]

lemma getElem?_tags_append (n : ℕ) (current : OpMarkup) (l : List Markup) :
    (f.tags n current ++ l)[f.count]? = l[0]? := by
  rw [List.getElem?_append_right (by rw [length_tags]), length_tags, Nat.sub_self]

lemma last_ne_none {f : Source} {n : ℕ} {current : OpMarkup} (h : f.count ≠ 0 ∨ current ≠ none) :
    f.last n current ≠ none := by
  induction f generalizing n current with
  | nil => exact h.resolve_left fun hne => hne rfl
  | char c plain rest ih => exact ih h
  | element o body e rest _ ih => exact ih (Or.inr (by simp))

lemma exists_first_tag {f : Source} (h : f.count ≠ 0) (n : ℕ) (current : OpMarkup) :
    ∃ k l, f.tags n current = k :: l ∧ k.parent = current := by
  induction f with
  | nil => exact absurd rfl h
  | char c plain rest ih => exact ih h
  | element o body e rest _ _ => exact ⟨_, _, rfl, rfl⟩

end Source

namespace MarkupString

variable {f g : Source}

/-- Decoding the two by themselves and adding the results comes to the same as decoding one
behind the other, and adding leaves the operands as they are. -/
structure Concatenates (f g : Source) : Prop where
  same : ∀ heap heap', ∃ h₁ m₁ h₂ m₂ h₃ m₃,
    decodeMarkup {} heap f.bytes = .returned true h₁ m₁ ∧
    decodeMarkup {} h₁ g.bytes = .returned true h₂ m₂ ∧
    decodeMarkup {} heap' (f.bytes ++ g.bytes) = .returned true h₃ m₃ ∧
    Same h₂ (m₁.append m₂) h₃ m₃
  operands : ∀ (p p' : Strings) (i j : ℕ), Strings.Step p (.plus i j) p' →
    p'.heap = p.heap ∧ ∀ (n : ℕ) (m : MarkupString), p.objects[n]? = some m →
      p'.objects[n]? = some m

lemma plus_operands {p p' : Strings} {i j : ℕ} (h : Strings.Step p (.plus i j) p') :
    p'.heap = p.heap ∧ ∀ (n : ℕ) (m : MarkupString), p.objects[n]? = some m →
      p'.objects[n]? = some m := by
  obtain ⟨other, -, m, -, rfl⟩ := h
  refine ⟨rfl, fun n m' hm' => ?_⟩
  obtain ⟨hlt, -⟩ := List.getElem?_eq_some_iff.mp hm'
  rw [List.getElem?_append_left hlt, hm']

lemma checks_append (hf : ∀ o ∈ f.checks, o.validate = none)
    (hg : ∀ o ∈ g.checks, o.validate = none) : ∀ o ∈ (f.append g).checks, o.validate = none := by
  rw [Source.checks_append]
  exact List.forall_mem_append.mpr ⟨hf, hg⟩

/-- What a fresh string makes of a source with nothing on the heap. -/
def ofSource (f : Source) : MarkupString where
  text := f.text
  source := f.bytes
  markup := List.range' 0 f.count
  idx := plainIdx f.text

lemma decodeMarkup_fresh (hchecks : ∀ o ∈ f.checks, o.validate = none) (heap : Markups) :
    decodeMarkup {} heap f.bytes = .returned true (Scanner.moveHeap heap (f.tags 0 none))
      (Scanner.moveString heap {} (ofSource f)) := by
  have hmarkup : (List.range' 0 f.count).map (moved heap.length) =
      List.range' heap.length f.count := List.map_add_range' 0 f.count 1
  rw [decodeMarkup_accepted hchecks]
  simp only [Scanner.moveHeap, Scanner.moveString, ofSource, f.map_rename_tags, hmarkup,
    renameIdx_plainIdx]
  rfl

lemma plainIdx_append (s t : Bytes) : plainIdx (s ++ t) = plainIdx s ++ plainIdx t :=
  List.map_append

lemma append_ofSource (f g : Source) (heap : Markups) :
    (Scanner.moveString heap {} (ofSource f)).append
      (Scanner.moveString (Scanner.moveHeap heap (f.tags 0 none)) {} (ofSource g)) =
        Scanner.moveString heap {} (ofSource (f.append g)) := by
  have hlen : (Scanner.moveHeap heap (f.tags 0 none)).length = heap.length + f.count := by
    rw [Scanner.length_moveHeap, Source.length_tags, moved]
  have hmarkup : ∀ n k, (List.range' 0 k).map (moved n) = List.range' n k :=
    fun n k => List.map_add_range' 0 k 1
  have hrange := List.range'_append_1 (s := heap.length) (m := f.count) (n := g.count)
  simp only [MarkupString.append, Scanner.moveString, ofSource, Source.text_append,
    Source.bytes_append, Source.count_append, hlen, hmarkup, renameIdx_plainIdx, List.nil_append,
    hrange]
  rw [plainIdx_append]

lemma moveHeap_moveHeap (f g : Source) (heap : Markups) :
    Scanner.moveHeap (Scanner.moveHeap heap (f.tags 0 none)) (g.tags 0 none) =
      Scanner.moveHeap heap (f.tags 0 none ++ g.tags f.count none) := by
  have hlen : (Scanner.moveHeap heap (f.tags 0 none)).length = heap.length + f.count := by
    rw [Scanner.length_moveHeap, Source.length_tags, moved]
  rw [Scanner.moveHeap, hlen, Scanner.moveHeap, Scanner.moveHeap, List.map_append,
    List.append_assoc, g.map_rename_tags, g.map_rename_tags]
  rfl

/-- The first tag of the second source has a parent in the whole, where it has none in the
sum. -/
lemma not_same_of_count_ne_zero (hf : f.count ≠ 0) (hg : g.count ≠ 0) :
    ¬ Same (Scanner.moveHeap [] (f.tags 0 none ++ g.tags f.count none))
      (Scanner.moveString [] {} (ofSource (f.append g)))
      (Scanner.moveHeap [] ((f.append g).tags 0 none))
      (Scanner.moveString [] {} (ofSource (f.append g))) := by
  rintro ⟨ρ, hρ⟩
  have hmem : f.count ∈ (Scanner.moveString [] {} (ofSource (f.append g))).markup := by
    have hpos : f.count < f.count + g.count := by omega
    simpa [Scanner.moveString, ofSource, moved, Source.count_append] using hpos
  have hfix : ρ f.count = f.count :=
    (List.map_inj_left.mp ((List.map_id _).trans hρ.markup) f.count hmem).symm
  have hheap := hρ.heap f.count (.markup hmem)
  obtain ⟨k, l, hk, hparent⟩ := Source.exists_first_tag hg f.count none
  obtain ⟨k', l', hk', hparent'⟩ := Source.exists_first_tag hg f.count (f.last 0 none)
  have hplace : f.count = moved ([] : Markups).length f.count := (Nat.zero_add _).symm
  have hsum := Scanner.getElem?_moveHeap [] (f.tags 0 none ++ g.tags f.count none) f.count
  have hwhole := Scanner.getElem?_moveHeap [] ((f.append g).tags 0 none) f.count
  rw [← hplace, Source.getElem?_tags_append] at hsum
  rw [← hplace, Source.tags_append, Nat.zero_add, Source.getElem?_tags_append] at hwhole
  rw [hfix, hsum, Source.tags_append, Nat.zero_add, hwhole, hk, hk'] at hheap
  have hparents : k'.parent = none := by
    simpa [Markup.rename, hparent] using congrArg (Option.map Markup.parent) hheap
  exact Source.last_ne_none (Or.inl hf) (hparent' ▸ hparents)

lemma not_concatenates (hf : ∀ o ∈ f.checks, o.validate = none)
    (hg : ∀ o ∈ g.checks, o.validate = none) (hcount : f.count ≠ 0 ∧ g.count ≠ 0) :
    ¬ Concatenates f g := by
  rintro ⟨hsame, -⟩
  obtain ⟨h₁, m₁, h₂, m₂, h₃, m₃, hone, htwo, hthree, hsame⟩ := hsame [] []
  rw [decodeMarkup_fresh hf] at hone
  cases hone
  rw [decodeMarkup_fresh hg] at htwo
  cases htwo
  rw [← Source.bytes_append, decodeMarkup_fresh (checks_append hf hg)] at hthree
  cases hthree
  rw [append_ofSource, moveHeap_moveHeap] at hsame
  exact not_same_of_count_ne_zero hcount.1 hcount.2 hsame

/-- **Concatenation**: what two sources whose start texts are all accepted come to one behind
the other is the sum of what they come to by themselves exactly if one of them has no tags. -/
theorem concatenates_iff (f g : Source) (hf : ∀ o ∈ f.opens, o.validate = none)
    (hg : ∀ o ∈ g.opens, o.validate = none) :
    Concatenates f g ↔ f.count = 0 ∨ g.count = 0 := by
  have hf := checks_accepted hf
  have hg := checks_accepted hg
  constructor
  · intro hsame
    by_contra hcount
    exact not_concatenates hf hg (not_or.mp hcount) hsame
  · intro hcount
    have htags : (f.append g).tags 0 none = f.tags 0 none ++ g.tags f.count none := by
      rw [Source.tags_append, Nat.zero_add]
      rcases hcount with hzero | hzero
      · rw [Source.last_of_count_eq_zero hzero]
      · rw [Source.tags_of_count_eq_zero hzero, Source.tags_of_count_eq_zero hzero]
    refine ⟨fun heap heap' => ?_, fun p p' i j hstep => plus_operands hstep⟩
    have hthree := decodeMarkup_fresh (checks_append hf hg) heap'
    rw [Source.bytes_append] at hthree
    refine ⟨_, _, _, _, _, _, decodeMarkup_fresh hf heap, decodeMarkup_fresh hg _, hthree, ?_⟩
    rw [append_ofSource, moveHeap_moveHeap, htags]
    exact same_move heap heap' _ _

/-- An element behind a plain character. -/
theorem plain_concatenates : Concatenates (.char 97 (by decide) .nil) (.red .nil .nil) :=
  (concatenates_iff _ _ (List.forall_mem_nil _) (List.forall_mem_singleton.mpr (by decide))).mpr
    (Or.inl rfl)

/-- Two elements. -/
theorem elements_not_concatenated :
    (∀ o ∈ (Source.red .nil .nil).opens, o.validate = none) ∧
    ¬ Concatenates (.red .nil .nil) (.red .nil .nil) := by
  have haccepted : ∀ o ∈ (Source.red .nil .nil).opens, o.validate = none :=
    List.forall_mem_singleton.mpr (by decide)
  have hchecks := checks_accepted haccepted
  exact ⟨haccepted, not_concatenates hchecks hchecks ⟨by decide, by decide⟩⟩

end MarkupString

end ForgeMush
