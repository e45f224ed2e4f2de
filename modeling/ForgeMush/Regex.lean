import Mathlib.Data.List.TakeWhile

/-!
Patterns, matched by backtracking.

A pattern is a row of items. An item takes a position in the subject to those where it may
end, the one to be tried first standing first.
-/

namespace ForgeMush.Regex

variable {α : Type*}

/-- A position in a subject: what stands before it, nearest first, and what comes after. -/
structure Pos (α : Type*) where
  before : List α
  after : List α

inductive Item (α : Type*)
  /-- From `lo` to `hi` characters of a class, as many as possible. -/
  | many (p : α → Bool) (lo : ℕ) (hi : Option ℕ)
  /-- The edge of a word. -/
  | edge (word : α → Bool)
  /-- Once if possible, or not at all. -/
  | opt (i : Item α)

abbrev Pattern (α : Type*) := List (Item α)

namespace Pos

def begin (s : List α) : Pos α := ⟨[], s⟩

def subject (x : Pos α) : List α := x.before.reverse ++ x.after

def advance (x : Pos α) (n : ℕ) : Pos α :=
  ⟨(x.after.take n).reverse ++ x.before, x.after.drop n⟩

/-- The position when the subject has one more character in front. -/
def push (a : α) (x : Pos α) : Pos α := ⟨x.before ++ [a], x.after⟩

/-- Exactly one of the neighbours is a word character. -/
def atEdge (word : α → Bool) (x : Pos α) : Bool :=
  x.before.head?.any word != x.after.head?.any word

end Pos

namespace Item

/-- One character. -/
def lit [DecidableEq α] (a : α) : Item α := many (fun b => b = a) 1 (some 1)

def ends : Item α → Pos α → List (Pos α)
  | many p lo hi, x =>
    let n := (x.after.takeWhile p).length
    let n := hi.elim n (min n)
    (List.range (n + 1 - lo)).map fun k => x.advance (n - k)
  | edge word, x => if x.atEdge word then [x] else []
  | opt i, x => i.ends x ++ [x]

end Item

/-- The words that an item takes, if nothing around them forbids it. -/
def Item.Word : Item α → List α → Prop
  | many p lo hi, w => (∀ a ∈ w, p a) ∧ lo ≤ w.length ∧ ∀ n ∈ hi, w.length ≤ n
  | edge _, w => w = []
  | opt i, w => i.Word w ∨ w = []

/-- `w` stands between the two positions. -/
def Pos.Between (x : Pos α) (w : List α) (y : Pos α) : Prop :=
  x.after = w ++ y.after ∧ y.before = w.reverse ++ x.before

lemma Pos.between_take (x : Pos α) (n : ℕ) : x.Between (x.after.take n) (x.advance n) :=
  ⟨(List.take_append_drop n x.after).symm, rfl⟩

lemma Pos.Between.subject {x y : Pos α} {w : List α} (h : x.Between w y) :
    y.subject = x.subject := by
  simp [Pos.subject, h.1, h.2]

lemma Item.exists_word {i : Item α} {x y : Pos α} (h : y ∈ i.ends x) :
    ∃ w, i.Word w ∧ x.Between w y := by
  induction i with
  | many p lo hi =>
      obtain ⟨k, hk, rfl⟩ := List.mem_map.mp h
      rw [List.mem_range] at hk
      generalize hn : hi.elim (x.after.takeWhile p).length
        (min (x.after.takeWhile p).length) = n at hk
      have hbound : n ≤ (x.after.takeWhile p).length ∧ ∀ m ∈ hi, n ≤ m := by
        cases hi with
        | none => exact ⟨Nat.le_of_eq hn.symm, fun m hm => nomatch hm⟩
        | some hi =>
            subst hn
            exact ⟨Nat.min_le_left _ _, fun m hm => Option.mem_some.mp hm ▸ Nat.min_le_right _ _⟩
      have hprefix : (x.after.takeWhile p).length ≤ x.after.length :=
        (List.takeWhile_prefix p).length_le
      have hlen : (x.after.take (n - k)).length = n - k := by
        rw [List.length_take]
        omega
      refine ⟨_, ⟨fun a ha => ?_, by omega, fun m hm => ?_⟩, x.between_take _⟩
      · rw [← x.after.takeWhile_append_dropWhile (p := p),
          List.take_append_of_le_length (by omega)] at ha
        exact List.mem_takeWhile_imp (List.mem_of_mem_take ha)
      · have := hbound.2 m hm
        omega
  | edge word =>
      unfold ends at h
      split_ifs at h
      · rw [List.mem_singleton.mp h]
        exact ⟨[], rfl, rfl, rfl⟩
      · cases h
  | opt i ih =>
      rcases List.mem_append.mp h with h | h
      · obtain ⟨w, hw, hbetween⟩ := ih h
        exact ⟨w, Or.inl hw, hbetween⟩
      · rw [List.mem_singleton.mp h]
        exact ⟨[], Or.inr rfl, rfl, rfl⟩

namespace Pattern

def ends (r : Pattern α) (x : Pos α) : List (Pos α) :=
  r.foldl (fun xs i => xs.flatMap i.ends) [x]

/-- The length of the match, when the pattern matches the whole subject. -/
def fullMatch (r : Pattern α) (s : List α) : Option ℕ :=
  ((r.ends (.begin s)).find? fun x => x.after.isEmpty).map fun x => x.before.length

/-- The length of the match, when the pattern matches a prefix of the subject. -/
def prefixMatch (r : Pattern α) (s : List α) : Option ℕ :=
  (r.ends (.begin s)).head?.map fun x => x.before.length

@[simp] lemma ends_nil (x : Pos α) : ends [] x = [x] := rfl

@[simp] lemma ends_cons (i : Item α) (r : Pattern α) (x : Pos α) :
    ends (i :: r) x = (i.ends x).flatMap (ends r) := by
  have hfold : ∀ (r : Pattern α) (xs : List (Pos α)),
      r.foldl (fun xs i => xs.flatMap i.ends) xs = xs.flatMap (ends r) := by
    intro r
    induction r with
    | nil => exact fun xs => (List.flatMap_singleton' xs).symm
    | cons i r ih =>
        intro xs
        have hone : ∀ x, ends (i :: r) x = (i.ends x).flatMap (ends r) := fun x => by
          simp only [ends, List.foldl_cons, List.flatMap_singleton, ih]
        simp only [List.foldl_cons, ih, List.flatMap_assoc, funext hone]
  rw [ends, List.foldl_cons, List.flatMap_singleton, hfold]

/-- The words that the items take one behind the other. -/
def Word : Pattern α → List α → Prop
  | [], w => w = []
  | i :: r, w => ∃ u v, w = u ++ v ∧ i.Word u ∧ Word r v

lemma exists_word {r : Pattern α} {x y : Pos α} (h : y ∈ r.ends x) :
    ∃ w, r.Word w ∧ x.Between w y := by
  induction r generalizing x with
  | nil =>
      rw [ends_nil, List.mem_singleton] at h
      exact h ▸ ⟨[], rfl, rfl, rfl⟩
  | cons i r ih =>
      rw [ends_cons] at h
      obtain ⟨z, hz, hy⟩ := List.mem_flatMap.mp h
      obtain ⟨u, hu, hafter, hbefore⟩ := Item.exists_word hz
      obtain ⟨v, hv, hafter', hbefore'⟩ := ih hy
      refine ⟨u ++ v, ⟨u, v, rfl, hu, hv⟩, ?_, ?_⟩
      · rw [hafter, hafter', List.append_assoc]
      · rw [hbefore', hbefore, List.reverse_append, List.append_assoc]

/-- **A full match** takes in the whole subject. -/
theorem fullMatch_length {r : Pattern α} {s : List α} {n : ℕ} (h : r.fullMatch s = some n) :
    n = s.length := by
  unfold fullMatch at h
  obtain ⟨x, hx, rfl⟩ := Option.map_eq_some_iff.mp h
  have hafter : x.after = [] := by simpa using List.find?_some hx
  obtain ⟨w, -, hbetween⟩ := exists_word (List.mem_of_find?_eq_some hx)
  have hsubject : x.subject = s := hbetween.subject
  rw [← hsubject, Pos.subject, hafter, List.append_nil, List.length_reverse]

lemma word_many_cons {p : α → Bool} {lo : ℕ} {hi : Option ℕ} {r : Pattern α} {w : List α}
    (h : Word (.many p (lo + 1) hi :: r) w) : ∃ c t, w = c :: t ∧ p c := by
  obtain ⟨u, v, rfl, ⟨hall, hlen, -⟩, -⟩ := h
  obtain ⟨c, t, rfl⟩ := List.exists_cons_of_length_pos (Nat.lt_of_lt_of_le lo.succ_pos hlen)
  exact ⟨c, t ++ v, rfl, hall c List.mem_cons_self⟩

lemma word_lit_cons [DecidableEq α] {a : α} {r : Pattern α} {w : List α}
    (h : Word (.lit a :: r) w) : ∃ v, w = a :: v ∧ r.Word v := by
  obtain ⟨u, v, rfl, ⟨hall, hlen, hmax⟩, hv⟩ := h
  obtain ⟨c, rfl⟩ := List.length_eq_one_iff.mp (Nat.le_antisymm (hmax 1 rfl) hlen)
  have hc := hall c List.mem_cons_self
  simp only [decide_eq_true_eq] at hc
  exact ⟨v, by rw [hc, List.singleton_append], hv⟩

lemma word_opt_edge {word : α → Bool} {w : List α} (h : Word [.opt (.edge word)] w) : w = [] := by
  obtain ⟨u, v, rfl, hu, rfl⟩ := h
  rw [List.append_nil]
  exact hu.elim id id

lemma prefixMatch_word {r : Pattern α} {s : List α} {n : ℕ} (h : r.prefixMatch s = some n) :
    ∃ w t, s = w ++ t ∧ r.Word w ∧ w.length = n := by
  unfold prefixMatch at h
  obtain ⟨x, hx, rfl⟩ := Option.map_eq_some_iff.mp h
  obtain ⟨w, hw, hafter, hbefore⟩ := exists_word (List.mem_of_head? hx)
  exact ⟨w, x.after, hafter, hw, by simp [hbefore, Pos.begin]⟩

/-- A pattern that tries a longer match before a shorter one. -/
def Greedy (r : Pattern α) : Prop :=
  ∀ x, (r.ends x).Pairwise fun y z => y.after.length ≤ z.after.length

/-- Then a full match is found first, if there is one. -/
lemma Greedy.prefixMatch {r : Pattern α} (hr : r.Greedy) {s : List α} {n : ℕ}
    (h : r.fullMatch s = some n) : r.prefixMatch s = some n := by
  have hpair := hr (.begin s)
  unfold fullMatch at h
  unfold Pattern.prefixMatch
  cases hends : r.ends (.begin s) with
  | nil =>
      rw [hends] at h
      cases h
  | cons y ys =>
      rw [hends] at h hpair
      obtain ⟨x, hx, -⟩ := Option.map_eq_some_iff.mp h
      have hxnil : x.after = [] := by simpa using List.find?_some hx
      have hle : y.after.length ≤ x.after.length := by
        rcases List.mem_cons.mp (List.mem_of_find?_eq_some hx) with rfl | hmem
        · exact Nat.le_refl _
        · exact List.rel_of_pairwise_cons hpair hmem
      rw [hxnil, List.length_nil, Nat.le_zero, List.length_eq_zero_iff] at hle
      rw [List.find?_cons_of_pos (by simp [hle])] at h
      exact h

lemma fullMatch_of_prefixMatch {r : Pattern α} {s : List α}
    (h : r.prefixMatch s = some s.length) : r.fullMatch s = some s.length := by
  unfold Pattern.prefixMatch at h
  obtain ⟨x, hx, hlen⟩ := Option.map_eq_some_iff.mp h
  obtain ⟨w, -, hafter, hbefore⟩ := exists_word (List.mem_of_head? hx)
  have hnil : x.after = [] := by
    have hafter : s = w ++ x.after := hafter
    have hsum := congrArg List.length hafter
    rw [hbefore, Pos.begin, List.append_nil, List.length_reverse] at hlen
    rw [List.length_append] at hsum
    exact List.length_eq_zero_iff.mp (by omega)
  obtain ⟨xs, hends⟩ := List.head?_eq_some_iff.mp hx
  rw [fullMatch, hends, List.find?_cons_of_pos (by simp [hnil]), Option.map_some, hlen]

lemma ends_edge (i : Item α) (word : α → Bool) (x : Pos α) :
    ends [i, .edge word] x = (i.ends x).filter (Pos.atEdge word) := by
  rw [ends_cons]
  induction i.ends x with
  | nil => rfl
  | cons y ys ih =>
      rw [List.flatMap_cons, ih, ends_cons, Item.ends, List.filter_cons]
      split_ifs <;> rfl

lemma greedy_many_edge (p : α → Bool) (lo : ℕ) (hi : Option ℕ) (word : α → Bool) :
    Greedy [.many p lo hi, .edge word] := by
  intro x
  rw [ends_edge]
  refine List.Pairwise.filter _ (List.pairwise_map.mpr ?_)
  refine List.pairwise_lt_range.imp fun {k l} hkl => ?_
  simp only [Pos.advance, List.length_drop]
  omega

lemma Greedy.lit [DecidableEq α] {r : Pattern α} (hr : r.Greedy) (a : α) :
    Greedy (.lit a :: r) := by
  intro x
  have hlen : ((Item.lit a).ends x).length ≤ 1 := by
    simp only [Item.lit, Item.ends, List.length_map, List.length_range, Nat.add_sub_cancel]
    exact Nat.min_le_right _ _
  rw [ends_cons]
  match hends : (Item.lit a).ends x, hlen with
  | [], _ => exact .nil
  | [y], _ =>
      rw [List.flatMap_singleton]
      exact hr y

lemma eq_of_append_cons {a : α} {v w t t' : List α} (hv : a ∉ v) (hw : a ∉ w)
    (h : v ++ a :: t = w ++ a :: t') : t = t' := by
  rcases List.append_eq_append_iff.mp h with ⟨l, hl, hcons⟩ | ⟨l, hl, hcons⟩
  · cases l with
    | nil => exact (List.cons.inj hcons).2
    | cons b l =>
        obtain ⟨rfl, -⟩ := List.cons.inj hcons
        exact absurd (by simp [hl]) hw
  · cases l with
    | nil => exact (List.cons.inj hcons).2.symm
    | cons b l =>
        obtain ⟨rfl, -⟩ := List.cons.inj hcons
        exact absurd (by simp [hl]) hv

/-- The words of the pattern have `a` at the end and nowhere else. -/
def Last (a : α) (r : Pattern α) : Prop := ∀ w, r.Word w → ∃ u, w = u ++ [a] ∧ a ∉ u

lemma last_lit [DecidableEq α] (a : α) (word : α → Bool) :
    Last a [.lit a, .opt (.edge word)] := by
  intro w hw
  obtain ⟨v, rfl, hv⟩ := word_lit_cons hw
  exact ⟨[], by rw [word_opt_edge hv]; rfl, List.not_mem_nil⟩

lemma Last.many {a : α} {r : Pattern α} (hr : r.Last a) {p : α → Bool} (hp : p a = false)
    (lo : ℕ) (hi : Option ℕ) : Last a (.many p lo hi :: r) := by
  rintro w ⟨u, v, rfl, ⟨hu, -, -⟩, hv⟩
  obtain ⟨v, rfl, ha⟩ := hr v hv
  refine ⟨u ++ v, (List.append_assoc ..).symm, fun hmem => ?_⟩
  rcases List.mem_append.mp hmem with hmem | hmem
  · rw [hu a hmem] at hp
    cases hp
  · exact ha hmem

/-- Then all matches are of one length. -/
lemma Last.greedy {r : Pattern α} {a : α} (hr : r.Last a) : r.Greedy := by
  refine fun x => List.pairwise_of_forall_mem_list fun y hy z hz => ?_
  obtain ⟨v, hv, hafter, -⟩ := exists_word hy
  obtain ⟨w, hw, hafter', -⟩ := exists_word hz
  obtain ⟨v, rfl, hva⟩ := hr v hv
  obtain ⟨w, rfl, hwa⟩ := hr w hw
  rw [List.append_assoc] at hafter hafter'
  have heq : y.after = z.after := eq_of_append_cons hva hwa (hafter.symm.trans hafter')
  rw [heq]

lemma ends_many_cons {p : α → Bool} {a : α} (ha : p a) (s : List α) :
    (Item.many p 1 none).ends (.begin (a :: s)) =
      ((Item.many p 1 none).ends (.begin s)).map (Pos.push a) ++ [⟨[a], s⟩] := by
  have hlen : ((a :: s).takeWhile p).length = (s.takeWhile p).length + 1 := by
    rw [List.takeWhile_cons_of_pos ha, List.length_cons]
  simp only [Item.ends, Pos.begin, Option.elim_none, hlen, Nat.add_sub_cancel, List.range_succ,
    List.map_append, List.map_map, List.map_singleton]
  congr 1
  · refine List.map_congr_left fun k hk => ?_
    rw [List.mem_range] at hk
    obtain ⟨m, hm⟩ : ∃ m, (s.takeWhile p).length = k + m := ⟨_, (Nat.add_sub_of_le hk.le).symm⟩
    simp [hm, Nat.add_assoc, Pos.advance, Pos.push]
  · simp [Pos.advance]

lemma prefixMatch_many_edge_cons {p word : α → Bool} {a : α} (ha : p a) (s : List α) :
    prefixMatch [.many p 1 none, .edge word] (a :: s) =
      ((prefixMatch [.many p 1 none, .edge word] s).map (· + 1)).or
        (if Pos.atEdge word ⟨[a], s⟩ then some 1 else none) := by
  unfold Pattern.prefixMatch
  rw [ends_edge, ends_edge, ends_many_cons ha, List.filter_append, List.filter_map]
  have hedge : ((Item.many p 1 none).ends (.begin s)).filter (Pos.atEdge word ∘ Pos.push a) =
      ((Item.many p 1 none).ends (.begin s)).filter (Pos.atEdge word) := by
    refine List.filter_congr fun x hx => ?_
    obtain ⟨w, hw, -, hbefore⟩ := Item.exists_word hx
    obtain ⟨b, l, hlast⟩ : ∃ b l, x.before = b :: l := by
      refine List.exists_cons_of_length_pos ?_
      rw [hbefore, List.length_append, List.length_reverse]
      exact Nat.lt_add_right _ hw.2.1
    simp [Pos.atEdge, Pos.push, hlast]
  rw [hedge, List.head?_append, List.head?_map, Option.map_or, Option.map_map, Option.map_map]
  congr 1
  · simp [Function.comp_def, Pos.push]
  · rw [List.filter_cons]
    split_ifs <;> rfl

end Pattern

end ForgeMush.Regex
