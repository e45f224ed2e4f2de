import Mathlib.Data.List.Induction
import Mathlib.Data.List.Nodup

/-!
Tables: finite maps from keys to rows, where a row carries its own key.

The rows stand in the order the table is walked through, and no two of them have the same
key, which is part of the type.
-/

namespace ForgeMush

variable {α κ : Type*}

structure Table (key : α → κ) where
  rows : List α
  distinct : (rows.map key).Nodup

namespace Table

variable {key : α → κ}

def empty : Table key := ⟨[], by simp⟩

def keys (t : Table key) : List κ := t.rows.map key

variable [DecidableEq κ]

def find? (t : Table key) (k : κ) : Option α := t.rows.find? fun a => key a = k

/-- The rows with `a` in the place of the one that has its key, or at the end. -/
def put (key : α → κ) (a : α) (rows : List α) : List α :=
  if key a ∈ rows.map key then rows.map fun b => if key b = key a then a else b
  else rows ++ [a]

lemma map_key_replace (a : α) (rows : List α) :
    (rows.map fun b => if key b = key a then a else b).map key = rows.map key := by
  rw [List.map_map]
  refine List.map_congr_left fun b _ => ?_
  by_cases h : key b = key a <;> simp [h]

lemma put_distinct (a : α) {rows : List α} (h : (rows.map key).Nodup) :
    ((put key a rows).map key).Nodup := by
  unfold put
  split_ifs with hmem
  · rwa [map_key_replace]
  · rw [List.map_append, List.map_singleton]
    exact h.append (List.nodup_singleton _) (by simpa using hmem)

/-- The table with `a` under its key, replacing what was there. -/
def insert (t : Table key) (a : α) : Table key :=
  ⟨put key a t.rows, put_distinct a t.distinct⟩

lemma find?_eq_some_iff {t : Table key} {k : κ} {a : α} :
    t.find? k = some a ↔ a ∈ t.rows ∧ key a = k := by
  constructor
  · intro h
    exact ⟨List.mem_of_find?_eq_some h, by simpa using List.find?_some h⟩
  · rintro ⟨hmem, rfl⟩
    obtain ⟨b, hb⟩ : ∃ b, t.find? (key a) = some b := by
      rw [← Option.isSome_iff_exists, find?, List.find?_isSome]
      exact ⟨a, hmem, by simp⟩
    have hb' : b ∈ t.rows ∧ key b = key a :=
      ⟨List.mem_of_find?_eq_some hb, by simpa using List.find?_some hb⟩
    rw [hb, List.inj_on_of_nodup_map t.distinct hb'.1 hmem hb'.2]

lemma find?_eq_none_iff {t : Table key} {k : κ} : t.find? k = none ↔ k ∉ t.keys := by
  simp [find?, keys]

lemma mem_keys_of_find? {t : Table key} {k : κ} {a : α} (h : t.find? k = some a) :
    k ∈ t.keys := by
  obtain ⟨hmem, rfl⟩ := find?_eq_some_iff.mp h
  exact List.mem_map_of_mem hmem

lemma mem_put {a b : α} {rows : List α} :
    b ∈ put key a rows ↔ b = a ∨ (b ∈ rows ∧ key b ≠ key a) := by
  unfold put
  split_ifs with hmem
  · obtain ⟨c, hc, hca⟩ := List.mem_map.mp hmem
    simp only [List.mem_map]
    constructor
    · rintro ⟨d, hd, rfl⟩
      by_cases h : key d = key a <;> simp [h, hd]
    · rintro (rfl | ⟨hb, hne⟩)
      · exact ⟨c, hc, by simp [hca]⟩
      · exact ⟨b, hb, by simp [hne]⟩
  · have hne : ∀ b ∈ rows, key b ≠ key a := fun b hb he =>
      hmem (List.mem_map.mpr ⟨b, hb, he⟩)
    simp only [List.mem_append, List.mem_singleton]
    constructor
    · rintro (hb | rfl)
      · exact Or.inr ⟨hb, hne b hb⟩
      · exact Or.inl rfl
    · rintro (rfl | ⟨hb, -⟩)
      · exact Or.inr rfl
      · exact Or.inl hb

lemma mem_insert {t : Table key} {a b : α} :
    b ∈ (t.insert a).rows ↔ b = a ∨ (b ∈ t.rows ∧ key b ≠ key a) := mem_put

@[simp] lemma find?_insert_self (t : Table key) (a : α) :
    (t.insert a).find? (key a) = some a :=
  find?_eq_some_iff.mpr ⟨mem_insert.mpr (Or.inl rfl), rfl⟩

lemma find?_insert_of_ne (t : Table key) {a : α} {k : κ} (h : key a ≠ k) :
    (t.insert a).find? k = t.find? k := by
  ext b
  rw [find?_eq_some_iff, find?_eq_some_iff, mem_insert]
  constructor
  · rintro ⟨rfl | ⟨hb, -⟩, hk⟩
    · exact absurd hk h
    · exact ⟨hb, hk⟩
  · rintro ⟨hb, hk⟩
    exact ⟨Or.inr ⟨hb, fun he => h (he.symm.trans hk)⟩, hk⟩

/-! ### The order of the rows -/

omit [DecidableEq κ] in
lemma eq_of_rows_eq {t t' : Table key} (h : t.rows = t'.rows) : t = t' := by
  cases t
  cases t'
  cases h
  rfl

lemma find?_of_perm {t t' : Table key} (h : t.rows.Perm t'.rows) (k : κ) :
    t.find? k = t'.find? k := by
  ext a
  rw [find?_eq_some_iff, find?_eq_some_iff, h.mem_iff]

lemma rows_eq_filterMap (t : Table key) : t.rows = t.keys.filterMap t.find? := by
  have hsome : ∀ a ∈ t.rows, (t.find? ∘ key) a = some a := fun a ha =>
    find?_eq_some_iff.mpr ⟨ha, rfl⟩
  rw [keys, List.filterMap_map, List.filterMap_congr hsome, List.filterMap_some]

/-- The keys in order and what stands under each are all there is to a table. -/
lemma eq_of_keys_eq {t t' : Table key} (hkeys : t.keys = t'.keys)
    (hfind : ∀ k, t.find? k = t'.find? k) : t = t' := by
  refine eq_of_rows_eq ?_
  rw [rows_eq_filterMap, rows_eq_filterMap, hkeys, funext hfind]

lemma keys_insert_of_mem {t : Table key} {a : α} (h : key a ∈ t.keys) :
    (t.insert a).keys = t.keys := by
  have hrows : (t.insert a).rows = t.rows.map fun b => if key b = key a then a else b := if_pos h
  rw [keys, hrows, map_key_replace, keys]

lemma keys_foldl_insert {t : Table key} {as : List α} (h : ∀ a ∈ as, key a ∈ t.keys) :
    (as.foldl insert t).keys = t.keys := by
  induction as generalizing t with
  | nil => rfl
  | cons a as ih =>
      have hkeys := keys_insert_of_mem (h a List.mem_cons_self)
      rw [List.foldl_cons, ih, hkeys]
      intro b hb
      rw [hkeys]
      exact h b (List.mem_cons_of_mem a hb)

/-- The last row inserted under a key stands there. -/
lemma find?_foldl_insert (t : Table key) (as : List α) (k : κ) :
    (as.foldl insert t).find? k = (as.reverse.find? fun a => key a = k).or (t.find? k) := by
  induction as using List.reverseRecOn with
  | nil => rfl
  | append_singleton as a ih =>
      rw [List.foldl_append, List.foldl_cons, List.foldl_nil, List.reverse_append,
        List.reverse_singleton, List.singleton_append, List.find?_cons]
      by_cases hk : key a = k
      · simp [← hk]
      · rw [find?_insert_of_ne _ hk, ih]
        simp [hk]

lemma foldl_insert_rows (t : Table key) : t.rows.foldl insert empty = t := by
  have hrows : ∀ as : List α, (as.map key).Nodup →
      (as.foldl insert (empty : Table key)).rows = as := by
    intro as
    induction as using List.reverseRecOn with
    | nil => exact fun _ => rfl
    | append_singleton as a ih =>
        intro hnodup
        rw [List.map_append, List.nodup_append] at hnodup
        obtain ⟨has, -, hdisjoint⟩ := hnodup
        rw [List.foldl_append, List.foldl_cons, List.foldl_nil]
        show put key a (as.foldl insert empty).rows = as ++ [a]
        rw [ih has, put, if_neg]
        exact fun hmem => hdisjoint _ hmem _ List.mem_cons_self rfl
  exact eq_of_rows_eq (hrows t.rows t.distinct)

/-- **Any order of a map** is the order of some insertions: of all rows once in that order, and
then of what is inserted anyway. -/
theorem foldl_insert_append {t : Table key} {as : List α}
    (h : t.rows.Perm (as.foldl insert (empty : Table key)).rows) :
    (t.rows ++ as).foldl insert empty = t := by
  have hfind : ∀ k, t.find? k = (as.reverse.find? fun a => key a = k).or none := by
    intro k
    rw [find?_of_perm h, find?_foldl_insert]
    rfl
  have hkeys : ∀ a ∈ as, key a ∈ t.keys := by
    intro a ha
    by_contra hnot
    have hnone := (find?_eq_none_iff.mpr hnot).symm.trans (hfind (key a))
    rw [Option.or_none] at hnone
    have hne := List.find?_eq_none.mp hnone.symm a (List.mem_reverse.mpr ha)
    simp at hne
  rw [List.foldl_append, foldl_insert_rows]
  refine eq_of_keys_eq (keys_foldl_insert hkeys) fun k => ?_
  rw [find?_foldl_insert, hfind, Option.or_none, Option.or_self]

/-! ### Changing rows -/

/-- The row under the key `k` becomes `f` of what it is. -/
def change (t : Table key) (f : α → α) (k : κ) : Table key :=
  match t.find? k with
  | none => t
  | some a => t.insert (f a)

lemma rows_change {f : α → α} (hf : ∀ a, key (f a) = key a) (t : Table key) (k : κ) :
    (t.change f k).rows = t.rows.map fun a => if key a = k then f a else a := by
  unfold change
  split
  · next hnone =>
      have hid : ∀ a ∈ t.rows, (if key a = k then f a else a) = a := fun a ha =>
        if_neg fun hk => find?_eq_none_iff.mp hnone (List.mem_map.mpr ⟨a, ha, hk⟩)
      rw [List.map_congr_left hid, List.map_id']
  · next a ha =>
      obtain ⟨hmem, hk⟩ := find?_eq_some_iff.mp ha
      have hkey : key (f a) ∈ t.rows.map key := by
        rw [hf]
        exact List.mem_map_of_mem hmem
      show put key (f a) t.rows = _
      rw [put, if_pos hkey]
      refine List.map_congr_left fun b hb => ?_
      rw [hf, hk]
      split_ifs with hbk
      · rw [List.inj_on_of_nodup_map t.distinct hb hmem (hbk.trans hk.symm)]
      · rfl

/-- **Each row is changed once** if the keys are gone through without repetition, in any order. -/
lemma rows_foldl_change {f : α → α} (hf : ∀ a, key (f a) = key a) {ks : List κ} (hks : ks.Nodup)
    (t : Table key) :
    (ks.foldl (change · f ·) t).rows = t.rows.map fun a => if key a ∈ ks then f a else a := by
  induction ks generalizing t with
  | nil => simp
  | cons k ks ih =>
      obtain ⟨hk, hnodup⟩ := List.nodup_cons.mp hks
      rw [List.foldl_cons, ih hnodup, rows_change hf, List.map_map]
      refine List.map_congr_left fun a _ => ?_
      rw [Function.comp_apply]
      by_cases hak : key a = k
      · rw [if_pos hak, hf, hak, if_neg hk, if_pos List.mem_cons_self]
      · rw [if_neg hak]
        simp [hak]

lemma rows_foldl_change_of_perm {f : α → α} (hf : ∀ a, key (f a) = key a) {ks : List κ}
    {t : Table key} (hks : ks.Perm t.keys) :
    (ks.foldl (change · f ·) t).rows = t.rows.map f := by
  rw [rows_foldl_change hf (hks.nodup_iff.mpr t.distinct)]
  refine List.map_congr_left fun a ha => if_pos ?_
  exact hks.mem_iff.mpr (List.mem_map_of_mem ha)

/-! ### Rows of another kind with the same keys -/

variable {β : Type*} {key' : β → κ} {f : α → β}

lemma map_put (hf : ∀ a, key' (f a) = key a) (a : α) (rows : List α) :
    (put key a rows).map f = put key' (f a) (rows.map f) := by
  have hkeys : (rows.map f).map key' = rows.map key := by simp [hf]
  unfold put
  rw [hkeys, hf]
  split_ifs
  · rw [List.map_map, List.map_map]
    refine List.map_congr_left fun b _ => ?_
    by_cases hb : key b = key a <;> simp [hf, hb]
  · simp

lemma find?_map (hf : ∀ a, key' (f a) = key a) {t : Table key} {t' : Table key'}
    (h : t'.rows = t.rows.map f) (k : κ) : t'.find? k = (t.find? k).map f := by
  have hkey : (fun b => decide (key' b = k)) ∘ f = fun a => decide (key a = k) :=
    funext fun a => by rw [Function.comp_apply, hf]
  unfold find?
  rw [h, List.find?_map, hkey]

/-! ### Tables of pointers -/

variable {ι ν : Type*} {t : Table fun e : ν × ι => e.1} {R : ι → ν → Prop}

/-- The objects that a table of pointers has, in the order it is walked through. -/
def values (t : Table fun e : ν × ι => e.1) : List ι := t.rows.map Prod.snd

/-- Where `R` says which object belongs under which key, the rows do, and no key is missing. -/
structure Indexes (t : Table fun e : ν × ι => e.1) (R : ι → ν → Prop) : Prop where
  sound : ∀ e ∈ t.rows, R e.2 e.1
  keyed : ∀ i k, R i k → k ∈ t.keys

lemma indexes_empty (hR : ∀ i k, ¬ R i k) :
    Indexes (Table.empty : Table fun e : ν × ι => e.1) R :=
  ⟨fun _ he => absurd he List.not_mem_nil, fun i k h => absurd h (hR i k)⟩

lemma Indexes.congr {R' : ι → ν → Prop} (h : t.Indexes R) (hR : ∀ i k, R i k ↔ R' i k) :
    t.Indexes R' :=
  ⟨fun e he => (hR _ _).mp (h.sound e he), fun i k hk => h.keyed i k ((hR i k).mpr hk)⟩

lemma Indexes.insert [DecidableEq ν] (h : t.Indexes R) (i : ι) (k : ν) :
    (t.insert (k, i)).Indexes fun j l => R j l ∨ (j = i ∧ l = k) := by
  refine ⟨fun e he => ?_, fun j l hl => ?_⟩
  · rcases mem_insert.mp he with rfl | ⟨he, -⟩
    · exact Or.inr ⟨rfl, rfl⟩
    · exact Or.inl (h.sound e he)
  · by_cases hkey : l = k
    · exact List.mem_map.mpr ⟨(k, i), mem_insert.mpr (Or.inl rfl), hkey.symm⟩
    · rcases hl with hl | ⟨-, hl⟩
      · obtain ⟨e, he, hel⟩ := List.mem_map.mp (h.keyed j l hl)
        refine List.mem_map.mpr ⟨e, mem_insert.mpr (Or.inr ⟨he, ?_⟩), hel⟩
        exact fun hek => hkey (hel.symm.trans hek)
      · exact absurd hl hkey

/-- **A table of pointers has every object** exactly if no two belong under one key. -/
theorem Indexes.all_mem_values_iff (h : t.Indexes R) (hR : ∀ i k l, R i k → R i l → k = l) :
    (∀ i k, R i k → i ∈ t.values) ↔ ∀ i j k, R i k → R j k → i = j := by
  constructor
  · intro hall i j k hi hj
    obtain ⟨⟨k', i'⟩, hmem, rfl⟩ := List.mem_map.mp (hall i k hi)
    obtain ⟨⟨l', j'⟩, hmem', rfl⟩ := List.mem_map.mp (hall j k hj)
    have hk : k' = k := hR _ _ _ (h.sound _ hmem) hi
    have hl : l' = k := hR _ _ _ (h.sound _ hmem') hj
    have heq := List.inj_on_of_nodup_map t.distinct hmem hmem' (hk.trans hl.symm)
    exact congrArg Prod.snd heq
  · intro hinj i k hi
    obtain ⟨e, he, hek⟩ := List.mem_map.mp (h.keyed i k hi)
    have hsame : e.2 = i := hinj e.2 i k (hek ▸ h.sound e he) hi
    exact List.mem_map.mpr ⟨e, he, hsame⟩

lemma Indexes.values_nodup (h : t.Indexes R) (hR : ∀ i k l, R i k → R i l → k = l) :
    t.values.Nodup := by
  refine List.Nodup.map_on (fun e he f hf hef => ?_) (List.Nodup.of_map _ t.distinct)
  refine List.inj_on_of_nodup_map t.distinct he hf (hR f.2 _ _ ?_ (h.sound f hf))
  exact hef ▸ h.sound e he

end Table

end ForgeMush
