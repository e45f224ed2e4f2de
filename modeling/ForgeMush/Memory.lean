import ForgeMush.Attribution
import ForgeMush.Ownership
import ForgeMush.Pages
import Mathlib.Order.Interval.Finset.Nat

/-!
The memory of a program's markups, which `std::shared_ptr` counts and frees.

A markup owns the one that it is in, through `parent`, and a string owns those that it lists.
Between the operations strings are destroyed and markups freed, in any order.
-/

namespace ForgeMush

open Runs Ownership

/-- There is a pointer to `parent` in the markup. -/
def Markups.owns (heap : Markups) (mark parent : ShMarkup) : Prop :=
  ∃ k, heap[mark]? = some k ∧ k.parent = some parent

/-- A markup is constructed after the one that it is in. -/
def Markups.Older (heap : Markups) : Prop := ∀ i j, heap.owns i j → j < i

namespace Markups

variable {heap h : Markups} {i j : ShMarkup}

lemma owns_modify (n : ℕ) {f : Markup → Markup} (hf : ∀ k, (f k).parent = k.parent) :
    owns (heap.modify n f) i j ↔ heap.owns i j := by
  unfold owns
  rw [List.getElem?_modify]
  by_cases hn : n = i
  · simp [hn, hf]
  · simp [hn]

lemma owns_append_left (hi : i < heap.length) : owns (heap ++ h) i j ↔ heap.owns i j := by
  rw [owns, owns, List.getElem?_append_left hi]

lemma owns_moveHeap : owns (Scanner.moveHeap h heap) (moved h.length i) j ↔
    ∃ l, heap.owns i l ∧ moved h.length l = j := by
  unfold owns
  rw [Scanner.getElem?_moveHeap]
  constructor
  · rintro ⟨k, hk, hparent⟩
    obtain ⟨k', hk', rfl⟩ := Option.map_eq_some_iff.mp hk
    obtain ⟨l, hl, rfl⟩ := Option.map_eq_some_iff.mp hparent
    exact ⟨l, ⟨k', hk', hl⟩, rfl⟩
  · rintro ⟨l, ⟨k, hk, hparent⟩, rfl⟩
    refine ⟨k.rename (moved h.length), by rw [hk]; rfl, ?_⟩
    rw [Markup.rename, hparent]
    rfl

lemma lt_of_owns (hown : heap.owns i j) : i < heap.length := by
  obtain ⟨k, hk, -⟩ := hown
  exact (List.getElem?_eq_some_iff.mp hk).1

lemma Older.wellFounded (hheap : heap.Older) : WellFounded heap.owns := by
  refine Subrelation.wf (r := (measure fun i => heap.length - i).rel) (fun {i j} hown => ?_)
    (measure fun i => heap.length - i).wf
  have holder := hheap i j hown
  exact Nat.sub_lt_sub_left (holder.trans (lt_of_owns hown)) holder

end Markups

/-! ### Scanning -/

namespace Scanner

/-- Every pointer that the scanner has is to a markup on the heap, and `parent` to an older one. -/
structure Rooted (d : Decoder) : Prop where
  older : d.heap.Older
  current : ∀ mark, d.current = some mark → mark < d.heap.length
  mstack : ∀ mark ∈ d.mstack, mark < d.heap.length
  markup : ∀ mark ∈ d.string.markup, mark < d.heap.length

variable {d d' : Decoder} {c : UInt8}

lemma Rooted.modify (h : Rooted d) (state : State) (n : ℕ) {f : Markup → Markup}
    (hf : ∀ k, (f k).parent = k.parent) :
    Rooted { d with state := state, heap := d.heap.modify n f } where
  older := fun i j hown => h.older i j ((Markups.owns_modify n hf).mp hown)
  current := fun mark hmark => by simpa using h.current mark hmark
  mstack := fun mark hmark => by simpa using h.mstack mark hmark
  markup := fun mark hmark => by simpa using h.markup mark hmark

lemma Rooted.opened (h : Rooted d) {mk : Markup} (hmk : mk.parent = d.current) (state : State) :
    Rooted { state := state, heap := d.heap ++ [mk]
             string := { d.string with markup := d.string.markup ++ [d.heap.length] }
             mstack := d.heap.length :: d.mstack, current := some d.heap.length } where
  older := by
    intro i j hown
    have hlt := Markups.lt_of_owns hown
    rw [List.length_append, List.length_singleton] at hlt
    rcases Nat.lt_succ_iff_lt_or_eq.mp hlt with hi | rfl
    · exact h.older i j ((Markups.owns_append_left hi).mp hown)
    · obtain ⟨k, hk, hparent⟩ := hown
      rw [List.getElem?_concat_length] at hk
      cases hk
      exact h.current j (hmk ▸ hparent)
  current := fun mark hmark => by
    cases hmark
    simp
  mstack := fun mark hmark => by
    rw [List.length_append, List.length_singleton]
    rcases List.mem_cons.mp hmark with rfl | hmark
    · exact Nat.lt_succ_self _
    · exact Nat.lt_succ_of_lt (h.mstack mark hmark)
  markup := fun mark hmark => by
    rw [List.length_append, List.length_singleton]
    rcases List.mem_append.mp hmark with hmark | hmark
    · exact Nat.lt_succ_of_lt (h.markup mark hmark)
    · rw [List.mem_singleton.mp hmark]
      exact Nat.lt_succ_self _

lemma Rooted.step (h : Rooted d) (hstep : step d c = .ok d') : Rooted d' := by
  obtain ⟨state, heap, string, mstack, current⟩ := d
  cases state with
  | outside =>
      simp only [Scanner.step] at hstep
      split_ifs at hstep <;> cases hstep <;> exact ⟨h.older, h.current, h.mstack, h.markup⟩
  | start =>
      cases hstep
      exact ⟨h.older, h.current, h.mstack, h.markup⟩
  | inside tag =>
      simp only [Scanner.step] at hstep
      split_ifs at hstep
      · cases hstep
        exact ⟨h.older, h.current, h.mstack, h.markup⟩
      · cases hstep
        refine h.opened ?_ .opening
        cases current with
        | none =>
            show (Markup.new tag).parent = none
            unfold Markup.new
            split_ifs <;> rfl
        | some mark => rfl
  | opening =>
      simp only [Scanner.step] at hstep
      split_ifs at hstep
      · cases hstep
        exact ⟨h.older, h.current, h.mstack, h.markup⟩
      · split at hstep
        · cases hstep
        · cases hstep
          exact h.modify .opening _ fun _ => rfl
  | closing =>
      simp only [Scanner.step] at hstep
      split_ifs at hstep
      · obtain ⟨back, mstack', hstack, rfl⟩ := close_ok hstep
        have hstack' : ∀ mark ∈ back :: mstack', mark < heap.length := hstack ▸ h.mstack
        refine ⟨h.older, fun mark hmark => ?_, fun mark hmark => ?_, h.markup⟩
        · cases hmark
          exact hstack' _ List.mem_cons_self
        · exact hstack' _ (List.mem_cons_of_mem _ hmark)
      · split at hstep
        · cases hstep
        · cases hstep
          exact h.modify .closing _ fun _ => rfl

lemma heap_rejected {heap : Markups} {m : MarkupString}
    (h : step d c = .error (.rejected heap m)) : heap = d.heap ∧ m.markup = [] := by
  obtain ⟨-, -, hclose⟩ := close_of_rejected h
  unfold close at hclose
  split at hclose
  · cases hclose
  · split at hclose
    · cases hclose
      exact ⟨rfl, rfl⟩
    · split at hclose <;> cases hclose

lemma Rooted.run (h : Rooted d) {src : Bytes} : (∀ d', run d src = .ok d' → Rooted d') ∧
    ∀ heap m, run d src = .error (.rejected heap m) → heap.Older ∧ m.markup = [] := by
  induction src generalizing d with
  | nil =>
      refine ⟨fun d' hd => ?_, fun heap m hd => ?_⟩
      · cases hd
        exact h
      · cases hd
  | cons c src ih =>
      cases hstep : Scanner.step d c with
      | ok d₁ =>
          rw [run_cons_ok hstep]
          exact ih (h.step hstep)
      | error x =>
          rw [run_cons, hstep]
          refine ⟨fun d' hd => ?_, fun heap m hd => ?_⟩
          · cases hd
          · cases hd
            obtain ⟨rfl, hmarkup⟩ := heap_rejected hstep
            exact ⟨h.older, hmarkup⟩

end Scanner

/-- The markups that a call makes, on a heap with nothing on it. -/
lemma MarkupString.older_decodeMarkup {src : Bytes} {result : Bool} {K : Markups}
    {m : MarkupString} (h : MarkupString.decodeMarkup {} [] src = .returned result K m) :
    K.Older ∧ ∀ mark ∈ m.markup, mark < K.length := by
  have hstart : Scanner.Rooted { heap := [], string := { source := src } } := by
    refine ⟨fun i j hown => ?_, fun _ h => ?_, fun _ h => ?_, fun _ h => ?_⟩
    · exact absurd (Markups.lt_of_owns hown) (Nat.not_lt_zero i)
    · cases h
    · exact absurd h List.not_mem_nil
    · exact absurd h List.not_mem_nil
  cases result with
  | true =>
      obtain ⟨d, hd, rfl, rfl⟩ := decodeMarkup_eq_true.mp h
      have hrooted := hstart.run.1 d hd
      exact ⟨hrooted.older, hrooted.markup⟩
  | false =>
      obtain ⟨holder, hnil⟩ := hstart.run.2 K m (decodeMarkup_eq_false.mp h)
      exact ⟨holder, fun mark hmark => absurd (hnil ▸ hmark) List.not_mem_nil⟩

/-! ### Operations -/

namespace Strings

/-- The markups that a string lists. -/
def roots (p : Strings) : Set ShMarkup :=
  fun mark => ∃ m ∈ p.objects, mark ∈ m.markup ∨ ∃ c, (some mark, c) ∈ m.idx

/-- The markup can be reached from a string. -/
def Reached (p : Strings) (mark : ShMarkup) : Prop :=
  ∃ m ∈ p.objects, Reaches p.heap m mark

variable {p p' : Strings}

lemma held_iff_reached {mark : ShMarkup} :
    Held p.roots p.heap.owns mark ↔ p.Reached mark := by
  constructor
  · intro h
    refine h.induct (fun r hr => ?_) fun i j hi hown => ?_
    · obtain ⟨m, hm, hlist | ⟨c, hidx⟩⟩ := hr
      · exact ⟨m, hm, .markup hlist⟩
      · exact ⟨m, hm, .idx hidx⟩
    · obtain ⟨m, hm, hreaches⟩ := hi
      obtain ⟨k, hk, hparent⟩ := hown
      exact ⟨m, hm, .parent hreaches hk hparent⟩
  · rintro ⟨m, hm, hreaches⟩
    induction hreaches with
    | markup h => exact ⟨_, ⟨m, hm, Or.inl h⟩, .refl⟩
    | idx h => exact ⟨_, ⟨m, hm, Or.inr ⟨_, h⟩⟩, .refl⟩
    | parent _ hk hparent ih => exact ih.owned ⟨_, hk, hparent⟩

lemma Changes.heap {i : ℕ} {f : MarkupString → MarkupString} (h : p.Changes i f p') :
    p'.heap = p.heap := by
  obtain ⟨m, -, rfl⟩ := h
  rfl

lemma Constructs.heap {i : ℕ} {f : MarkupString → MarkupString} (h : p.Constructs i f p') :
    p'.heap = p.heap := by
  obtain ⟨m, -, rfl⟩ := h
  rfl

lemma decodes_or_keeps {e : Event} (hstep : Step p e p') :
    (∃ i src, p.Decodes i src p') ∨ (e.source? = none ∧ p'.heap = p.heap) := by
  cases e with
  | construct => exact Or.inr ⟨rfl, by rw [hstep]⟩
  | constructCopy i => exact Or.inr ⟨rfl, Constructs.heap hstep⟩
  | constructString s => exact Or.inr ⟨rfl, by rw [hstep]⟩
  | assign i j =>
      obtain ⟨other, -, h⟩ := hstep
      exact Or.inr ⟨rfl, h.heap⟩
  | decodeMarkup i src => exact Or.inl ⟨i, src, hstep⟩
  | decodeMarkupC i src => exact Or.inl ⟨i, cString src, hstep⟩
  | append i j =>
      obtain ⟨other, -, h⟩ := hstep
      exact Or.inr ⟨rfl, h.heap⟩
  | appendString i s => exact Or.inr ⟨rfl, Changes.heap hstep⟩
  | appendC i s => exact Or.inr ⟨rfl, Changes.heap hstep⟩
  | appendChar i c => exact Or.inr ⟨rfl, Changes.heap hstep⟩
  | plus i j =>
      obtain ⟨other, -, h⟩ := hstep
      exact Or.inr ⟨rfl, h.heap⟩
  | plusString i s => exact Or.inr ⟨rfl, Constructs.heap hstep⟩
  | plusC i s => exact Or.inr ⟨rfl, Constructs.heap hstep⟩
  | plusChar i c => exact Or.inr ⟨rfl, Constructs.heap hstep⟩
  | pushBack i c => exact Or.inr ⟨rfl, Changes.heap hstep⟩
  | clear i => exact Or.inr ⟨rfl, Changes.heap hstep⟩
  | write i pos c =>
      obtain ⟨m, -, -, rfl⟩ := hstep
      exact Or.inr ⟨rfl, rfl⟩

lemma roots_of_allPlain (h : p.AllPlain) {mark : ShMarkup} (hmark : mark ∈ p.roots) :
    ∃ m ∈ p.objects, mark ∈ m.markup := by
  obtain ⟨m, hm, hlist | ⟨c, hidx⟩⟩ := hmark
  · exact ⟨m, hm, hlist⟩
  · cases (h m hm).unmarked _ hidx

lemma roots_of_keeps {e : Event} (hp : p.AllPlain) (hstep : Step p e p')
    (he : e.source? = none) {mark : ShMarkup} (hmark : mark ∈ p'.roots) : mark ∈ p.roots := by
  obtain ⟨m, hm, hlist⟩ := roots_of_allPlain (hp.step hstep) hmark
  have hold : ∀ m ∈ p.objects, mark ∈ m.markup → mark ∈ p.roots :=
    fun m hm hlist => ⟨m, hm, Or.inl hlist⟩
  refine (makes_of_step hstep).all (I := fun m => mark ∈ m.markup → mark ∈ p.roots) hold
    (fun m hmade hlist => ?_) m hm hlist
  cases hmade with
  | empty => exact absurd hlist List.not_mem_nil
  | old hm => exact hold m hm hlist
  | ofString _ => exact absurd hlist List.not_mem_nil
  | decoded _ hsrc _ =>
      rw [he] at hsrc
      cases hsrc
  | joined hm hother =>
      rcases List.mem_append.mp hlist with hlist | hlist
      · exact hold _ hm hlist
      · exact hold _ hother hlist
  | appended hm _ => exact hold _ hm hlist
  | written _ hm _ => exact hold _ (List.mem_of_getElem? hm) hlist

end Strings

/-- **What a call makes**: markups behind those there are, which are older than none of them and
point to each other only; and the string lists them, or what it listed before. -/
lemma MarkupString.decodeMarkup_makes {m m' : MarkupString} {heap heap' : Markups} {src : Bytes}
    {result : Bool} (h : m.decodeMarkup heap src = .returned result heap' m') :
    ∃ K : Markups, K.Older ∧ heap' = Scanner.moveHeap heap K ∧ ∀ mark ∈ m'.markup,
      mark ∈ m.markup ∨ ∃ i < K.length, mark = moved heap.length i := by
  rw [decodeMarkup_move] at h
  cases hfresh : decodeMarkup {} [] src with
  | fault x =>
      rw [hfresh] at h
      cases h
  | returned b K s =>
      obtain ⟨holder, hlt⟩ := older_decodeMarkup hfresh
      rw [hfresh] at h
      refine ⟨K, holder, ?_⟩
      cases b with
      | true =>
          cases h
          refine ⟨rfl, fun mark hmark => ?_⟩
          rcases List.mem_append.mp hmark with hmark | hmark
          · left
            unfold reset at hmark
            split_ifs at hmark
            · exact absurd hmark List.not_mem_nil
            · exact hmark
          · obtain ⟨i, hi, rfl⟩ := List.mem_map.mp hmark
            exact Or.inr ⟨i, hlt i hi, rfl⟩
      | false =>
          cases h
          obtain ⟨hnil, -⟩ := plain_of_returned_false hfresh
          exact ⟨rfl, fun mark hmark => absurd (hnil ▸ hmark) List.not_mem_nil⟩

/-! ### Memory -/

/-- A program, and the markups that have not been freed. -/
structure Memory where
  strings : Strings := {}
  live : Finset ShMarkup := ∅

namespace Memory

inductive Event
  | operation (e : Strings.Event)
  /-- The destructor of the `i`-th string. -/
  | destroy (i : ℕ)
  | free (mark : ShMarkup)

def Step (p : Memory) : Event → Memory → Prop
  | .operation e, p' => Strings.Step p.strings e p'.strings ∧
      p'.live = p.live ∪ Finset.Ico p.strings.heap.length p'.strings.heap.length
  | .destroy i, p' =>
      -- its place is kept by an empty string, which no program uses
      p.strings.Changes i (fun _ => {}) p'.strings ∧ p'.live = p.live
  | .free mark, p' => p'.strings = p.strings ∧
      Free p.strings.roots p.strings.heap.owns p.live mark p'.live

/-- No pointer is to a markup that has been freed. -/
structure Sound (p : Memory) : Prop where
  plain : p.strings.AllPlain
  older : p.strings.heap.Older
  safe : Safe p.strings.roots p.strings.heap.owns p.live

variable {p p' : Memory}

lemma older_moveHeap {heap K : Markups} (h : heap.Older) (hK : K.Older) :
    (Scanner.moveHeap heap K).Older := by
  intro i j hown
  by_cases hi : i < heap.length
  · exact h i j ((Markups.owns_append_left hi).mp hown)
  · obtain ⟨l, rfl⟩ := Nat.exists_eq_add_of_le (not_lt.mp hi)
    obtain ⟨j', hown', rfl⟩ := Markups.owns_moveHeap.mp hown
    exact Nat.add_lt_add_left (hK l j' hown') _

lemma Sound.decodes {i : ℕ} {src : Bytes} (h : p.Sound) (hplain : p'.strings.AllPlain)
    (hdecodes : p.strings.Decodes i src p'.strings)
    (hlive : p'.live = p.live ∪ Finset.Ico p.strings.heap.length p'.strings.heap.length) :
    p'.Sound := by
  obtain ⟨m, result, heap, m', hm, hdecode, hp'⟩ := hdecodes
  obtain ⟨K, hK, rfl, hmarks⟩ := MarkupString.decodeMarkup_makes hdecode
  have hheap : p'.strings.heap = Scanner.moveHeap p.strings.heap K := by rw [hp']
  have hlen : p'.strings.heap.length = p.strings.heap.length + K.length := by
    rw [hheap, Scanner.length_moveHeap, moved]
  have hnew : ∀ l < K.length, moved p.strings.heap.length l ∈
      Finset.Ico p.strings.heap.length p'.strings.heap.length := by
    intro l hl
    rw [Finset.mem_Ico, hlen]
    exact ⟨Nat.le_add_right _ _, Nat.add_lt_add_left hl _⟩
  refine ⟨hplain, hheap ▸ older_moveHeap h.older hK, hlive ▸ h.safe.grow ?_ ?_ ?_⟩
  · intro mark hmark
    obtain ⟨m₁, hm₁, hlist⟩ := Strings.roots_of_allPlain hplain hmark
    rw [hp'] at hm₁
    rcases List.mem_or_eq_of_mem_set hm₁ with hm₁ | rfl
    · exact Or.inl ⟨m₁, hm₁, Or.inl hlist⟩
    · rcases hmarks mark hlist with hlist | ⟨l, hl, rfl⟩
      · exact Or.inl ⟨m, List.mem_of_getElem? hm, Or.inl hlist⟩
      · exact Or.inr (hnew l hl)
  · intro x hx y hown
    have hlt := Markups.lt_of_owns hown
    have hold : x < p.strings.heap.length := by
      by_contra hge
      exact hx (Finset.mem_Ico.mpr ⟨not_lt.mp hge, hlt⟩)
    rw [hheap] at hown
    exact (Markups.owns_append_left hold).mp hown
  · intro x hx y hown
    obtain ⟨hge, -⟩ := Finset.mem_Ico.mp hx
    obtain ⟨l, rfl⟩ := Nat.exists_eq_add_of_le hge
    rw [hheap] at hown
    obtain ⟨j, hown', rfl⟩ := Markups.owns_moveHeap.mp hown
    exact hnew j ((hK l j hown').trans (Markups.lt_of_owns hown'))

lemma Sound.operation {e : Strings.Event} (h : p.Sound)
    (hstep : Strings.Step p.strings e p'.strings)
    (hlive : p'.live = p.live ∪ Finset.Ico p.strings.heap.length p'.strings.heap.length) :
    p'.Sound := by
  have hplain := h.plain.step hstep
  rcases Strings.decodes_or_keeps hstep with ⟨i, src, hdecodes⟩ | ⟨hsource, hheap⟩
  · exact h.decodes hplain hdecodes hlive
  · refine ⟨hplain, hheap ▸ h.older, ?_⟩
    rw [hlive, hheap, Finset.Ico_self, Finset.union_empty]
    refine fun mark hmark => h.safe mark ?_
    obtain ⟨r, hr, hpath⟩ := hmark
    exact ⟨r, Strings.roots_of_keeps h.plain hstep hsource hr, hheap ▸ hpath⟩

lemma Sound.step {e : Event} (h : p.Sound) (hstep : Step p e p') : p'.Sound := by
  cases e with
  | operation e => exact h.operation hstep.1 hstep.2
  | destroy i =>
      -- to the markups it is as if the string were cleared
      obtain ⟨hchanges, hlive⟩ := hstep
      refine h.operation (e := .clear i) hchanges ?_
      rw [hchanges.heap, Finset.Ico_self, Finset.union_empty, hlive]
  | free mark =>
      obtain ⟨hstrings, hfree⟩ := hstep
      exact ⟨hstrings ▸ h.plain, hstrings ▸ h.older, hstrings ▸ h.safe.free hfree⟩

lemma sound_run {tr : List (Event × Memory)} (h : Run Step {} tr) : (final {} tr).Sound := by
  refine h.invariant (fun _ _ _ hp hstep => hp.step hstep) ⟨?_, ?_, ?_⟩
  · exact fun m hm => absurd hm List.not_mem_nil
  · exact fun i j hown => absurd (Markups.lt_of_owns hown) (Nat.not_lt_zero i)
  · intro mark hmark
    obtain ⟨m, hm, -⟩ := Strings.held_iff_reached.mp hmark
    exact absurd hm List.not_mem_nil

lemma run_free {s : Strings} {live : Finset ShMarkup} {tr : List (ShMarkup × Finset ShMarkup)}
    (h : Run (Free s.roots s.heap.owns) live tr) :
    ∃ tr', Run Step ⟨s, live⟩ tr' ∧ events tr' = (events tr).map .free ∧
      final ⟨s, live⟩ tr' = ⟨s, final live tr⟩ := by
  induction h with
  | nil live => exact ⟨[], .nil _, rfl, rfl⟩
  | @cons live live' mark tr hfree _ ih =>
      obtain ⟨tr', hrun, hevents, hfinal⟩ := ih
      refine ⟨(.free mark, ⟨s, live'⟩) :: tr', .cons ⟨rfl, hfree⟩ hrun, ?_, hfinal⟩
      rw [events_cons, events_cons, List.map_cons, hevents]

def Settled (p : Memory) : Prop := Ownership.Settled p.strings.roots p.strings.heap.owns p.live

/-- Nothing but frees. -/
def Frees (tr : List (Event × Memory)) : Prop := ∀ e ∈ events tr, ∃ mark, e = .free mark

lemma length_of_frees {tr : List (Event × Memory)} (h : Run Step p tr) (hfrees : Frees tr) :
    tr.length + (final p tr).live.card = p.live.card := by
  induction h with
  | nil p => exact Nat.zero_add _
  | @cons p p' e tr hstep _ ih =>
      obtain ⟨mark, rfl⟩ := hfrees e List.mem_cons_self
      have hrest := ih fun e he => hfrees e (List.mem_cons_of_mem _ he)
      have hone := hstep.2.card
      rw [List.length_cons, final_cons]
      omega

lemma exists_frees (p : Memory) : ∃ tr, Run Step p tr ∧ Frees tr ∧ (final p tr).Settled := by
  obtain ⟨frees, hrun, hsettled⟩ := exists_settled p.strings.roots p.strings.heap.owns p.live
  obtain ⟨tr, hrun', hevents, hfinal⟩ := run_free hrun
  refine ⟨tr, hrun', fun e he => ?_, ?_⟩
  · obtain ⟨mark, -, rfl⟩ := List.mem_map.mp (hevents ▸ he)
    exact ⟨mark, rfl⟩
  · rw [hfinal]
    exact hsettled

/-- **Markups are freed exactly when no string reaches them**: whatever a program does with its
strings, and in whatever order markups are freed whose count is zero, those that a string reaches
have not been; when none is left whose count is zero, the others all have been; and frees, in any
order, come to that after as many of them as there are markups, if not sooner. -/
theorem memory_of_run (tr : List (Event × Memory)) (h : Run Step {} tr) :
    (∀ mark, (final {} tr).strings.Reached mark → mark ∈ (final {} tr).live) ∧
    ((final {} tr).Settled →
      ∀ mark, mark ∈ (final {} tr).live ↔ (final {} tr).strings.Reached mark) ∧
    ∀ tr', Run Step (final {} tr) tr' → Frees tr' →
      tr'.length ≤ (final {} tr).live.card ∧
      ∃ tr'', Run Step (final (final {} tr) tr') tr'' ∧ Frees tr'' ∧
        (final (final (final {} tr) tr') tr'').Settled := by
  have hsound := sound_run h
  refine ⟨fun mark hmark => hsound.safe mark (Strings.held_iff_reached.mpr hmark), ?_, ?_⟩
  · intro hsettled mark
    rw [← Strings.held_iff_reached]
    exact hsettled.mem_iff hsound.older.wellFounded hsound.safe
  · intro tr' hrun hfrees
    exact ⟨Nat.le_of_add_right_le (length_of_frees hrun hfrees).le, exists_frees _⟩

lemma run_frees_nested {outer inner : Markup} (houter : outer.parent = none)
    (hinner : inner.parent = some 0) :
    Step ⟨{ heap := [outer, inner], objects := [{}] }, {0, 1}⟩ (.free 1)
      ⟨{ heap := [outer, inner], objects := [{}] }, {0}⟩ ∧
    Step ⟨{ heap := [outer, inner], objects := [{}] }, {0}⟩ (.free 0)
      ⟨{ heap := [outer, inner], objects := [{}] }, ∅⟩ := by
  have hunlisted : ∀ mark, mark ∉ Strings.roots { heap := [outer, inner], objects := [{}] } := by
    rintro mark ⟨m, hm, hlist⟩
    rw [List.mem_singleton.mp hm] at hlist
    simp at hlist
  have hboth : (1 : ShMarkup) ∈ ({0, 1} : Finset ShMarkup) ∧
      ({0} : Finset ShMarkup) = Finset.erase {0, 1} 1 := by decide
  have hlast : (0 : ShMarkup) ∈ ({0} : Finset ShMarkup) ∧
      (∅ : Finset ShMarkup) = Finset.erase {0} 0 := by decide
  refine ⟨⟨rfl, ⟨hboth.1, hunlisted 1, ?_⟩, hboth.2⟩, ⟨rfl, ⟨hlast.1, hunlisted 0, ?_⟩, hlast.2⟩⟩
  · rintro y hy ⟨k, hk, hparent⟩
    rw [Finset.mem_insert, Finset.mem_singleton] at hy
    rcases hy with rfl | rfl
    · cases hk
      cases houter.symm.trans hparent
    · cases hk
      cases hinner.symm.trans hparent
  · rintro y hy ⟨k, hk, hparent⟩
    rw [Finset.mem_singleton.mp hy] at hk
    cases hk
    cases houter.symm.trans hparent

/-- A red element with another one in it, in a string that is destroyed. The inner one is freed
first, since it has a pointer to the outer. -/
theorem destroyed_elements_freed : ∃ tr : List (Event × Memory), Run Step {} tr ∧
    events tr = [.operation .construct, .operation (.decodeMarkup 0 MarkupString.nested.bytes),
      .destroy 0, .free 1, .free 0] ∧
    (final {} tr).live = ∅ ∧ ∀ mark, ¬ (final {} tr).strings.Reached mark := by
  have htwo : ({0, 1} : Finset ShMarkup) = ∅ ∪ Finset.Ico 0 2 := by decide
  have hrun : Run Step {} [(.operation .construct, ⟨_, ∅⟩),
      (.operation (.decodeMarkup 0 MarkupString.nested.bytes), ⟨_, {0, 1}⟩),
      (.destroy 0, ⟨_, {0, 1}⟩), (.free 1, ⟨_, {0}⟩), (.free 0, ⟨_, ∅⟩)] :=
    .cons ⟨rfl, by decide⟩ (.cons ⟨⟨_, _, _, _, rfl, rfl, rfl⟩, htwo⟩
      (.cons ⟨⟨_, rfl, rfl⟩, rfl⟩ (.cons (run_frees_nested rfl rfl).1
        (.cons (run_frees_nested rfl rfl).2 (.nil _)))))
  refine ⟨_, hrun, rfl, rfl, fun mark hmark => ?_⟩
  exact absurd ((memory_of_run _ hrun).1 mark hmark) (Finset.notMem_empty mark)

end Memory

end ForgeMush
