import Mathlib.Data.Nat.Notation
import Mathlib.Logic.Relation
import Mathlib.Order.Lattice

/-!
Loops whose body decides, turn by turn, to go round again or to stop with a result.

`run` turns the loop at most a given number of times. What an unbounded run returns is
`Yields`; a loop that returns nothing `Diverges`. A loop with a variant, a number that
every further turn makes smaller, always returns, and `execute` computes what.
-/

namespace ForgeMush.Loop

/-- What one turn decides. -/
inductive Ctl (σ ρ : Type*)
  | next (s : σ)
  | done (r : ρ)

variable {σ ρ : Type*} (body : σ → Ctl σ ρ)

/-- The turn ends in a state that satisfies `I`, or in a result that satisfies `Q`. -/
def Ctl.Holds (I : σ → Prop) (Q : ρ → Prop) : Ctl σ ρ → Prop
  | .next s => I s
  | .done r => Q r

def run : ℕ → σ → Option ρ
  | 0, _ => none
  | n + 1, s =>
    match body s with
    | .next t => run n t
    | .done r => some r

/-- The loop started in `s` stops, with result `r`. -/
def Yields (s : σ) (r : ρ) : Prop := ∃ n, run body n s = some r

def Diverges (s : σ) : Prop := ∀ n, run body n s = none

/-- The loop started in `s` comes back to its head in state `t`. -/
def Reaches : σ → σ → Prop := Relation.ReflTransGen fun s t => body s = .next t

variable {body} {s t : σ} {r r' : ρ}

lemma run_next (h : body s = .next t) (n : ℕ) : run body (n + 1) s = run body n t := by
  simp [run, h]

lemma run_done (h : body s = .done r) (n : ℕ) : run body (n + 1) s = some r := by
  simp [run, h]

lemma run_mono {n m : ℕ} (h : run body n s = some r) (hm : n ≤ m) :
    run body m s = some r := by
  induction n generalizing s m with
  | zero => simp [run] at h
  | succ n ih =>
      obtain ⟨k, rfl⟩ : ∃ k, m = k + 1 := ⟨m - 1, by omega⟩
      cases hb : body s with
      | next t =>
          rw [run_next hb] at h ⊢
          exact ih h (by omega)
      | done r' =>
          rw [run_done hb] at h ⊢
          exact h

lemma Yields.unique (h : Yields body s r) (h' : Yields body s r') : r = r' := by
  obtain ⟨n, hn⟩ := h
  obtain ⟨m, hm⟩ := h'
  have h1 := run_mono hn (le_max_left n m)
  have h2 := run_mono hm (le_max_right n m)
  rw [h1] at h2
  exact Option.some.inj h2

lemma yields_next (h : body s = .next t) : Yields body s r ↔ Yields body t r := by
  constructor
  · rintro ⟨_ | n, hn⟩
    · simp [run] at hn
    · exact ⟨n, by rwa [run_next h] at hn⟩
  · rintro ⟨n, hn⟩
    exact ⟨n + 1, by rwa [run_next h]⟩

lemma yields_done (h : body s = .done r) : Yields body s r' ↔ r = r' := by
  constructor
  · rintro ⟨_ | n, hn⟩
    · simp [run] at hn
    · rw [run_done h] at hn
      exact Option.some.inj hn
  · rintro rfl
    exact ⟨1, run_done h 0⟩

lemma Reaches.step (h : body s = .next t) : Reaches body s t := .single h

lemma Reaches.yields (h : Reaches body s t) : Yields body s r ↔ Yields body t r := by
  induction h with
  | refl => rfl
  | tail _ hstep ih => rw [ih, yields_next hstep]

lemma Diverges.not_yields (h : Diverges body s) : ¬ Yields body s r := by
  rintro ⟨n, hn⟩
  simp [h n] at hn

lemma Reaches.diverges (h : Reaches body s t) (ht : Diverges body t) : Diverges body s := by
  intro n
  by_contra hn
  obtain ⟨r, hr⟩ := Option.ne_none_iff_exists'.mp hn
  exact ht.not_yields (h.yields.mp ⟨n, hr⟩)

/-- A set of states that every turn stays in is never left. -/
theorem diverges_of_closed {I : σ → Prop} (hI : ∀ s, I s → ∃ t, body s = .next t ∧ I t)
    (hs : I s) : Diverges body s := by
  intro n
  induction n generalizing s with
  | zero => rfl
  | succ n ih =>
      obtain ⟨t, hb, ht⟩ := hI s hs
      rw [run_next hb]
      exact ih ht

/-- Whatever a closed set is left by, the states on the way were in it. -/
lemma Reaches.closed {I : σ → Prop} (hI : ∀ s t, I s → body s = .next t → I t)
    (h : Reaches body s t) (hs : I s) : I t := by
  induction h with
  | refl => exact hs
  | tail _ hstep ih => exact hI _ _ ih hstep

/-- **The invariant rule**: what every turn preserves holds of the result. -/
theorem Yields.invariant {I : σ → Prop} {Q : ρ → Prop} (hI : ∀ s, I s → (body s).Holds I Q)
    (h : Yields body s r) (hs : I s) : Q r := by
  obtain ⟨n, hn⟩ := h
  induction n generalizing s with
  | zero => simp [run] at hn
  | succ n ih =>
      have hturn := hI s hs
      cases hb : body s with
      | next t =>
          rw [run_next hb] at hn
          rw [hb] at hturn
          exact ih hturn hn
      | done r' =>
          rw [run_done hb] at hn
          rw [hb] at hturn
          cases hn
          exact hturn

/-! ### Loops with a variant -/

variable {μ : σ → ℕ}

lemma run_isSome (hμ : ∀ s t, body s = .next t → μ t < μ s) {n : ℕ} (hn : μ s < n) :
    (run body n s).isSome := by
  induction n generalizing s with
  | zero => omega
  | succ n ih =>
      cases hb : body s with
      | next t =>
          rw [run_next hb]
          have := hμ s t hb
          exact ih (by omega)
      | done r => simp [run_done hb]

/-- The result of a loop whose variant `μ` falls with every further turn. -/
def execute (body : σ → Ctl σ ρ) (μ : σ → ℕ) (hμ : ∀ s t, body s = .next t → μ t < μ s)
    (s : σ) : ρ :=
  (run body (μ s + 1) s).get (run_isSome hμ (Nat.lt_succ_self _))

/-- **A loop with a variant returns.** -/
theorem yields_execute (hμ : ∀ s t, body s = .next t → μ t < μ s) (s : σ) :
    Yields body s (execute body μ hμ s) :=
  ⟨μ s + 1, by simp [execute]⟩

/-- **A loop with a variant, from where an invariant holds**: it returns, with a result of the
kind that the last turn gives. -/
theorem exists_yields (μ : σ → ℕ) {I : σ → Prop} {Q : ρ → Prop}
    (hI : ∀ s, I s → (∃ t, body s = .next t ∧ I t ∧ μ t < μ s) ∨ ∃ r, body s = .done r ∧ Q r)
    (hs : I s) : ∃ r, Yields body s r ∧ Q r := by
  induction hn : μ s using Nat.strong_induction_on generalizing s with
  | _ n ih =>
      rcases hI s hs with ⟨t, hb, ht, hlt⟩ | ⟨r, hb, hr⟩
      · obtain ⟨r, hyields, hr⟩ := ih (μ t) (hn ▸ hlt) ht rfl
        exact ⟨r, (yields_next hb).mpr hyields, hr⟩
      · exact ⟨r, (yields_done hb).mpr rfl, hr⟩

lemma execute_next (hμ : ∀ s t, body s = .next t → μ t < μ s) (h : body s = .next t) :
    execute body μ hμ s = execute body μ hμ t :=
  (yields_execute hμ s).unique ((yields_next h).mpr (yields_execute hμ t))

lemma execute_done (hμ : ∀ s t, body s = .next t → μ t < μ s) (h : body s = .done r) :
    execute body μ hμ s = r :=
  (yields_execute hμ s).unique ((yields_done h).mpr rfl)

end ForgeMush.Loop
