import Mathlib.Data.List.Basic

/-!
Runs of a system that takes labelled steps.

A run is the list of its events, each with the state it leads to, so that the states
visited and the steps taken can both be spoken about. `Always` is a property of every
state visited, `AllSteps` a condition on every step.
-/

namespace ForgeMush.Runs

variable {σ ε : Type*} (step : σ → ε → σ → Prop)

inductive Run : σ → List (ε × σ) → Prop
  | nil (s : σ) : Run s []
  | cons {s t : σ} {e : ε} {tr : List (ε × σ)} (h : step s e t) (hr : Run t tr) :
      Run s ((e, t) :: tr)

/-- The state a run from `s` ends in. -/
def final : σ → List (ε × σ) → σ
  | s, [] => s
  | _, (_, t) :: tr => final t tr

/-- The events of a run, in order. -/
def events (tr : List (ε × σ)) : List ε := tr.map Prod.fst

/-- `P` holds in every state visited. -/
def Always (P : σ → Prop) : σ → List (ε × σ) → Prop
  | s, [] => P s
  | s, (_, t) :: tr => P s ∧ Always P t tr

/-- Every step is taken in a state and on an event that satisfy `C`. -/
def AllSteps (C : σ → ε → Prop) : σ → List (ε × σ) → Prop
  | _, [] => True
  | s, (e, t) :: tr => C s e ∧ AllSteps C t tr

/-- `P` holds of every step taken when an event of `on` has come (or `b` holds at the start)
and none of `off` since. -/
def Since (on off : ε → Prop) (P : σ → ε → σ → Prop) : Prop → σ → List (ε × σ) → Prop
  | _, _, [] => True
  | b, s, (e, t) :: tr => (b → P s e t) ∧ Since on off P ((b ∨ on e) ∧ ¬ off e) t tr

@[simp] lemma final_nil (s : σ) : final s ([] : List (ε × σ)) = s := rfl
@[simp] lemma final_cons (s t : σ) (e : ε) (tr : List (ε × σ)) :
    final s ((e, t) :: tr) = final t tr := rfl
@[simp] lemma events_nil : events ([] : List (ε × σ)) = [] := rfl
@[simp] lemma events_cons (x : ε × σ) (tr : List (ε × σ)) :
    events (x :: tr) = x.1 :: events tr := rfl

variable {step} {s : σ} {tr : List (ε × σ)}

lemma run_cons_iff {t : σ} {e : ε} :
    Run step s ((e, t) :: tr) ↔ step s e t ∧ Run step t tr :=
  ⟨fun h => by cases h with | cons hstep hr => exact ⟨hstep, hr⟩, fun h => .cons h.1 h.2⟩

lemma Always.start {P : σ → Prop} (h : Always P s tr) : P s := by
  cases tr with
  | nil => exact h
  | cons x tr => exact h.1

lemma Always.final {P : σ → Prop} (h : Always P s tr) : P (final s tr) := by
  induction tr generalizing s with
  | nil => exact h
  | cons x tr ih => exact ih h.2

lemma Always.mono {P Q : σ → Prop} (hPQ : ∀ s, P s → Q s) (h : Always P s tr) :
    Always Q s tr := by
  induction tr generalizing s with
  | nil => exact hPQ _ h
  | cons x tr ih => exact ⟨hPQ _ h.1, ih h.2⟩

/-- **The invariant rule**: what holds at the start and is kept by every step holds
throughout. -/
theorem Run.always {I : σ → Prop} (hI : ∀ s e t, I s → step s e t → I t)
    (h : Run step s tr) (hs : I s) : Always I s tr := by
  induction h with
  | nil => exact hs
  | cons hstep _ ih => exact ⟨hs, ih (hI _ _ _ hs hstep)⟩

/-- What holds throughout a run may be built into its steps. -/
lemma Run.restrict {Q : σ → Prop} (h : Run step s tr) (hQ : Always Q s tr) :
    Run (fun s e t => step s e t ∧ Q t) s tr := by
  induction h with
  | nil s => exact .nil s
  | cons hstep _ ih => exact .cons ⟨hstep, hQ.2.start⟩ (ih hQ.2)

lemma Run.restrict_steps {C : σ → ε → Prop} (h : Run step s tr) (hC : AllSteps C s tr) :
    Run (fun s e t => step s e t ∧ C s e) s tr := by
  induction h with
  | nil s => exact .nil s
  | cons hstep _ ih => exact .cons ⟨hstep, hC.1⟩ (ih hC.2)

lemma Run.restrict_events {P : ε → Prop} (h : Run step s tr) (hP : ∀ e ∈ events tr, P e) :
    Run (fun s e t => step s e t ∧ P e) s tr := by
  induction h with
  | nil s => exact .nil s
  | cons hstep _ ih =>
      obtain ⟨he, hrest⟩ := List.forall_mem_cons.mp hP
      exact .cons ⟨hstep, he⟩ (ih hrest)

lemma Run.unrestrict {P : ε → Prop} (h : Run (fun s e t => step s e t ∧ P e) s tr) :
    Run step s tr ∧ ∀ e ∈ events tr, P e := by
  induction h with
  | nil s => exact ⟨.nil s, fun e he => absurd he List.not_mem_nil⟩
  | cons hstep _ ih => exact ⟨.cons hstep.1 ih.1, List.forall_mem_cons.mpr ⟨hstep.2, ih.2⟩⟩

theorem Run.invariant {I : σ → Prop} (hI : ∀ s e t, I s → step s e t → I t)
    (h : Run step s tr) (hs : I s) : I (final s tr) :=
  (h.always hI hs).final

/-- The invariant rule for a run whose steps all satisfy `C`. -/
theorem Run.always_of_allSteps {I : σ → Prop} {C : σ → ε → Prop}
    (hI : ∀ s e t, I s → C s e → step s e t → I t)
    (h : Run step s tr) (hC : AllSteps C s tr) (hs : I s) : Always I s tr := by
  induction h with
  | nil => exact hs
  | cons hstep _ ih => exact ⟨hs, ih hC.2 (hI _ _ _ hs hC.1 hstep)⟩

/-- **When exactly a property holds throughout a run**: `I` holds at the start and implies
`P`, the steps that satisfy `C` keep it, and a step that does not satisfy `C` leads out
of `P`. Then `P` holds throughout exactly when all steps satisfy `C`. -/
theorem Run.always_iff_allSteps {I P : σ → Prop} {C : σ → ε → Prop}
    (hP : ∀ s, I s → P s) (hI : ∀ s e t, I s → C s e → step s e t → I t)
    (hbad : ∀ s e t, I s → ¬ C s e → step s e t → ¬ P t)
    (h : Run step s tr) (hs : I s) : Always P s tr ↔ AllSteps C s tr := by
  constructor
  · intro hall
    induction h with
    | nil => trivial
    | @cons s t e tr hstep _ ih =>
        have hC : C s e := by
          by_contra hC
          exact hbad _ _ _ hs hC hstep hall.2.start
        exact ⟨hC, ih (hI _ _ _ hs hC hstep) hall.2⟩
  · intro hC
    exact (h.always_of_allSteps hI hC hs).mono hP

/-- What every step from a state that satisfies `I` is, besides keeping `I`. -/
theorem Run.steps {I : σ → Prop} {P : σ → ε → σ → Prop}
    (hI : ∀ s e t, I s → step s e t → I t ∧ P s e t) (h : Run step s tr) (hs : I s) :
    Run P s tr := by
  induction h with
  | nil s => exact .nil s
  | cons hstep _ ih =>
      obtain ⟨ht, hP⟩ := hI _ _ _ hs hstep
      exact .cons hP (ih ht)

/-- **When exactly a property holds of every step**: the same for steps instead of states. -/
theorem Run.steps_iff_allSteps {I : σ → Prop} {P : σ → ε → σ → Prop} {C : σ → ε → Prop}
    (hI : ∀ s e t, I s → C s e → step s e t → I t ∧ P s e t)
    (hbad : ∀ s e t, I s → ¬ C s e → step s e t → ¬ P s e t)
    (h : Run step s tr) (hs : I s) : Run P s tr ↔ AllSteps C s tr := by
  constructor
  · intro hall
    induction h with
    | nil => trivial
    | @cons s t e tr hstep _ ih =>
        cases hall with
        | cons hP hall =>
            have hC : C s e := by
              by_contra hC
              exact hbad _ _ _ hs hC hstep hP
            exact ⟨hC, ih (hI _ _ _ hs hC hstep).1 hall⟩
  · intro hC
    exact (h.restrict_steps hC).steps
      (fun s e t hs hstep => hI s e t hs hstep.2 hstep.1) hs

/-- **The simulation rule**: where every step that satisfies `C` can be followed by the other
system, so can a run whose steps all do. -/
theorem Run.simulate {σ' ε' : Type*} {step' : σ' → ε' → σ' → Prop} {R : σ → σ' → Prop}
    {C : σ → ε → Prop}
    (hR : ∀ s e t s', R s s' → C s e → step s e t → ∃ e' t', step' s' e' t' ∧ R t t')
    (h : Run step s tr) (hC : AllSteps C s tr) {s' : σ'} (hs : R s s') :
    ∃ tr', Run step' s' tr' ∧ R (final s tr) (final s' tr') := by
  induction h generalizing s' with
  | nil => exact ⟨[], .nil s', hs⟩
  | cons hstep _ ih =>
      obtain ⟨e', t', hstep', ht⟩ := hR _ _ _ _ hs hC.1 hstep
      obtain ⟨tr', hrun, hfinal⟩ := ih hC.2 ht
      exact ⟨(e', t') :: tr', .cons hstep' hrun, hfinal⟩

lemma Run.append {t : σ} {tr tr' : List (ε × σ)} (h : Run step s tr) (ht : final s tr = t)
    (h' : Run step t tr') :
    Run step s (tr ++ tr') ∧ final s (tr ++ tr') = final t tr' := by
  induction h with
  | nil s =>
      obtain rfl := ht
      exact ⟨h', rfl⟩
  | cons hstep _ ih =>
      obtain ⟨hrun, hfinal⟩ := ih ht
      exact ⟨.cons hstep hrun, hfinal⟩

/-- `t` is reached in a run from `s`. -/
def Leads (step : σ → ε → σ → Prop) (s t : σ) : Prop := ∃ tr, Run step s tr ∧ final s tr = t

lemma Leads.refl (s : σ) : Leads step s s := ⟨[], .nil s, rfl⟩

lemma Leads.trans {t u : σ} (h : Leads step s t) (h' : Leads step t u) : Leads step s u := by
  obtain ⟨tr, hrun, hfinal⟩ := h
  obtain ⟨tr', hrun', hfinal'⟩ := h'
  obtain ⟨hall, hend⟩ := hrun.append hfinal hrun'
  exact ⟨_, hall, hend.trans hfinal'⟩

lemma Leads.single {t : σ} {e : ε} (h : step s e t) : Leads step s t :=
  ⟨[(e, t)], .cons h (.nil t), rfl⟩

/-- **The refinement rule**: where the other system can follow every step by some steps of its own,
or none, it can follow a run. -/
theorem Run.refine {σ' ε' : Type*} {step' : σ' → ε' → σ' → Prop} {R : σ → σ' → Prop}
    (hR : ∀ s e t s', R s s' → step s e t → ∃ t', Leads step' s' t' ∧ R t t')
    (h : Run step s tr) {s' : σ'} (hs : R s s') : ∃ t', Leads step' s' t' ∧ R (final s tr) t' := by
  induction h generalizing s' with
  | nil => exact ⟨s', .refl s', hs⟩
  | cons hstep _ ih =>
      obtain ⟨t', hleads, ht⟩ := hR _ _ _ _ hs hstep
      obtain ⟨u', hleads', hu⟩ := ih ht
      exact ⟨u', hleads.trans hleads', hu⟩

/-- **The abstraction rule**: where every step from a state that satisfies `I`, which it keeps, is
a step of another system as `α` shows it, so is the run. -/
theorem Run.abstract {σ' : Type*} {step' : σ' → ε → σ' → Prop} {α : σ → σ'} {I : σ → Prop}
    (hα : ∀ s e t, I s → step s e t → I t ∧ step' (α s) e (α t))
    (h : Run step s tr) (hs : I s) : Run step' (α s) (tr.map fun x => (x.1, α x.2)) := by
  induction h with
  | nil s => exact .nil (α s)
  | cons hstep _ ih =>
      obtain ⟨ht, hstep'⟩ := hα _ _ _ hs hstep
      exact .cons hstep' (ih ht)

lemma final_abstract {σ' : Type*} (α : σ → σ') (s : σ) (tr : List (ε × σ)) :
    final (α s) (tr.map fun x => (x.1, α x.2)) = α (final s tr) := by
  induction tr generalizing s with
  | nil => rfl
  | cons x tr ih => exact ih x.2

lemma events_abstract {σ' : Type*} (α : σ → σ') (tr : List (ε × σ)) :
    events (tr.map fun x => (x.1, α x.2)) = events tr := by
  simp [events, Function.comp_def]

lemma Run.since_congr {on off : ε → Prop} {P Q : σ → ε → σ → Prop}
    (hPQ : ∀ s e t, step s e t → (P s e t ↔ Q s e t)) {b : Prop} (h : Run step s tr) :
    Since on off P b s tr ↔ Since on off Q b s tr := by
  induction h generalizing b with
  | nil => rfl
  | cons hstep _ ih => exact and_congr (imp_congr_right fun _ => hPQ _ _ _ hstep) ih

/-- **Progress**: where `I` always allows a step that keeps it, there are runs of every
length. -/
theorem exists_run {I : σ → Prop} (hI : ∀ s, I s → ∃ e t, step s e t ∧ I t) (hs : I s)
    (n : ℕ) : ∃ tr, Run step s tr ∧ tr.length = n := by
  induction n generalizing s with
  | zero => exact ⟨[], .nil s, rfl⟩
  | succ n ih =>
      obtain ⟨e, t, hstep, ht⟩ := hI s hs
      obtain ⟨tr, hrun, hlen⟩ := ih ht
      exact ⟨(e, t) :: tr, .cons hstep hrun, by simp [hlen]⟩

end ForgeMush.Runs
