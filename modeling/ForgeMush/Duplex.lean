import ForgeMush.Runs
import Mathlib.Data.Nat.Notation

/-!
Two parties of one kind, joined by a FIFO channel each way.

A party first works off its start, turn by turn, and then handles the messages delivered to
it. Each turn and each delivery puts what it sends into the channel to the other party. The
order in which the two take their turns is arbitrary.
-/

namespace ForgeMush.Duplex

open Runs

variable {π μ : Type*}

/-- What a party does. -/
structure Party (π μ : Type*) where
  /-- The next turn of its start, unless that is over: what it becomes and what it sends. -/
  start : π → Option (π × List μ)
  deliver : π → μ → π × List μ

structure State (π μ : Type*) where
  left : π
  right : π
  toRight : List μ := []
  toLeft : List μ := []
  /-- The number of messages sent so far. -/
  sent : ℕ := 0

/-- The same state with the names of the parties exchanged. -/
def State.swap (s : State π μ) : State π μ :=
  ⟨s.right, s.left, s.toLeft, s.toRight, s.sent⟩

inductive End | left | right

/-- The state with the party at `e` on the left. -/
def State.view (s : State π μ) : End → State π μ
  | .left => s
  | .right => s.swap

inductive Event
  | start (e : End)
  | deliver (e : End)

variable (P : Party π μ)

/-- The party on the left takes a turn of its start. -/
def StartStep (s t : State π μ) : Prop :=
  ∃ p out, P.start s.left = some (p, out) ∧
    t = { s with left := p, toRight := s.toRight ++ out, sent := s.sent + out.length }

/-- A message is delivered to the party on the left, whose start is over. -/
def DeliverStep (s t : State π μ) : Prop :=
  P.start s.left = none ∧ ∃ m rest, s.toLeft = m :: rest ∧
    t = { s with
      left := (P.deliver s.left m).1
      toRight := s.toRight ++ (P.deliver s.left m).2
      toLeft := rest
      sent := s.sent + (P.deliver s.left m).2.length }

def Step (s : State π μ) : Event → State π μ → Prop
  | .start e, t => StartStep P (s.view e) (t.view e)
  | .deliver e, t => DeliverStep P (s.view e) (t.view e)

/-- Both starts are over and no message is in flight. -/
def Quiet (s : State π μ) : Prop :=
  (P.start s.left = none ∧ P.start s.right = none) ∧ s.toRight = [] ∧ s.toLeft = []

variable {P} {s t : State π μ} {e : Event}

/-- **Steps on the left suffice** for a relation that does not tell the parties apart. -/
theorem step_relation {R : State π μ → State π μ → Prop}
    (hswap : ∀ s t, R s.swap t.swap → R s t) (hstart : ∀ s t, StartStep P s t → R s t)
    (hdeliver : ∀ s t, DeliverStep P s t → R s t) (h : Step P s e t) : R s t := by
  cases e with
  | start e =>
      cases e with
      | left => exact hstart s t h
      | right => exact hswap s t (hstart s.swap t.swap h)
  | deliver e =>
      cases e with
      | left => exact hdeliver s t h
      | right => exact hswap s t (hdeliver s.swap t.swap h)

/-- The same for an invariant. -/
theorem step_invariant {I : State π μ → Prop} (hswap : ∀ s, I s → I s.swap)
    (hstart : ∀ s t, I s → StartStep P s t → I t)
    (hdeliver : ∀ s t, I s → DeliverStep P s t → I t) (hs : I s) (h : Step P s e t) : I t :=
  step_relation (R := fun s t => I s → I t) (fun s t hst hs => hswap t.swap (hst (hswap s hs)))
    (fun s t h hs => hstart s t hs h) (fun s t h hs => hdeliver s t hs h) h hs

lemma step_swap (h : Step P s e t) : ∃ e', Step P s.swap e' t.swap := by
  cases e with
  | start e =>
      cases e with
      | left => exact ⟨.start .right, h⟩
      | right => exact ⟨.start .left, h⟩
  | deliver e =>
      cases e with
      | left => exact ⟨.deliver .right, h⟩
      | right => exact ⟨.deliver .left, h⟩

lemma leads_swap (h : Leads (Step P) s t) : Leads (Step P) s.swap t.swap := by
  obtain ⟨tr, hrun, rfl⟩ := h
  induction hrun with
  | nil s => exact .refl s.swap
  | cons hstep _ ih =>
      obtain ⟨e', hstep'⟩ := step_swap hstep
      exact (Leads.single hstep').trans ih

lemma exists_step (h : ¬ Quiet P s) : ∃ e t, Step P s e t := by
  have hleft : ∀ s : State π μ, P.start s.left ≠ none → ∃ t, StartStep P s t := by
    intro s hne
    obtain ⟨⟨p, out⟩, hp⟩ := Option.ne_none_iff_exists'.mp hne
    exact ⟨_, p, out, hp, rfl⟩
  have hmsg : ∀ s : State π μ, P.start s.left = none → s.toLeft ≠ [] → ∃ t, DeliverStep P s t := by
    intro s hnone hne
    obtain ⟨m, rest, hm⟩ := List.exists_cons_of_ne_nil hne
    exact ⟨_, hnone, m, rest, hm, rfl⟩
  by_cases hl : P.start s.left = none
  · by_cases hr : P.start s.right = none
    · by_cases htl : s.toLeft = []
      · have htr : s.toRight ≠ [] := fun htr => h ⟨⟨hl, hr⟩, htr, htl⟩
        obtain ⟨t, ht⟩ := hmsg s.swap hr htr
        exact ⟨.deliver .right, t.swap, ht⟩
      · obtain ⟨t, ht⟩ := hmsg s hl htl
        exact ⟨.deliver .left, t, ht⟩
    · obtain ⟨t, ht⟩ := hleft s.swap hr
      exact ⟨.start .right, t.swap, ht⟩
  · obtain ⟨t, ht⟩ := hleft s hl
    exact ⟨.start .left, t, ht⟩

/-! ### Counting -/

/-- `turns` counts the turns a party has left to start. -/
structure Turns (P : Party π μ) (turns : π → ℕ) : Prop where
  start : ∀ p q out, P.start p = some (q, out) → turns p = turns q + 1
  deliver : ∀ p m, turns (P.deliver p m).1 = turns p

/-- The steps that are due: turns of the starts, and deliveries. -/
def due (turns : π → ℕ) (s : State π μ) : ℕ :=
  turns s.left + turns s.right + s.toRight.length + s.toLeft.length

variable {turns : π → ℕ}

lemma due_step (ht : Turns P turns) (h : Step P s e t) :
    due turns t + s.sent + 1 = due turns s + t.sent := by
  have hswap : ∀ s : State π μ, due turns s.swap = due turns s := by
    intro s
    simp only [due, State.swap]
    omega
  refine step_relation (R := fun s t => due turns t + s.sent + 1 = due turns s + t.sent)
    (fun s t hst => ?_) ?_ ?_ h
  · rw [← hswap s, ← hswap t]
    exact hst
  · rintro s t ⟨p, out, hp, rfl⟩
    have := ht.start _ _ _ hp
    simp only [due, List.length_append]
    omega
  · rintro s t ⟨-, m, rest, hm, rfl⟩
    have := ht.deliver s.left m
    simp only [due, List.length_append, hm, List.length_cons]
    omega

/-- **The length of a run** is what was due and is not any more, and what was sent. -/
theorem run_length (ht : Turns P turns) {tr : List (Event × State π μ)}
    (h : Run (Step P) s tr) :
    due turns (final s tr) + s.sent + tr.length = due turns s + (final s tr).sent := by
  induction h with
  | nil => rfl
  | cons hstep _ ih =>
      have := due_step ht hstep
      simp only [final_cons, List.length_cons]
      omega

/-! ### Execution -/

variable (P)

def startNext (s : State π μ) : Option (State π μ) :=
  (P.start s.left).map fun (p, out) =>
    { s with left := p, toRight := s.toRight ++ out, sent := s.sent + out.length }

def deliverNext (s : State π μ) : Option (State π μ) :=
  match P.start s.left, s.toLeft with
  | none, m :: rest => some { s with
      left := (P.deliver s.left m).1
      toRight := s.toRight ++ (P.deliver s.left m).2
      toLeft := rest
      sent := s.sent + (P.deliver s.left m).2.length }
  | _, _ => none

/-- The state after an event, if it can happen. -/
def next (s : State π μ) : Event → Option (State π μ)
  | .start e => (startNext P (s.view e)).map fun t => t.view e
  | .deliver e => (deliverNext P (s.view e)).map fun t => t.view e

/-- The run on some events, if it is possible. -/
def exec : State π μ → List Event → Option (List (Event × State π μ))
  | _, [] => some []
  | s, e :: es => (next P s e).bind fun t => (exec t es).map fun tr => (e, t) :: tr

variable {P}

lemma view_view (s : State π μ) (e : End) : (s.view e).view e = s := by
  cases e <;> rfl

lemma startStep_of_next (h : startNext P s = some t) : StartStep P s t := by
  obtain ⟨⟨p, out⟩, hp, rfl⟩ := Option.map_eq_some_iff.mp h
  exact ⟨p, out, hp, rfl⟩

lemma deliverStep_of_next (h : deliverNext P s = some t) : DeliverStep P s t := by
  unfold deliverNext at h
  split at h
  · next hs hm =>
      cases h
      exact ⟨hs, _, _, hm, rfl⟩
  · cases h

lemma step_of_next (h : next P s e = some t) : Step P s e t := by
  cases e with
  | start e =>
      obtain ⟨u, hu, rfl⟩ := Option.map_eq_some_iff.mp h
      show StartStep P (s.view e) ((u.view e).view e)
      rw [view_view]
      exact startStep_of_next hu
  | deliver e =>
      obtain ⟨u, hu, rfl⟩ := Option.map_eq_some_iff.mp h
      show DeliverStep P (s.view e) ((u.view e).view e)
      rw [view_view]
      exact deliverStep_of_next hu

/-- **What is executed is a run.** -/
theorem run_of_exec {es : List Event} {tr : List (Event × State π μ)}
    (h : exec P s es = some tr) : Run (Step P) s tr := by
  induction es generalizing s tr with
  | nil =>
      cases h
      exact .nil s
  | cons e es ih =>
      obtain ⟨t, ht, hrest⟩ := Option.bind_eq_some_iff.mp h
      obtain ⟨tr', htr', rfl⟩ := Option.map_eq_some_iff.mp hrest
      exact .cons (step_of_next ht) (ih htr')

end ForgeMush.Duplex
