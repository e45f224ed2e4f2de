import ForgeMush.Runs

/-!
Systems made up of components.

The components stand in a list, and a new one is put at its end. Apart from that a step of the
system is one of a single component. What happens to a component is then a run of its own,
whatever the others do in between.
-/

namespace ForgeMush.Runs

variable {σ ε γ κ : Type*}

/-- How a system is made up: `parts` are its components, `inner` says of an event which of them
takes which step, and a new component is `fresh` in its place. -/
structure Composed (step : σ → ε → σ → Prop) (own : γ → κ → γ → Prop) (parts : σ → List γ)
    (inner : ε → Option (ℕ × κ)) (fresh : ℕ → γ → Prop) : Prop where
  moves : ∀ s e t i k, step s e t → inner e = some (i, k) →
    ∃ c d, (parts s)[i]? = some c ∧ own c k d ∧ parts t = (parts s).set i d
  grows : ∀ s e t, step s e t → inner e = none →
    ∃ l, parts t = parts s ++ l ∧ ∀ j c, l[j]? = some c → fresh ((parts s).length + j) c

def ownEvent (inner : ε → Option (ℕ × κ)) (i : ℕ) (e : ε) : Option κ :=
  (inner e).bind fun x => if x.1 = i then some x.2 else none

/-- What happens to the component `i` in a run of the system. -/
def share (parts : σ → List γ) (inner : ε → Option (ℕ × κ)) (i : ℕ) (tr : List (ε × σ)) :
    List (κ × γ) :=
  tr.filterMap fun x => (ownEvent inner i x.1).bind fun k => (parts x.2)[i]?.map fun c => (k, c)

variable {step : σ → ε → σ → Prop} {own : γ → κ → γ → Prop} {parts : σ → List γ}
  {inner : ε → Option (ℕ × κ)} {fresh : ℕ → γ → Prop} {s : σ} {tr : List (ε × σ)} {i : ℕ}

lemma ownEvent_eq_some {e : ε} {k : κ} : ownEvent inner i e = some k ↔ inner e = some (i, k) := by
  unfold ownEvent
  rcases inner e with _ | ⟨j, k'⟩
  · simp
  · by_cases hj : j = i
    · simp [hj]
    · simp [hj]

lemma Composed.step_cases (h : Composed step own parts inner fresh) {t : σ} {e : ε}
    (hstep : step s e t) {d : γ} (hd : (parts t)[i]? = some d) :
    (∃ k c, ownEvent inner i e = some k ∧ (parts s)[i]? = some c ∧ own c k d) ∨
    (ownEvent inner i e = none ∧
      ((parts s)[i]? = some d ∨ ((parts s)[i]? = none ∧ fresh i d))) := by
  cases hinner : inner e with
  | none =>
      obtain ⟨l, hl, hfresh⟩ := h.grows s e t hstep hinner
      refine Or.inr ⟨by rw [ownEvent, hinner]; rfl, ?_⟩
      rw [hl, List.getElem?_append] at hd
      split_ifs at hd with hi
      · exact Or.inl hd
      · have hle : (parts s).length ≤ i := Nat.not_lt.mp hi
        have hnew := hfresh _ d hd
        rw [Nat.add_sub_cancel' hle] at hnew
        exact Or.inr ⟨List.getElem?_eq_none hle, hnew⟩
  | some x =>
      obtain ⟨j, k⟩ := x
      obtain ⟨c, c', hc, hown, hset⟩ := h.moves s e t j k hstep hinner
      obtain ⟨hj, -⟩ := List.getElem?_eq_some_iff.mp hc
      rw [hset] at hd
      by_cases hij : j = i
      · subst hij
        rw [List.getElem?_set_self hj, Option.some.injEq] at hd
        exact Or.inl ⟨k, c, ownEvent_eq_some.mpr hinner, hc, hd ▸ hown⟩
      · rw [List.getElem?_set_ne hij] at hd
        refine Or.inr ⟨?_, Or.inl hd⟩
        rw [ownEvent, hinner, Option.bind_some, if_neg hij]

/-- **The share of a component** in a run of the system is a run of its own, from what it was at
first or when it was put there, with its events and no others. -/
theorem Composed.run_share (h : Composed step own parts inner fresh) (hrun : Run step s tr)
    {d : γ} (hd : (parts (final s tr))[i]? = some d) :
    ∃ c, ((parts s)[i]? = some c ∨ ((parts s)[i]? = none ∧ fresh i c)) ∧
      Run own c (share parts inner i tr) ∧ final c (share parts inner i tr) = d ∧
      events (share parts inner i tr) = (events tr).filterMap (ownEvent inner i) := by
  induction hrun with
  | nil s => exact ⟨d, Or.inl hd, .nil d, rfl, rfl⟩
  | @cons s t e tr hstep _ ih =>
      obtain ⟨c, hc, hown, hfinal, hevents⟩ := ih hd
      rw [events_cons, List.filterMap_cons, share, List.filterMap_cons]
      rcases hc with hc | ⟨hnone, hfresh⟩
      · rcases h.step_cases hstep hc with ⟨k, b, hk, hb, hbc⟩ | ⟨hk, hb⟩
        · rw [hk, hc]
          exact ⟨b, Or.inl hb, .cons hbc hown, hfinal, congrArg (k :: ·) hevents⟩
        · rw [hk]
          refine ⟨c, hb, hown, hfinal, hevents⟩
      · -- the component is not there yet, so that the step is not one of it
        have hlen : (parts s)[i]? = none ∧ ownEvent inner i e = none := by
          cases hinner : inner e with
          | none =>
              obtain ⟨l, hl, -⟩ := h.grows s e t hstep hinner
              rw [hl, List.getElem?_eq_none_iff, List.length_append] at hnone
              exact ⟨List.getElem?_eq_none (by omega), by rw [ownEvent, hinner]; rfl⟩
          | some x =>
              obtain ⟨b, b', hb, -, hset⟩ := h.moves s e t x.1 x.2 hstep hinner
              obtain ⟨hlt, -⟩ := List.getElem?_eq_some_iff.mp hb
              rw [hset, List.getElem?_eq_none_iff, List.length_set] at hnone
              refine ⟨List.getElem?_eq_none hnone, ?_⟩
              rw [ownEvent, hinner, Option.bind_some, if_neg (by omega)]
        rw [hlen.2]
        exact ⟨c, Or.inr ⟨hlen.1, hfresh⟩, hown, hfinal, hevents⟩

/-- **The rule for components**: what new components have and their own steps keep, all components
have in every run of a system that begins with none. -/
theorem Composed.invariant (h : Composed step own parts inner fresh) {I : γ → Prop}
    (hfresh : ∀ i c, fresh i c → I c) (hI : ∀ c k d, I c → own c k d → I d) (hrun : Run step s tr)
    (hs : ∀ c ∈ parts s, I c) : ∀ c ∈ parts (final s tr), I c := by
  intro d hd
  obtain ⟨i, hi⟩ := List.getElem?_of_mem hd
  obtain ⟨c, hc, hown, rfl, -⟩ := h.run_share hrun hi
  refine hown.invariant hI ?_
  rcases hc with hc | ⟨-, hc⟩
  · exact hs c (List.mem_of_getElem? hc)
  · exact hfresh i c hc

lemma Run.embedded {ι : γ → σ} {η : κ → ε}
    (hι : ∀ c e t, step (ι c) e t → ∃ k d, e = η k ∧ t = ι d ∧ own c k d) {c : γ}
    (h : Run step (ι c) tr) :
    ∃ tr', Run own c tr' ∧ final (ι c) tr = ι (final c tr') ∧ events tr = (events tr').map η := by
  generalize hs : ι c = s at h
  induction h generalizing c with
  | nil s => exact ⟨[], .nil c, hs.symm, rfl⟩
  | @cons s t e tr hstep _ ih =>
      subst hs
      obtain ⟨k, d, rfl, rfl, hown⟩ := hι c e t hstep
      obtain ⟨tr', hrun, hfinal, hevents⟩ := ih rfl
      exact ⟨(k, d) :: tr', .cons hown hrun, hfinal, congrArg (η k :: ·) hevents⟩

end ForgeMush.Runs
