import ForgeMush.Restart
import ForgeMush.Wrapping

/-!
What still comes of a listener that has been stopped.

It is paused for good: `start` finds it listening and leaves it alone. So it takes no socket any
more, and the connections that it still makes are those of sockets that were pending.
-/

namespace ForgeMush.Mudcore

open Runs

variable {σ : Type} {q : QTcpServer σ}

namespace QMudListener

/-- The server is paused, and has taken so many sockets. -/
def Paused (q : QTcpServer σ) (sockets : ℕ) (l : QMudListener σ) : Prop :=
  ∃ v, l.listener = some v ∧ q.isListening v.base = true ∧ q.accepting v.base = false ∧
    v.sockets.length = sockets

variable {l : QMudListener σ} {n : ℕ}

lemma paused_stop (hq : q.Documented) {v : QSslServer σ} (hv : l.listener = some v)
    (h : q.isListening v.base = true) : (l.stop q).1.Paused q v.sockets.length := by
  obtain ⟨hsame, hpaused⟩ := hq.pauseAccepting v.base
  rw [stop, hv]
  dsimp only
  rw [if_pos h]
  exact ⟨_, rfl, hsame.trans h, hpaused, rfl⟩

lemma Paused.start (h : l.Paused q n) : (l.start q).1.Paused q n := by
  obtain ⟨v, hv, hlistening, -⟩ := id h
  rw [start_of_listening hv hlistening]
  exact h

lemma Paused.stop (hq : q.Documented) (h : l.Paused q n) : (l.stop q).1.Paused q n := by
  obtain ⟨v, hv, hlistening, -, rfl⟩ := h
  exact paused_stop hq hv hlistening

end QMudListener

namespace QMudServerCore

variable {c c' : QMudServerCore σ} {e : Event} {i n : ℕ}

lemma forListeners_keeps {f : QMudListener σ → QMudListener σ} {P : QMudListener σ → Prop}
    (hf : ∀ l, P l → P (f l)) (h : ∃ l, c.listenerHeap[i]? = some l ∧ P l) :
    ∃ l, (c.forListeners f).listenerHeap[i]? = some l ∧ P l := by
  unfold forListeners
  dsimp only
  generalize c.listenerHeap = heap at h
  induction c.listeners.rows generalizing heap with
  | nil => exact h
  | cons x rows ih =>
      obtain ⟨l, hl, hP⟩ := h
      refine ih _ ?_
      rw [List.getElem?_modify, hl]
      by_cases hx : x.2 = i
      · exact ⟨f l, by simp [hx], hf l hP⟩
      · exact ⟨l, by simp [hx], hP⟩

lemma set_keeps {P : QMudListener σ → Prop} {heap : List (QMudListener σ)} {j : ℕ}
    {l l' : QMudListener σ} (hl : heap[j]? = some l) (hl' : P l → P l')
    (h : ∃ k, heap[i]? = some k ∧ P k) : ∃ k, (heap.set j l')[i]? = some k ∧ P k := by
  obtain ⟨k, hk, hP⟩ := h
  by_cases hij : j = i
  · subst hij
    rw [hl, Option.some.injEq] at hk
    obtain ⟨hlt, -⟩ := List.getElem?_eq_some_iff.mp hl
    exact ⟨l', by simp [hlt], hl' (hk ▸ hP)⟩
  · exact ⟨k, by rw [List.getElem?_set_ne hij, hk], hP⟩

/-- The listener `i` is paused, and its server has taken so many sockets. -/
def Paused (q : QTcpServer σ) (i n : ℕ) (c : QMudServerCore σ) : Prop :=
  ∃ l, c.listenerHeap[i]? = some l ∧ l.Paused q n

/-- **Nothing resumes it.** -/
lemma Paused.step (hq : q.Documented) (h : c.Paused q i n) (hstep : Step q c e c') :
    c'.Paused q i n := by
  cases e with
  | createListener name interface port noConfig type =>
      obtain rfl := hstep
      obtain ⟨l, hl, hpaused⟩ := h
      obtain ⟨hlt, -⟩ := List.getElem?_eq_some_iff.mp hl
      exact ⟨l, (List.getElem?_append_left hlt).trans hl, hpaused⟩
  | startListening =>
      obtain rfl := hstep
      exact forListeners_keeps (fun l hl => hl.start) h
  | stopListening =>
      obtain rfl := hstep
      exact forListeners_keeps (fun l hl => hl.stop hq) h
  | server j k =>
      obtain ⟨l, v, hl, hv, -, haccepting, rfl⟩ := hstep
      rw [serverEvent]
      dsimp only
      rw [foldl_acceptTelnetConnection]
      refine set_keeps hl ?_ h
      rintro ⟨v', hv', hlistening, hpaused, hlen⟩
      rw [hv, Option.some.injEq] at hv'
      subst hv'
      refine ⟨_, rfl, by rwa [QSslServer.handle_base], by rwa [QSslServer.handle_base], ?_⟩
      cases k with
      | incomingConnection ok =>
          exact absurd (hpaused.symm.trans (haccepting ok rfl)) Bool.noConfusion
      | encrypts s => rw [← hlen, QSslServer.handle, List.length_set]
      | encrypted s order => exact hlen
  | telnetReady j k =>
      obtain ⟨l, conn, hl, -, -, rfl⟩ := hstep
      exact set_keeps hl id h

/-- **Stopping is final**: after `stopListening`, whatever else happens, calls of `startListening`
included, the connections of a listener that was listening are those that it had and those of
sockets that were pending. -/
theorem stopListening_final (hq : q.Documented) (tr : List (Event × QMudServerCore σ))
    (h : Run (Step q) {} tr) (i : ℕ) (l : QMudListener σ) (v : QSslServer σ)
    (hi : i ∈ (final {} tr).listeners.values) (hl : (final {} tr).listenerHeap[i]? = some l)
    (hv : l.listener = some v) (hlistening : q.isListening v.base = true)
    (tr' : List (Event × QMudServerCore σ))
    (h' : Run (Step q) ((final {} tr).stopListening q) tr') :
    ∀ s ∈ (final ((final {} tr).stopListening q) tr').wrapped i,
      s ∈ (final {} tr).wrapped i ∨ s ∈ v.pendingSsl := by
  obtain ⟨-, hall, -, -⟩ := sound_of_run h hl hv
  have hnodup : (final {} tr).listeners.values.Nodup :=
    (filed_new.run h).1.listeners.values_nodup fun _ _ _ hk hl => Option.some.inj (hk.symm.trans hl)
  have hstopped : ((final {} tr).stopListening q).Paused q i v.sockets.length := by
    refine ⟨(l.stop q).1, ?_, QMudListener.paused_stop hq hv hlistening⟩
    rw [stopListening, forListeners_getElem? _ _ hnodup hi, hl]
    rfl
  obtain ⟨l', hl', v', hv', -, -, hlen⟩ := h'.invariant (fun _ _ _ hp hstep => hp.step hq hstep)
    hstopped
  have hstop : Step q (final {} tr) .stopListening ((final {} tr).stopListening q) := rfl
  obtain ⟨hrun, hfinal⟩ := h.append rfl (.cons hstop h')
  rw [final_cons] at hfinal
  rw [← hfinal] at hl' ⊢
  obtain ⟨-, hall', -, -⟩ := sound_of_run hrun hl' hv'
  intro s hs
  have hlt : s < v'.sockets.length := (hall' s).mpr (Or.inr hs)
  rw [hlen] at hlt
  exact ((hall s).mp hlt).symm

def pausedCore : QMudServerCore (Bool × Bool) where
  listeners := Table.empty.insert ("testing", 0)
  listenerHeap := [{
    objectName := "testing"
    address := "mine"
    port := 7999
    listener := some {
      base := (true, true)
      noConfig := false
      pendingSsl := insert 1 (insert 0 ∅) \ [0].toFinset
      sockets := [{ encrypted := true }, { encrypted := false }] } }]
  connectionHeap := [{ parent := 0, socket := 0 }]

/-- It is started again, and the other socket is encrypted. -/
theorem pending_socket_wrapped : ∃ tr tr' : List (Event × QMudServerCore (Bool × Bool)),
    Run (Step flags) {} tr ∧ (final {} tr).stopListening flags = pausedCore ∧
    Run (Step flags) pausedCore tr' ∧
    events tr' = [.startListening, .server 0 (.encrypts 1), .server 0 (.encrypted 1 [1])] ∧
    (final pausedCore tr').wrapped 0 = [0, 1] ∧ ∀ s ∈ [0, 1], s ∈ [0] ∨ s ∈ ({1} : Finset ℕ) := by
  have hboth : ∀ s, s ∈ [0, 1] ↔ s ∈ insert 1 (insert 0 (∅ : Finset ℕ)) := by
    simp [or_comm]
  have hother : ∀ s, s ∈ [1] ↔ s ∈ insert 1 (insert 0 (∅ : Finset ℕ)) \ [0].toFinset := by
    simp
  have hrun : Run (Step flags) {} [(.createListener "testing" "mine" 7999 false .telnet, _),
      (.startListening, _), (.server 0 (.incomingConnection true), _),
      (.server 0 (.incomingConnection true), _), (.server 0 (.encrypts 0), _),
      (.server 0 (.encrypted 0 [0, 1]), _)] :=
    .cons rfl (.cons rfl (.cons ⟨_, _, rfl, rfl, trivial, fun _ _ => rfl, rfl⟩
      (.cons ⟨_, _, rfl, rfl, trivial, fun _ _ => rfl, rfl⟩
        (.cons ⟨_, _, rfl, rfl, ⟨rfl, by decide⟩, (fun _ h => by cases h), rfl⟩
          (.cons ⟨_, _, rfl, rfl, ⟨rfl, rfl, by decide, hboth⟩, (fun _ h => by cases h), rfl⟩
            (.nil _))))))
  have hrun' : Run (Step flags) pausedCore [(.startListening, _), (.server 0 (.encrypts 1), _),
      (.server 0 (.encrypted 1 [1]), _)] :=
    .cons rfl (.cons ⟨_, _, rfl, rfl, ⟨rfl, by decide⟩, (fun _ h => by cases h), rfl⟩
      (.cons ⟨_, _, rfl, rfl, ⟨rfl, rfl, by decide, hother⟩, (fun _ h => by cases h), rfl⟩
        (.nil _)))
  exact ⟨_, _, hrun, rfl, hrun', rfl, rfl,
    stopListening_final flags_documented _ hrun 0 _ _ (by decide) rfl rfl rfl _ hrun'⟩

end QMudServerCore

end ForgeMush.Mudcore
