import ForgeMush.Portal

/-!
Starting and stopping listeners.

`stop` only clears a flag, and an accept that is outstanding then stays so. Its handler looks
at the flag after it has taken the connection in, and a `start` that comes before it begins a
second loop of accepts.
-/

namespace ForgeMush

open Runs

/-- At most one accept is outstanding, and one is while the listener is running. -/
def Listener.SingleAccept (l : Listener) : Prop :=
  l.accepts ≤ 1 ∧ (l.running = true → l.accepts = 1)

namespace Listener

lemma SingleAccept.start {l : Listener} (h : l.SingleAccept)
    (hfresh : l.running = true ∨ l.accepts = 0) : l.start.SingleAccept := by
  unfold Listener.start listen
  split_ifs with hrunning
  · have hnone : l.accepts = 0 := hfresh.resolve_left (by simpa using hrunning)
    exact ⟨by simp [hnone], fun _ => by simp [hnone]⟩
  · exact h

lemma SingleAccept.not_start {l : Listener} (h : l.SingleAccept)
    (hstale : ¬ (l.running = true ∨ l.accepts = 0)) : ¬ l.start.SingleAccept := by
  rw [not_or] at hstale
  have hrunning : l.running = false := by simpa using hstale.1
  have hle := h.1
  intro hstart
  have htwo : l.start.accepts = l.accepts + 1 := by simp [Listener.start, listen, hrunning]
  have := hstart.1
  omega

lemma SingleAccept.stop {l : Listener} (h : l.SingleAccept) : l.stop.SingleAccept := by
  unfold Listener.stop
  split_ifs
  · exact ⟨h.1, fun hf => by cases hf⟩
  · exact h

lemma SingleAccept.accepted {l : Listener} (h : l.SingleAccept) (hpos : 0 < l.accepts) :
    l.accepted.SingleAccept := by
  have hle := h.1
  have hone : l.accepts - 1 = 0 := by omega
  unfold Listener.accepted listen
  dsimp only
  split_ifs with hrunning
  · exact ⟨by simp [hone], fun _ => by simp [hone]⟩
  · exact ⟨by simp [hone], fun hr => absurd hr hrunning⟩

end Listener

namespace Portal

def SingleAccepts (p : Portal) : Prop := ∀ l ∈ p.listeners.rows, l.listener.SingleAccept

/-- A listener is not started while an accept from before it was stopped is outstanding. -/
def StartsFresh (p : Portal) : Event → Prop
  | .start name => ∀ l, p.listeners.find? name = some l →
      l.listener.running = true ∨ l.listener.accepts = 0
  | _ => True

lemma SingleAccepts.insert {p : Portal} (h : p.SingleAccepts) {l : PortalListener}
    (hl : l.listener.SingleAccept) :
    ∀ l' ∈ (p.listeners.insert l).rows, l'.listener.SingleAccept := by
  intro l' hl'
  rcases Table.mem_insert.mp hl' with rfl | ⟨hmem, -⟩
  · exact hl
  · exact h l' hmem

lemma SingleAccepts.step {p p' : Portal} {e : Event} (h : p.SingleAccepts)
    (hfresh : p.StartsFresh e) (hstep : Step p e p') : p'.SingleAccepts := by
  have hmem : ∀ {name l}, p.listeners.find? name = some l → l.listener.SingleAccept :=
    fun hl => h _ (Table.find?_eq_some_iff.mp hl).1
  cases e with
  | registerListener name address type sslName memory =>
      obtain rfl := hstep
      split
      · next q hq =>
          obtain ⟨con, rfl⟩ := registerListener_ok hq
          exact h.insert ⟨Nat.zero_le 1, fun hf => by cases hf⟩
      · exact h
  | start name =>
      obtain ⟨l, hl, rfl⟩ := hstep
      exact h.insert ((hmem hl).start (hfresh l hl))
  | stop name =>
      obtain ⟨l, hl, rfl⟩ := hstep
      exact h.insert (hmem hl).stop
  | accept name failed =>
      obtain ⟨l, hl, hpos, rfl⟩ := hstep
      cases failed <;> exact h.insert ((hmem hl).accepted hpos)
  | connection i e =>
      obtain ⟨a, d, -, -, rfl⟩ := hstep
      obtain ⟨t, ht⟩ := p.update_eq i a d
      rw [ht]
      exact h

lemma SingleAccepts.not_step {p p' : Portal} {e : Event} (h : p.SingleAccepts)
    (hstale : ¬ p.StartsFresh e) (hstep : Step p e p') : ¬ p'.SingleAccepts := by
  cases e with
  | start name =>
      obtain ⟨l, hl, rfl⟩ := hstep
      have hold : ¬ (l.listener.running = true ∨ l.listener.accepts = 0) := by
        refine fun hl' => hstale fun l' hfind => ?_
        rw [hl] at hfind
        cases hfind
        exact hl'
      intro hall
      exact (h l (Table.find?_eq_some_iff.mp hl).1).not_start hold
        (hall l.start (Table.mem_insert.mpr (Or.inl rfl)))
  | _ => exact absurd trivial hstale

/-- **One loop of accepts**: in every run each listener has at most one accept outstanding,
and one while it is running, exactly if no listener is started while an accept from before it
was stopped is outstanding. -/
theorem singleAccepts_iff_startsFresh (addresses : List String)
    (sslContexts : Table fun e : String × SslContext => e.1) (onConnectCB : Bool)
    (tr : List (Event × Portal)) (h : Run Step (new addresses sslContexts onConnectCB) tr) :
    Always SingleAccepts (new addresses sslContexts onConnectCB) tr ↔
      AllSteps StartsFresh (new addresses sslContexts onConnectCB) tr := by
  have hinit : SingleAccepts (new addresses sslContexts onConnectCB) :=
    fun l hl => absurd hl List.not_mem_nil
  exact h.always_iff_allSteps (fun _ hI => hI) (fun _ _ _ hI hfresh hstep => hI.step hfresh hstep)
    (fun _ _ _ hI hstale hstep => hI.not_step hstale hstep) hinit

def plain : Portal := new ["mine"] Table.empty true

/-- A listener is stopped, its accept ends in an error, and then it is started again. -/
theorem restart_after_accept_single : ∃ tr : List (Event × Portal),
    events tr = [.registerListener "testing" "mine" .telnet none none, .start "testing",
      .stop "testing", .accept "testing" true, .start "testing"] ∧
    Run Step plain tr ∧ Always SingleAccepts plain tr := by
  have hrun : Run Step plain [(.registerListener "testing" "mine" .telnet none none, _),
      (.start "testing", _), (.stop "testing", _), (.accept "testing" true, _),
      (.start "testing", _)] :=
    .cons rfl (.cons ⟨_, rfl, rfl⟩ (.cons ⟨_, rfl, rfl⟩
      (.cons ⟨_, rfl, by decide, rfl⟩ (.cons ⟨_, rfl, rfl⟩ (.nil _)))))
  refine ⟨_, rfl, hrun, (singleAccepts_iff_startsFresh _ _ _ _ hrun).mpr ?_⟩
  refine ⟨trivial, fun l hl => ?_, trivial, trivial, fun l hl => ?_, trivial⟩
  · cases hl
    exact Or.inr rfl
  · cases hl
    exact Or.inr rfl

/-- Started again before its accept has completed, a listener has two. -/
theorem restart_doubles_accepts : ∃ tr : List (Event × Portal),
    events tr = [.registerListener "testing" "mine" .telnet none none, .start "testing",
      .stop "testing", .start "testing"] ∧
    Run Step plain tr ∧ ¬ Always SingleAccepts plain tr ∧
    ∃ l, (final plain tr).listeners.find? "testing" = some l ∧ l.listener.accepts = 2 := by
  have hrun : Run Step plain [(.registerListener "testing" "mine" .telnet none none, _),
      (.start "testing", _), (.stop "testing", _), (.start "testing", _)] :=
    .cons rfl (.cons ⟨_, rfl, rfl⟩ (.cons ⟨_, rfl, rfl⟩ (.cons ⟨_, rfl, rfl⟩ (.nil _))))
  refine ⟨_, rfl, hrun, fun hall => ?_, _, rfl, rfl⟩
  exact absurd (hall.final _ (List.mem_singleton_self _)).1 (by decide)

/-! ### Stopping -/

/-- Nothing but the listeners has changed: no connection is constructed, no id is taken,
nothing put into `pending`, and no `onConnect` called. -/
def SameConnections (p p' : Portal) : Prop := ∃ t, p' = { p with listeners := t }

/-- No accept that completes after the listener has been stopped, and not been started since,
brings a connection. -/
def StopEffective (name : String) (p : Portal) (tr : List (Event × Portal)) : Prop :=
  Since (fun e => e = .stop name) (fun e => e = .start name)
    (fun p e p' => (∃ failed, e = .accept name failed) → SameConnections p p') False p tr

def AcceptsFail (name : String) (p : Portal) (tr : List (Event × Portal)) : Prop :=
  Since (fun e => e = .stop name) (fun e => e = .start name)
    (fun _ e _ => e ≠ .accept name false) False p tr

lemma sameConnections_iff {p p' : Portal} {e : Event} (name : String) (hstep : Step p e p') :
    ((∃ failed, e = .accept name failed) → SameConnections p p') ↔ e ≠ .accept name false := by
  constructor
  · rintro h rfl
    obtain ⟨l, -, -, rfl⟩ := hstep
    obtain ⟨t, ht⟩ := h ⟨false, rfl⟩
    -- the handler has constructed a connection before it looks at the flag
    have hlen := congrArg (fun q : Portal => q.heap.length) ht
    simp [onAccept, accept] at hlen
  · rintro hne ⟨failed, rfl⟩
    cases failed with
    | false => exact absurd rfl hne
    | true =>
        obtain ⟨l, -, -, rfl⟩ := hstep
        exact ⟨_, rfl⟩

/-- **Stopping** a listener keeps connections out, in a run, exactly if every accept that
completes while it is stopped ends in an error. -/
theorem stopEffective_iff_acceptsFail (addresses : List String)
    (sslContexts : Table fun e : String × SslContext => e.1) (onConnectCB : Bool)
    (tr : List (Event × Portal)) (h : Run Step (new addresses sslContexts onConnectCB) tr)
    (name : String) :
    StopEffective name (new addresses sslContexts onConnectCB) tr ↔
      AcceptsFail name (new addresses sslContexts onConnectCB) tr :=
  h.since_congr fun _ _ _ hstep => sameConnections_iff name hstep

theorem failed_accept_after_stop : ∃ tr : List (Event × Portal),
    events tr = [.registerListener "testing" "mine" .telnet none none, .start "testing",
      .stop "testing", .accept "testing" true] ∧
    Run Step plain tr ∧ StopEffective "testing" plain tr := by
  have hrun : Run Step plain [(.registerListener "testing" "mine" .telnet none none, _),
      (.start "testing", _), (.stop "testing", _), (.accept "testing" true, _)] :=
    .cons rfl (.cons ⟨_, rfl, rfl⟩ (.cons ⟨_, rfl, rfl⟩
      (.cons ⟨_, rfl, by decide, rfl⟩ (.nil _))))
  refine ⟨_, rfl, hrun, (stopEffective_iff_acceptsFail _ _ _ _ hrun "testing").mpr ?_⟩
  refine ⟨False.elim, fun _ => ?_, fun _ => ?_, fun _ => ?_, trivial⟩ <;> simp

theorem connection_after_stop : ∃ tr : List (Event × Portal),
    events tr = [.registerListener "testing" "mine" .telnet none none, .start "testing",
      .stop "testing", .accept "testing" false] ∧
    Run Step plain tr ∧ ¬ StopEffective "testing" plain tr ∧
    (final plain tr).pending.rows = [(0, 0)] := by
  have hrun : Run Step plain [(.registerListener "testing" "mine" .telnet none none, _),
      (.start "testing", _), (.stop "testing", _), (.accept "testing" false, _)] :=
    .cons rfl (.cons ⟨_, rfl, rfl⟩ (.cons ⟨_, rfl, rfl⟩
      (.cons ⟨_, rfl, by decide, rfl⟩ (.nil _))))
  refine ⟨_, rfl, hrun, fun h => ?_, rfl⟩
  obtain ⟨t, ht⟩ := h.2.2.2.1 ⟨Or.inr rfl, by simp⟩ ⟨false, rfl⟩
  have hid : (1 : UInt32) = 0 := congrArg nextId ht
  exact absurd hid (by decide)

end Portal

end ForgeMush
