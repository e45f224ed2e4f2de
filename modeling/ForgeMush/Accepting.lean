import ForgeMush.Isolation

/-!
`startListening` and `stopListening`, and which listeners accept.

A running listener is never without an accept, and one that has been stopped may have one still.
How many it has can only grow by its being stopped and started again.
-/

namespace ForgeMush

open Runs

namespace Listener

/-- An accept is outstanding as long as the listener is running. -/
def Attends (l : Listener) : Prop := l.running = true → 0 < l.accepts

/-- The accepts outstanding, and the one to come when the listener is started. -/
def load (l : Listener) : ℕ := l.accepts + if l.running then 0 else 1

variable {l : Listener}

lemma Attends.start (h : l.Attends) : l.start.Attends ∧ l.start.running = true := by
  unfold Listener.start listen
  split_ifs with hrunning
  · exact ⟨fun _ => Nat.succ_pos _, rfl⟩
  · exact ⟨h, by simpa using hrunning⟩

lemma attends_stop (h : l.Attends) : l.stop.Attends := by
  unfold Listener.stop
  split_ifs
  · exact fun hf => Bool.noConfusion hf
  · exact h

lemma attends_accepted (l : Listener) : l.accepted.Attends ∧ l.accepted.running = l.running := by
  unfold Listener.accepted listen
  dsimp only
  split_ifs with hrunning
  · exact ⟨fun _ => Nat.succ_pos _, rfl⟩
  · exact ⟨fun hf => absurd hf hrunning, rfl⟩

lemma load_start (l : Listener) : l.start.load = l.load := by
  unfold Listener.start listen
  split_ifs with hrunning
  · have hstopped : l.running = false := by simpa using hrunning
    simp [load, hstopped]
  · rfl

lemma load_stop_le (l : Listener) : l.stop.load ≤ l.load + 1 := by
  unfold Listener.stop
  split_ifs with hrunning
  · simp [load, hrunning]
  · exact Nat.le_succ _

lemma load_accepted_le (hpos : 0 < l.accepts) : l.accepted.load ≤ l.load := by
  unfold Listener.accepted listen
  dsimp only
  split_ifs with hrunning
  · simp only [load, hrunning, if_true]
    omega
  · simp only [load, hrunning]
    exact Nat.add_le_add_right (Nat.sub_le _ _) _

end Listener

namespace Portal

/-- The loop of `startListening`, over the names in the order in which it comes to them. -/
def startListening (p : Portal) (names : List String) : Portal :=
  { p with listeners := names.foldl (Table.change · PortalListener.start ·) p.listeners }

/-- The loop of `stopListening`. -/
def stopListening (p : Portal) (names : List String) : Portal :=
  { p with listeners := names.foldl (Table.change · PortalListener.stop ·) p.listeners }

end Portal

/-! ### A listener in a portal -/

/-- The listener after an event of the portal. -/
def PortalListener.after (l : PortalListener) : Portal.Event → PortalListener
  | .start name => if l.listener.name = name then l.start else l
  | .stop name => if l.listener.name = name then l.stop else l
  | .accept name _ => if l.listener.name = name then l.accepted else l
  | _ => l

namespace PortalListener

lemma name_start (l : PortalListener) : l.start.listener.name = l.listener.name := by
  unfold start Listener.start Listener.listen
  dsimp only
  split_ifs <;> rfl

lemma name_stop (l : PortalListener) : l.stop.listener.name = l.listener.name := by
  unfold stop Listener.stop
  dsimp only
  split_ifs <;> rfl

lemma name_accepted (l : PortalListener) : l.accepted.listener.name = l.listener.name := by
  unfold accepted Listener.accepted Listener.listen
  dsimp only
  split_ifs <;> rfl

lemma name_after (l : PortalListener) (e : Portal.Event) :
    (l.after e).listener.name = l.listener.name := by
  unfold after
  split
  · split_ifs
    · exact l.name_start
    · rfl
  · split_ifs
    · exact l.name_stop
    · rfl
  · split_ifs
    · exact l.name_accepted
    · rfl
  · rfl

end PortalListener

namespace Portal

variable {p q : Portal} {e : Event} {l : PortalListener}

lemma rows_insert_of_find? {f : PortalListener → PortalListener}
    (hf : ∀ l, (f l).listener.name = l.listener.name) {name : String}
    (hl : p.listeners.find? name = some l) :
    (p.listeners.insert (f l)).rows =
      p.listeners.rows.map fun l => if l.listener.name = name then f l else l := by
  rw [← Table.rows_change hf, Table.change, hl]

/-- **What a step does to the listeners**: each has the event happen to it, and there may be new
ones behind them. -/
lemma listeners_of_step (hstep : Step p e q) :
    ∃ t, q.listeners.rows = p.listeners.rows.map (·.after e) ++ t ∧
      ∀ l ∈ t, l.listener.running = false ∧ l.listener.accepts = 0 := by
  cases e with
  | registerListener name address type sslName memory =>
      obtain rfl := hstep
      have hsame : p.listeners.rows =
          p.listeners.rows.map (·.after (.registerListener name address type sslName memory)) :=
        (List.map_id _).symm
      split
      · next q hq =>
          have hfree : name ∉ p.listeners.keys := by
            rw [← Table.find?_eq_none_iff]
            by_contra hne
            unfold registerListener at hq
            rw [if_pos hne] at hq
            cases hq
          obtain ⟨con, rfl⟩ := registerListener_ok hq
          refine ⟨[.new name type con sslName memory], ?_, fun l hl => ?_⟩
          · rw [← hsame]
            exact if_neg hfree
          · rw [List.mem_singleton.mp hl]
            exact ⟨rfl, rfl⟩
      · exact ⟨[], by rw [← hsame, List.append_nil], by simp⟩
  | start name =>
      obtain ⟨l, hl, rfl⟩ := hstep
      exact ⟨[], by rw [List.append_nil]; exact rows_insert_of_find? (·.name_start) hl, by simp⟩
  | stop name =>
      obtain ⟨l, hl, rfl⟩ := hstep
      exact ⟨[], by rw [List.append_nil]; exact rows_insert_of_find? (·.name_stop) hl, by simp⟩
  | accept name failed =>
      obtain ⟨l, hl, -, rfl⟩ := hstep
      have hrows : (p.onAccept l failed).listeners = p.listeners.insert l.accepted := by
        cases failed <;> rfl
      refine ⟨[], ?_, by simp⟩
      rw [hrows, List.append_nil]
      exact rows_insert_of_find? (·.name_accepted) hl
  | connection i k =>
      obtain ⟨a, d, -, -, rfl⟩ := hstep
      obtain ⟨t, ht⟩ := p.update_eq i a d
      rw [ht]
      exact ⟨[], by rw [List.append_nil]; exact (List.map_id _).symm, by simp⟩

lemma find?_after (hstep : Step p e q) {name : String} (hl : p.listeners.find? name = some l) :
    q.listeners.find? name = some (l.after e) := by
  obtain ⟨t, ht, -⟩ := listeners_of_step hstep
  obtain ⟨hmem, hname⟩ := Table.find?_eq_some_iff.mp hl
  refine Table.find?_eq_some_iff.mpr ⟨?_, (l.name_after e).trans hname⟩
  rw [ht]
  exact List.mem_append_left _ (List.mem_map_of_mem hmem)

lemma accepts_pos (hstep : Step p e q) (hl : l ∈ p.listeners.rows) {failed : Bool}
    (he : e = .accept l.listener.name failed) : 0 < l.listener.accepts := by
  subst he
  obtain ⟨l', hl', hpos, -⟩ := hstep
  rw [Table.find?_eq_some_iff.mpr ⟨hl, rfl⟩, Option.some.injEq] at hl'
  rwa [hl']

/-! ### Accepts outstanding -/

/-- The listener is stopped. -/
def Event.stops (name : String) : Event → Bool
  | .stop n => n = name
  | _ => false

/-- A running listener has an accept outstanding, and none has more than one for each time it has
been stopped, and one. -/
def Attentive (stopped : String → ℕ) (p : Portal) : Prop :=
  ∀ l ∈ p.listeners.rows, l.listener.Attends ∧
    l.listener.load ≤ stopped l.listener.name + 1

lemma attends_after (hattends : l.listener.Attends)
    (hpos : ∀ failed, e = .accept l.listener.name failed → 0 < l.listener.accepts) :
    (l.after e).listener.Attends ∧ (l.after e).listener.load ≤
      l.listener.load + if e.stops l.listener.name then 1 else 0 := by
  have hkept : l.listener.Attends ∧ l.listener.load ≤
      l.listener.load + if e.stops l.listener.name then 1 else 0 :=
    ⟨hattends, Nat.le_add_right _ _⟩
  cases e with
  | start name =>
      rw [PortalListener.after]
      by_cases hname : l.listener.name = name
      · rw [if_pos hname]
        exact ⟨hattends.start.1, (Listener.load_start _).le.trans (Nat.le_add_right _ _)⟩
      · rwa [if_neg hname]
  | stop name =>
      rw [PortalListener.after]
      by_cases hname : l.listener.name = name
      · have hstops : Event.stops l.listener.name (.stop name) = true := decide_eq_true hname.symm
        rw [if_pos hname, hstops, if_pos rfl]
        exact ⟨Listener.attends_stop hattends, Listener.load_stop_le _⟩
      · rwa [if_neg hname]
  | accept name failed =>
      rw [PortalListener.after]
      by_cases hname : l.listener.name = name
      · rw [if_pos hname]
        subst hname
        exact ⟨(Listener.attends_accepted _).1,
          (Listener.load_accepted_le (hpos failed rfl)).trans (Nat.le_add_right _ _)⟩
      · rwa [if_neg hname]
  | _ => exact hkept

lemma Attentive.step {stopped : String → ℕ} (h : Attentive stopped p) (hstep : Step p e q) :
    Attentive (fun name => stopped name + if e.stops name then 1 else 0) q := by
  obtain ⟨t, ht, hnew⟩ := listeners_of_step hstep
  intro l' hl'
  rw [ht] at hl'
  rcases List.mem_append.mp hl' with hold | hl'
  · obtain ⟨l, hl, rfl⟩ := List.mem_map.mp hold
    obtain ⟨hattends, hload⟩ := h l hl
    obtain ⟨hattends', hload'⟩ := attends_after (e := e) hattends
      fun failed he => accepts_pos hstep hl he
    refine ⟨hattends', ?_⟩
    dsimp only
    rw [l.name_after]
    omega
  · obtain ⟨hrunning, hnone⟩ := hnew l' hl'
    refine ⟨fun hr => ?_, ?_⟩
    · rw [hrunning] at hr
      cases hr
    · rw [Listener.load, hrunning, hnone, if_neg Bool.false_ne_true]
      omega

lemma Attentive.run {stopped : String → ℕ} {tr : List (Event × Portal)} (h : Attentive stopped p)
    (hrun : Run Step p tr) :
    Attentive (fun name => stopped name + (events tr).countP (Event.stops name)) (final p tr) := by
  induction hrun generalizing stopped with
  | nil p => simpa using h
  | @cons p q e tr hstep _ ih =>
      intro l hl
      obtain ⟨hattends, hload⟩ := ih (h.step hstep) l hl
      refine ⟨hattends, hload.trans (le_of_eq ?_)⟩
      dsimp only
      rw [events_cons, List.countP_cons, Nat.add_assoc (stopped _), Nat.add_comm (ite ..)]

lemma attentive_run {addresses : List String}
    {sslContexts : Table fun e : String × SslContext => e.1} {onConnectCB : Bool}
    {tr : List (Event × Portal)} (h : Run Step (new addresses sslContexts onConnectCB) tr) :
    Attentive (fun name => (events tr).countP (Event.stops name))
      (final (new addresses sslContexts onConnectCB) tr) := by
  have hinit : Attentive (fun _ => 0) (new addresses sslContexts onConnectCB) :=
    fun l hl => absurd hl List.not_mem_nil
  simpa using hinit.run h

/-- **Accepts outstanding**: in every state that a portal reaches a running listener has one, and a
listener has at most one more than the times it has been stopped. -/
theorem accepts_of_run (addresses : List String)
    (sslContexts : Table fun e : String × SslContext => e.1) (onConnectCB : Bool)
    (tr : List (Event × Portal)) (h : Run Step (new addresses sslContexts onConnectCB) tr)
    (l : PortalListener)
    (hl : l ∈ (final (new addresses sslContexts onConnectCB) tr).listeners.rows) :
    (l.listener.running = true → 0 < l.listener.accepts) ∧
      l.listener.accepts ≤ (events tr).countP (Event.stops l.listener.name) + 1 := by
  obtain ⟨hattends, hload⟩ := attentive_run h l hl
  have hle : l.listener.accepts ≤ l.listener.load := Nat.le_add_right _ _
  exact ⟨hattends, hle.trans hload⟩

/-- A listener that is stopped and started again at once has two. -/
theorem restarted_listener_accepts : ∃ tr : List (Event × Portal), Run Step plain tr ∧
    (events tr).drop 1 = [.start "testing", .stop "testing", .start "testing"] ∧
    ∃ l, (final plain tr).listeners.rows = [l] ∧ l.listener.accepts = 2 ∧
      l.listener.accepts ≤ (events tr).countP (Event.stops "testing") + 1 := by
  have hrun : Run Step plain [(.registerListener "testing" "mine" .telnet none none, _),
      (.start "testing", _), (.stop "testing", _), (.start "testing", _)] :=
    .cons rfl (.cons ⟨_, rfl, rfl⟩ (.cons ⟨_, rfl, rfl⟩ (.cons ⟨_, rfl, rfl⟩ (.nil _))))
  obtain ⟨-, hle⟩ := accepts_of_run ["mine"] Table.empty true _ hrun _ List.mem_cons_self
  exact ⟨_, hrun, rfl, _, rfl, rfl, hle⟩

/-! ### All listeners at once -/

lemma rows_startListening {names : List String} (hnames : names.Perm p.listeners.keys) :
    (p.startListening names).listeners.rows = p.listeners.rows.map PortalListener.start :=
  Table.rows_foldl_change_of_perm (·.name_start) hnames

lemma rows_stopListening {names : List String} (hnames : names.Perm p.listeners.keys) :
    (p.stopListening names).listeners.rows = p.listeners.rows.map PortalListener.stop :=
  Table.rows_foldl_change_of_perm (·.name_stop) hnames

lemma running_after (hrunning : l.listener.running = true) (hpos : 0 < l.listener.accepts)
    (hstop : e ≠ .stop l.listener.name) :
    (l.after e).listener.running = true ∧ 0 < (l.after e).listener.accepts := by
  unfold PortalListener.after
  split
  · split_ifs
    · obtain ⟨hattends, hstarted⟩ := Listener.Attends.start (l := l.listener) fun _ => hpos
      exact ⟨hstarted, hattends hstarted⟩
    · exact ⟨hrunning, hpos⟩
  · next name =>
      split_ifs with hname
      · exact absurd (hname ▸ rfl) hstop
      · exact ⟨hrunning, hpos⟩
  · split_ifs
    · obtain ⟨hattends, hsame⟩ := Listener.attends_accepted l.listener
      exact ⟨hsame.trans hrunning, hattends (hsame.trans hrunning)⟩
    · exact ⟨hrunning, hpos⟩
  · exact ⟨hrunning, hpos⟩

/-- **Listening lasts**: after a call of `startListening` every listener is running and has an
accept outstanding, whatever happens, until it is stopped. -/
theorem startListening_lasts (addresses : List String)
    (sslContexts : Table fun e : String × SslContext => e.1) (onConnectCB : Bool)
    (tr : List (Event × Portal)) (h : Run Step (new addresses sslContexts onConnectCB) tr)
    (names : List String)
    (hnames : names.Perm (final (new addresses sslContexts onConnectCB) tr).listeners.keys)
    (tr' : List (Event × Portal))
    (h' : Run Step ((final (new addresses sslContexts onConnectCB) tr).startListening names) tr')
    (name : String) (hname : name ∈ names) (hstop : .stop name ∉ events tr') :
    ∃ l, (final ((final (new addresses sslContexts onConnectCB) tr).startListening names)
        tr').listeners.find? name = some l ∧
      l.listener.running = true ∧ 0 < l.listener.accepts := by
  refine (h'.restrict_events (P := fun e => e ≠ .stop name) fun e he heq =>
    hstop (heq ▸ he)).invariant (I := fun p => ∃ l, p.listeners.find? name = some l ∧
      l.listener.running = true ∧ 0 < l.listener.accepts) ?_ ?_
  · rintro p e q ⟨l, hl, hrunning, hpos⟩ ⟨hstep, he⟩
    obtain ⟨-, rfl⟩ := Table.find?_eq_some_iff.mp hl
    exact ⟨l.after e, find?_after hstep hl, running_after hrunning hpos he⟩
  · obtain ⟨l, hl, rfl⟩ := List.mem_map.mp (hnames.mem_iff.mp hname)
    obtain ⟨hattends, hstarted⟩ := Listener.Attends.start (attentive_run h l hl).1
    refine ⟨l.start, Table.find?_eq_some_iff.mpr ⟨?_, l.name_start⟩, hstarted, hattends hstarted⟩
    rw [rows_startListening hnames]
    exact List.mem_map_of_mem hl

/-- Two listeners are started, and one of them takes a connection. -/
theorem two_listeners_listen : ∃ tr tr' : List (Event × Portal), Run Step plain tr ∧
    Run Step ((final plain tr).startListening ["other", "testing"]) tr' ∧
    events tr' = [.accept "other" false] ∧
    ∃ l, (final ((final plain tr).startListening ["other", "testing"])
        tr').listeners.find? "other" = some l ∧
      l.listener.running = true ∧ 0 < l.listener.accepts := by
  have hrun : Run Step plain [(.registerListener "testing" "mine" .telnet none none, _),
      (.registerListener "other" "mine" .webSocket none none, _)] := .cons rfl (.cons rfl (.nil _))
  refine ⟨_, [(.accept "other" false, _)], hrun, .cons ⟨_, rfl, by decide, rfl⟩ (.nil _), rfl, ?_⟩
  exact startListening_lasts ["mine"] Table.empty true _ hrun ["other", "testing"] (by decide)
    [(.accept "other" false, _)] (.cons ⟨_, rfl, by decide, rfl⟩ (.nil _)) "other" (by decide)
    (by simp)

/-- An accept of the listener completes. -/
def Event.completes (name : String) : Event → Bool
  | .accept n _ => n = name
  | _ => false

lemma stopped_after (hrunning : l.listener.running = false)
    (hpos : ∀ failed, e = .accept l.listener.name failed → 0 < l.listener.accepts)
    (hstart : e ≠ .start l.listener.name) :
    (l.after e).listener.running = false ∧ (l.after e).listener.accepts +
      (if e.completes l.listener.name then 1 else 0) = l.listener.accepts := by
  cases e with
  | start name =>
      rw [PortalListener.after, if_neg fun hname => hstart (congrArg Event.start hname.symm)]
      exact ⟨hrunning, rfl⟩
  | stop name =>
      have hsame : l.stop = l := by
        obtain ⟨listener, context, sslName, agrees⟩ := l
        have hkept : listener.stop = listener :=
          if_neg (by rw [show listener.running = false from hrunning]; exact Bool.false_ne_true)
        simp only [PortalListener.stop, hkept]
      rw [PortalListener.after, hsame, ite_self]
      exact ⟨hrunning, rfl⟩
  | accept name failed =>
      rw [PortalListener.after]
      by_cases hname : l.listener.name = name
      · have hcompletes : Event.completes l.listener.name (.accept name failed) = true :=
          decide_eq_true hname.symm
        have hdone : l.listener.accepted =
            { l.listener with accepts := l.listener.accepts - 1 } :=
          if_neg (by rw [hrunning]; exact Bool.false_ne_true)
        have hleft := hpos failed (by rw [hname])
        rw [if_pos hname, hcompletes, if_pos rfl]
        show l.listener.accepted.running = false ∧ l.listener.accepted.accepts + 1 = _
        rw [hdone]
        exact ⟨hrunning, Nat.sub_add_cancel hleft⟩
      · have hcompletes : Event.completes l.listener.name (.accept name failed) = false :=
          decide_eq_false (Ne.symm hname)
        rw [if_neg hname, hcompletes, if_neg Bool.false_ne_true]
        exact ⟨hrunning, rfl⟩
  | _ => exact ⟨hrunning, rfl⟩

lemma stopped_run {name : String} {tr : List (Event × Portal)} (h : Run Step p tr)
    (hl : p.listeners.find? name = some l) (hrunning : l.listener.running = false)
    (hstart : .start name ∉ events tr) :
    ∃ l', (final p tr).listeners.find? name = some l' ∧ l'.listener.running = false ∧
      l'.listener.accepts + (events tr).countP (Event.completes name) = l.listener.accepts := by
  induction h generalizing l with
  | nil p => exact ⟨l, hl, hrunning, rfl⟩
  | @cons p q e tr hstep _ ih =>
      rw [events_cons, List.mem_cons, not_or] at hstart
      obtain ⟨hmem, rfl⟩ := Table.find?_eq_some_iff.mp hl
      obtain ⟨hstopped, hcount⟩ := stopped_after hrunning
        (fun failed he => accepts_pos hstep hmem he) (Ne.symm hstart.1)
      obtain ⟨l', hl', hrunning', hcount'⟩ := ih (find?_after hstep hl) hstopped hstart.2
      refine ⟨l', hl', hrunning', ?_⟩
      rw [events_cons, List.countP_cons]
      dsimp only
      omega

/-- **Stopping drains**: after a call of `stopListening`, in any state, every accept of a listener
that completes is one that was outstanding then, until the listener is started. -/
theorem stopListening_drains (p : Portal) (names : List String)
    (hnames : names.Perm p.listeners.keys) (tr : List (Event × Portal))
    (h : Run Step (p.stopListening names) tr) (l : PortalListener) (hl : l ∈ p.listeners.rows)
    (hstart : .start l.listener.name ∉ events tr) :
    ∃ l', (final (p.stopListening names) tr).listeners.find? l.listener.name = some l' ∧
      l'.listener.running = false ∧
      l'.listener.accepts + (events tr).countP (Event.completes l.listener.name) =
        l.listener.accepts := by
  have hfind : (p.stopListening names).listeners.find? l.listener.name = some l.stop := by
    refine Table.find?_eq_some_iff.mpr ⟨?_, l.name_stop⟩
    rw [rows_stopListening hnames]
    exact List.mem_map_of_mem hl
  have hstopped : l.stop.listener.running = false ∧
      l.stop.listener.accepts = l.listener.accepts := by
    show l.listener.stop.running = false ∧ l.listener.stop.accepts = l.listener.accepts
    unfold Listener.stop
    split_ifs with hrunning
    · exact ⟨rfl, rfl⟩
    · exact ⟨by simpa using hrunning, rfl⟩
  rw [← hstopped.2]
  exact stopped_run h hfind hstopped.1 hstart

/-- A portal with one listener, which is running. -/
def listening : Portal :=
  { plain with
    listeners := Table.empty.insert (PortalListener.new "testing" .telnet none none none).start }

/-- The accept that is left completes after the listener is stopped, and is the last. -/
theorem last_accept_drains : ∃ tr : List (Event × Portal),
    Run Step (listening.stopListening ["testing"]) tr ∧ events tr = [.accept "testing" false] ∧
    ∃ l, (final (listening.stopListening ["testing"]) tr).listeners.find? "testing" = some l ∧
      l.listener.running = false ∧ l.listener.accepts = 0 := by
  have hrun : Run Step (listening.stopListening ["testing"]) [(.accept "testing" false, _)] :=
    .cons ⟨_, rfl, by decide, rfl⟩ (.nil _)
  obtain ⟨l, hl, hrunning, hcount⟩ :=
    stopListening_drains listening ["testing"] (by decide) _ hrun _ List.mem_cons_self (by simp)
  exact ⟨_, hrun, rfl, l, hl, hrunning, Nat.succ_injective hcount⟩

end Portal

end ForgeMush
