import ForgeMush.Isolation
import ForgeMush.Numbering

/-!
What the maps of a portal do hold.

Nothing is ever taken out of them, so that `pending` is the list of all that was ever accepted and
`connections` of all that was ever ready, as long as the ids last. Only a Telnet connection becomes
ready. A WebSocket connection is set up and then left alone.
-/

namespace ForgeMush

open Runs

namespace AnyConnection

variable {a b : AnyConnection} {e : Event}

lemma started_step (h : Step a e b) (ha : a.started = true) : b.started = true := by
  rcases step_cases h with ⟨c, k, d, rfl, rfl, rfl, hcd⟩ | ⟨c, k, d, rfl, rfl, rfl, -⟩
  · exact (TelnetMudConnection.started_step_iff hcd).mpr (Or.inl ha)
  · cases ha

lemma started_onConnect_new (type : MudConnectionType) (connId : UInt32)
    (isTLS hasConnectCB : Bool) :
    (new type connId isTLS hasConnectCB).onConnect.started = false := by
  cases type with
  | telnet => exact (TelnetMudConnection.onConnect_new connId isTLS hasConnectCB).2.1
  | webSocket => rfl

end AnyConnection

namespace Portal

/-- The connection `i` has become ready. -/
def Ready (p : Portal) (i : ℕ) : Prop :=
  ∃ a, p.heap[i]? = some a ∧ a.connection.started = true

/-- `connections` has the ready connections and no others, under their ids. -/
def ListsReady (p : Portal) : Prop :=
  ∀ e : UInt32 × ℕ, e ∈ p.connections.rows ↔ e.1 = UInt32.ofNat e.2 ∧ p.Ready e.2

variable {p q : Portal} {e : Event}

lemma ListsReady.listeners (h : p.ListsReady)
    (t : Table fun l : PortalListener => l.listener.name) :
    ListsReady { p with listeners := t } := h

lemma ListsReady.accept (h : p.ListsReady) (l : PortalListener) : ListsReady (p.accept l) := by
  intro e
  have hready : (p.accept l).Ready e.2 ↔ p.Ready e.2 := by
    constructor
    · rintro ⟨a, ha, hstarted⟩
      rcases getElem?_concat_cases ha with ha | ⟨-, rfl⟩
      · exact ⟨a, ha, hstarted⟩
      · rw [AnyConnection.started_onConnect_new] at hstarted
        cases hstarted
    · rintro ⟨a, ha, hstarted⟩
      obtain ⟨hlt, -⟩ := List.getElem?_eq_some_iff.mp ha
      exact ⟨a, (List.getElem?_append_left hlt).trans ha, hstarted⟩
  rw [hready]
  exact h e

lemma ready_update {i : ℕ} {a : Accepted} {d : AnyConnection} (ha : p.heap[i]? = some a) (j : ℕ) :
    (p.update i a d).Ready j ↔ if j = i then d.started = true else p.Ready j := by
  obtain ⟨t, ht⟩ := p.update_eq i a d
  obtain ⟨hlt, -⟩ := List.getElem?_eq_some_iff.mp ha
  rw [ht]
  unfold Ready
  split_ifs with hj
  · rw [hj, List.getElem?_set_self hlt]
    simp
  · rw [List.getElem?_set_ne (Ne.symm hj)]

lemma ListsReady.update (h : p.ListsReady) (hp : p.Numbered) {i : ℕ} {a : Accepted}
    {k : AnyConnection.Event} {d : AnyConnection} (ha : p.heap[i]? = some a)
    (hstep : a.connection.Step k d) : ListsReady (p.update i a d) := by
  obtain ⟨hlt, -⟩ := List.getElem?_eq_some_iff.mp ha
  have hid : d.base.connId = UInt32.ofNat i :=
    (AnyConnection.connId_step hstep).trans (hp.ids i a ha)
  have hi : p.Ready i ↔ a.connection.started = true := by
    simp [Ready, ha]
  rintro ⟨id, j⟩
  rw [ready_update ha j]
  by_cases hnew : (!a.connection.started && d.started) = true
  · -- the connection becomes ready, and its entry is put in beside the others
    have hstarted : d.started = true := (Bool.and_eq_true_iff.mp hnew).2
    have hinsert : (p.update i a d).connections = p.connections.insert (UInt32.ofNat i, i) := by
      rw [Portal.update, if_pos hnew, hid]
    rw [hinsert]
    split_ifs with hj
    · subst hj
      constructor
      · intro he
        rcases Table.mem_insert.mp he with heq | ⟨he, -⟩
        · exact ⟨congrArg Prod.fst heq, hstarted⟩
        · exact ⟨((h _).mp he).1, hstarted⟩
      · intro he
        exact Table.mem_insert.mpr (Or.inl (Prod.ext he.1 rfl))
    · rw [← h (id, j)]
      constructor
      · intro he
        rcases Table.mem_insert.mp he with heq | ⟨he, -⟩
        · exact absurd (congrArg Prod.snd heq) hj
        · exact he
      · exact fun he => mem_insert_number hlt hp.room hp.connections he
  · have hsame : (p.update i a d).connections = p.connections := by
      rw [Portal.update, if_neg hnew]
    have hstarted : d.started = true ↔ a.connection.started = true := by
      refine ⟨fun hd => ?_, AnyConnection.started_step hstep⟩
      by_contra ha'
      exact hnew (by rw [hd, Bool.eq_false_iff.mpr ha']; rfl)
    rw [hsame, h (id, j), hstarted, ← hi]
    split_ifs with hj
    · rw [hj]
    · rfl

lemma ListsReady.step (h : p.ListsReady) (hp : p.Numbered) (hstep : Step p e q) :
    q.ListsReady := by
  cases e with
  | registerListener name address type sslName memory =>
      obtain rfl := hstep
      split
      · next q hq =>
          obtain ⟨con, rfl⟩ := registerListener_ok hq
          exact h.listeners _
      · exact h
  | start name | stop name =>
      obtain ⟨l, -, rfl⟩ := hstep
      exact h.listeners _
  | accept name failed =>
      obtain ⟨l, -, -, rfl⟩ := hstep
      cases failed with
      | true => exact h.listeners _
      | false => exact (h.accept l).listeners _
  | connection i k =>
      obtain ⟨a, d, ha, had, rfl⟩ := hstep
      exact h.update hp ha had

lemma listsReady_run {addresses : List String}
    {sslContexts : Table fun e : String × SslContext => e.1} {onConnectCB : Bool}
    {tr : List (Event × Portal)} (h : Run Step (new addresses sslContexts onConnectCB) tr)
    (haccepted : accepted tr ≤ UInt32.size) :
    Numbered (final (new addresses sslContexts onConnectCB) tr) ∧
      ListsReady (final (new addresses sslContexts onConnectCB) tr) := by
  have hinit := numbered_new addresses sslContexts onConnectCB
  have hroom := (allSteps_hasRoom_iff h hinit.room).mpr (by simpa [new] using haccepted)
  refine (h.restrict_steps hroom).invariant (I := fun p => p.Numbered ∧ p.ListsReady) ?_
    ⟨hinit, fun e => ?_⟩
  · rintro p e q ⟨hp, hlists⟩ ⟨hstep, hC⟩
    exact ⟨(hp.step hC hstep).1, hlists.step hp hstep⟩
  · simp [new, Table.empty, Ready]

lemma count_onConnectCB {addresses : List String}
    {sslContexts : Table fun e : String × SslContext => e.1} {onConnectCB : Bool}
    {tr : List (Event × Portal)} (h : Run Step (new addresses sslContexts onConnectCB) tr)
    {i : ℕ} {a : Accepted} {c : TelnetMudConnection}
    (ha : (final (new addresses sslContexts onConnectCB) tr).heap[i]? = some a)
    (hc : a.connection = .telnet c) :
    c.callbacks.count .onConnectCB = if c.started && onConnectCB then 1 else 0 := by
  obtain ⟨isTLS, tr', hrun, rfl, -⟩ := telnet_run h ha hc
  rw [(TelnetMudConnection.served_run _ isTLS onConnectCB [] hrun).callbacks,
    TelnetMudConnection.callbacksFor]
  cases TelnetMudConnection.started _ with
  | false => rfl
  | true =>
      cases onConnectCB with
      | false => rfl
      | true =>
          have hlines : ∀ lines : List Bytes,
              (lines.map fun line => Call.onCommandCB (trim line)).count .onConnectCB = 0 := by
            intro lines
            rw [List.count_eq_zero]
            intro hmem
            obtain ⟨line, -, hline⟩ := List.mem_map.mp hmem
            cases hline
          rw [if_pos rfl, if_pos rfl, List.count_cons_of_ne (by decide), List.count_cons_self,
            hlines]
          rfl

/-- `pending` has every connection ever accepted, `connections` every one ever ready, and the
callback of the portal has been called for those alone, and once for each. -/
structure Roster (onConnectCB : Bool) (p : Portal) : Prop where
  pending : ∀ e : UInt32 × ℕ, e ∈ p.pending.rows ↔ e.2 < p.heap.length ∧ e.1 = UInt32.ofNat e.2
  connections : p.ListsReady
  announced : ∀ (i : ℕ) (a : Accepted) (c : TelnetMudConnection), p.heap[i]? = some a →
    a.connection = .telnet c →
    c.callbacks.count .onConnectCB = if c.started && onConnectCB then 1 else 0

/-- **The roster of a portal** is right in every state that is reached while the ids last. -/
theorem roster_of_run (addresses : List String)
    (sslContexts : Table fun e : String × SslContext => e.1) (onConnectCB : Bool)
    (tr : List (Event × Portal)) (h : Run Step (new addresses sslContexts onConnectCB) tr)
    (haccepted : accepted tr ≤ UInt32.size) :
    Roster onConnectCB (final (new addresses sslContexts onConnectCB) tr) := by
  obtain ⟨hnumbered, hlists⟩ := listsReady_run h haccepted
  exact ⟨hnumbered.pending, hlists, fun _ _ _ ha hc => count_onConnectCB h ha hc⟩

/-- Two connections are accepted and the second becomes ready. -/
theorem second_connection_listed : ∃ tr : List (Event × Portal), Run Step plain tr ∧
    (events tr).drop 2 = [.accept "testing" false, .accept "testing" false,
      .connection 1 (.telnet .timer)] ∧
    ((1, 1) : UInt32 × ℕ) ∈ (final plain tr).connections.rows ∧
    ((0, 0) : UInt32 × ℕ) ∉ (final plain tr).connections.rows := by
  have hrun : Run Step plain [(.registerListener "testing" "mine" .telnet none none, _),
      (.start "testing", _), (.accept "testing" false, _), (.accept "testing" false, _),
      (.connection 1 (.telnet .timer), _)] :=
    .cons rfl (.cons ⟨_, rfl, rfl⟩ (.cons ⟨_, rfl, by decide, rfl⟩
      (.cons ⟨_, rfl, by decide, rfl⟩
      (.cons ⟨_, .telnet _, rfl, ⟨by decide, rfl⟩, rfl⟩ (.nil _)))))
  have hlists := (roster_of_run ["mine"] Table.empty true _ hrun (by decide)).connections
  refine ⟨_, hrun, rfl, (hlists _).mpr ⟨rfl, _, rfl, rfl⟩, fun hmem => ?_⟩
  obtain ⟨-, a, ha, hstarted⟩ := (hlists _).mp hmem
  cases ha
  cases hstarted

end Portal

/-! ### WebSocket connections -/

namespace WebSocketMudConnection

/-- Nothing is read or written, and the operation outstanding, if there is one, is the one that the
connection has come to. -/
structure Idle (c : WebSocketMudConnection) : Prop where
  inbox : c.inbox = []
  outbox : c.outbox = []
  isWriting : c.isWriting = false
  onCommandCB : c.onCommandCB = false
  operations : c.handshakes + c.accepts ≤ 1
  securing : 0 < c.handshakes → c.wsock = false
  accepting : 0 < c.accepts → c.wsock = true

variable {c d : WebSocketMudConnection} {e : Event}

lemma idle_onConnect (connId : UInt32) (isTLS hasConnectCB : Bool) :
    (new connId isTLS hasConnectCB).onConnect.Idle := by
  cases isTLS with
  | true => exact ⟨rfl, rfl, rfl, rfl, le_rfl, fun _ => rfl, fun h => absurd h (Nat.lt_irrefl 0)⟩
  | false => exact ⟨rfl, rfl, rfl, rfl, le_rfl, fun h => absurd h (Nat.lt_irrefl 0), fun _ => rfl⟩

lemma Idle.step (h : c.Idle) (hstep : Step c e d) : d.Idle := by
  have hoperations := h.operations
  cases e with
  | send =>
      obtain rfl := hstep
      have hsame : c.send = c := by
        rw [WebSocketMudConnection.send, h.outbox]
        split_ifs with _ hpos
        · exact absurd hpos (Nat.lt_irrefl 0)
        · rfl
        · rfl
      rwa [hsame]
  | handshake failed =>
      obtain ⟨hpos, rfl⟩ := hstep
      cases failed with
      | true =>
          refine ⟨h.inbox, h.outbox, h.isWriting, h.onCommandCB, ?_, fun _ => h.securing hpos,
            h.accepting⟩
          show c.handshakes - 1 + c.accepts ≤ 1
          omega
      | false =>
          refine ⟨h.inbox, h.outbox, h.isWriting, h.onCommandCB, ?_, fun hleft => ?_, fun _ => rfl⟩
          · show c.handshakes - 1 + (c.accepts + 1) ≤ 1
            omega
          · have hnone : c.handshakes - 1 = 0 := by omega
            exact absurd hleft (by rw [hnone]; exact Nat.lt_irrefl 0)
  | accepted failed =>
      obtain ⟨hpos, rfl⟩ := hstep
      have hdone : Idle { c with accepts := c.accepts - 1 } := by
        refine ⟨h.inbox, h.outbox, h.isWriting, h.onCommandCB, ?_, h.securing,
          fun _ => h.accepting hpos⟩
        show c.handshakes + (c.accepts - 1) ≤ 1
        omega
      cases failed with
      | true => exact hdone
      | false => exact hdone

end WebSocketMudConnection

namespace Portal

variable {p q : Portal} {e : Event} {tr : List (Event × Portal)}

/-- What is in `connections` is ready, also when the ids have run out. -/
lemma connections_ready_step (h : ∀ e ∈ p.connections.rows, p.Ready e.2) (hstep : Step p e q) :
    ∀ e ∈ q.connections.rows, q.Ready e.2 := by
  cases e with
  | registerListener name address type sslName memory =>
      obtain rfl := hstep
      split
      · next q hq =>
          obtain ⟨con, rfl⟩ := registerListener_ok hq
          exact h
      · exact h
  | start name | stop name =>
      obtain ⟨l, -, rfl⟩ := hstep
      exact h
  | accept name failed =>
      obtain ⟨l, -, -, rfl⟩ := hstep
      cases failed with
      | true => exact h
      | false =>
          intro e he
          obtain ⟨a, ha, hstarted⟩ := h e he
          obtain ⟨hlt, -⟩ := List.getElem?_eq_some_iff.mp ha
          exact ⟨a, (List.getElem?_append_left hlt).trans ha, hstarted⟩
  | connection i k =>
      obtain ⟨a, d, ha, had, rfl⟩ := hstep
      have hold : ∀ j, p.Ready j → (p.update i a d).Ready j := by
        intro j hj
        rw [ready_update ha j]
        split_ifs with hij
        · obtain ⟨b, hb, hstarted⟩ := hj
          rw [hij, ha] at hb
          cases hb
          exact AnyConnection.started_step had hstarted
        · exact hj
      intro e he
      by_cases hnew : (!a.connection.started && d.started) = true
      · rw [Portal.update, if_pos hnew] at he
        rcases Table.mem_insert.mp he with rfl | ⟨he, -⟩
        · rw [ready_update ha i, if_pos rfl]
          exact (Bool.and_eq_true_iff.mp hnew).2
        · exact hold _ (h e he)
      · rw [Portal.update, if_neg hnew] at he
        exact hold _ (h e he)

/-- **A WebSocket connection is never served**: in every state that a portal reaches nothing has
been read from it and nothing is to be written to it, it waits for one operation at most, and it is
not among the connections that are ready. -/
theorem webSocket_idle (addresses : List String)
    (sslContexts : Table fun e : String × SslContext => e.1) (onConnectCB : Bool)
    (tr : List (Event × Portal)) (h : Run Step (new addresses sslContexts onConnectCB) tr)
    (i : ℕ) (a : Accepted) (c : WebSocketMudConnection)
    (ha : (final (new addresses sslContexts onConnectCB) tr).heap[i]? = some a)
    (hc : a.connection = .webSocket c) :
    c.Idle ∧
      ∀ id, (id, i) ∉ (final (new addresses sslContexts onConnectCB) tr).connections.rows := by
  constructor
  · have hall := (composed onConnectCB).invariant (I := fun a => ∀ c, a = .webSocket c → c.Idle)
      ?_ ?_ (run_composed h (counts_new addresses sslContexts onConnectCB)) (by simp [made, new])
    · exact hall a.connection (List.mem_map_of_mem (List.mem_of_getElem? ha)) c hc
    · rintro j b ⟨type, isTLS, rfl⟩ c hc
      cases type with
      | telnet => cases hc
      | webSocket =>
          cases hc
          exact WebSocketMudConnection.idle_onConnect _ isTLS onConnectCB
    · rintro b k b' hb hstep c rfl
      rcases AnyConnection.step_cases hstep with
        ⟨_, _, _, _, _, hd, -⟩ | ⟨d, k', d', rfl, -, hd, hdd⟩
      · cases hd
      · cases hd
        exact (hb d rfl).step hdd
  · have hready := h.invariant (I := fun p => ∀ e ∈ p.connections.rows, p.Ready e.2)
      (fun _ _ _ hs hstep => connections_ready_step hs hstep) (by simp [new, Table.empty])
    intro id hmem
    obtain ⟨b, hb, hstarted⟩ := hready _ hmem
    rw [ha, Option.some.injEq] at hb
    rw [← hb, hc] at hstarted
    cases hstarted

/-- A WebSocket client connects and its opening handshake is accepted. -/
theorem accepted_webSocket_idle : ∃ tr : List (Event × Portal), Run Step plain tr ∧
    (events tr).drop 2 = [.accept "testing" false, .connection 0 (.webSocket (.accepted false))] ∧
    ∃ c, (final plain tr).made = [.webSocket c] ∧ c.wsock = true ∧ c.Idle := by
  have hrun : Run Step plain [(.registerListener "testing" "mine" .webSocket none none, _),
      (.start "testing", _), (.accept "testing" false, _),
      (.connection 0 (.webSocket (.accepted false)), _)] :=
    .cons rfl (.cons ⟨_, rfl, rfl⟩ (.cons ⟨_, rfl, by decide, rfl⟩
      (.cons ⟨_, .webSocket _, rfl, ⟨by decide, rfl⟩, rfl⟩ (.nil _))))
  obtain ⟨hidle, -⟩ := webSocket_idle ["mine"] Table.empty true _ hrun 0 _ _ rfl rfl
  exact ⟨_, hrun, rfl, _, rfl, rfl, hidle⟩

end Portal

end ForgeMush
