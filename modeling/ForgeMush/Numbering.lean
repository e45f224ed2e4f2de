import ForgeMush.Portal
import ForgeMush.Registry

/-!
The numbers that connections get.

`nextId` has 32 bits and wraps around, and `pending` keeps an entry for every connection that
was ever accepted, so the maps have room for `2 ^ 32` of them and for no more. The entry of the
next one takes the place of the first one's, which nothing checks.
-/

namespace ForgeMush

open Runs

namespace AnyConnection

@[simp] lemma base_new (type : MudConnectionType) (connId : UInt32) (isTLS hasConnectCB : Bool) :
    (new type connId isTLS hasConnectCB).base.connId = connId := by
  cases type <;> rfl

lemma connId_onConnect_new (type : MudConnectionType) (connId : UInt32)
    (isTLS hasConnectCB : Bool) :
    (new type connId isTLS hasConnectCB).onConnect.base.connId = connId := by
  cases type with
  | telnet => exact (TelnetMudConnection.onConnect_new connId isTLS hasConnectCB).1
  | webSocket => cases isTLS <;> rfl

lemma connId_step {a b : AnyConnection} {e : Event} (h : Step a e b) :
    b.base.connId = a.base.connId := by
  rcases step_cases h with ⟨c, k, d, rfl, rfl, rfl, hcd⟩ | ⟨c, k, d, rfl, rfl, rfl, hcd⟩
  · exact (TelnetMudConnection.identity_step hcd).1
  · cases k with
    | send =>
        rw [WebSocketMudConnection.Step] at hcd
        rw [hcd, WebSocketMudConnection.send]
        split_ifs <;> rfl
    | handshake failed =>
        obtain ⟨-, rfl⟩ := hcd
        cases failed <;> rfl
    | accepted failed =>
        obtain ⟨-, rfl⟩ := hcd
        cases failed <;> rfl

end AnyConnection

namespace Portal

/-- The connection is in one of the maps, under whatever key. -/
def Holds (p : Portal) (i : ℕ) : Prop :=
  ∃ id, (id, i) ∈ p.pending.rows ∨ (id, i) ∈ p.connections.rows

/-- No two connections in the maps have the same id. -/
def IdsUnshared (p : Portal) : Prop :=
  ∀ i j a b, p.Holds i → p.Holds j → p.heap[i]? = some a → p.heap[j]? = some b →
    a.connection.base.connId = b.connection.base.connId → i = j

/-- No entry of the two maps is overwritten by another connection's. -/
def KeepsEntries (p q : Portal) : Prop :=
  (∀ e ∈ p.pending.rows, e ∈ q.pending.rows) ∧ ∀ e ∈ p.connections.rows, e ∈ q.connections.rows

/-- A connection is accepted. -/
def Event.accepts : Event → Bool
  | .accept _ failed => !failed
  | _ => false

/-- The number of connections accepted in a run. -/
def accepted (tr : List (Event × Portal)) : ℕ := (events tr).countP Event.accepts

/-- There is an id left for a connection to be accepted. -/
def HasRoom (p : Portal) (e : Event) : Prop := e.accepts = true → p.heap.length < UInt32.size

/-- The `n`-th connection has the id `n`, and the maps have it under this id. -/
structure Numbered (p : Portal) : Prop where
  room : p.heap.length ≤ UInt32.size
  ids : ∀ i a, p.heap[i]? = some a → a.connection.base.connId = UInt32.ofNat i
  nextId : p.nextId = UInt32.ofNat p.heap.length
  pending : ∀ e : UInt32 × ℕ, e ∈ p.pending.rows ↔
    e.2 < p.heap.length ∧ e.1 = UInt32.ofNat e.2
  connections : ∀ e ∈ p.connections.rows, e.2 < p.heap.length ∧ e.1 = UInt32.ofNat e.2

lemma Numbered.idsUnshared {p : Portal} (h : p.Numbered) : p.IdsUnshared := by
  intro i j a b _ _ ha hb hid
  obtain ⟨hi, -⟩ := List.getElem?_eq_some_iff.mp ha
  obtain ⟨hj, -⟩ := List.getElem?_eq_some_iff.mp hb
  rw [h.ids i a ha, h.ids j b hb] at hid
  exact ofNat_injective (hi.trans_le h.room) (hj.trans_le h.room) hid

lemma KeepsEntries.refl (p : Portal) : p.KeepsEntries p := ⟨fun _ he => he, fun _ he => he⟩

lemma Numbered.listeners {p : Portal} (h : p.Numbered)
    (t : Table fun l : PortalListener => l.listener.name) :
    Numbered { p with listeners := t } :=
  ⟨h.room, h.ids, h.nextId, h.pending, h.connections⟩

lemma Numbered.accept {p : Portal} (h : p.Numbered) (l : PortalListener)
    (hlen : p.heap.length < UInt32.size) :
    Numbered (p.accept l) ∧ p.KeepsEntries (p.accept l) := by
  have hpending : (p.accept l).pending =
      p.pending.insert (UInt32.ofNat p.heap.length, p.heap.length) := by
    simp [Portal.accept, h.nextId]
  have hlength : (p.accept l).heap.length = p.heap.length + 1 := by simp [Portal.accept]
  have hentries := mem_insert_next hlen h.pending
  refine ⟨⟨?_, fun i a ha => ?_, ?_, fun e => ?_, fun e he => ?_⟩, fun e he => ?_,
    fun e he => he⟩
  · rw [hlength]
    exact hlen
  · rcases getElem?_concat_cases ha with ha | ⟨rfl, rfl⟩
    · exact h.ids i a ha
    · rw [AnyConnection.connId_onConnect_new, h.nextId]
  · rw [hlength, Portal.accept, h.nextId]
    exact (UInt32.ofNat_add _ _).symm
  · rw [hpending, hlength]
    exact hentries e
  · obtain ⟨hlt, he⟩ := h.connections e he
    rw [hlength]
    exact ⟨hlt.trans (Nat.lt_succ_self _), he⟩
  · obtain ⟨hlt, hid⟩ := (h.pending e).mp he
    rw [hpending]
    exact (hentries e).mpr ⟨hlt.trans (Nat.lt_succ_self _), hid⟩

lemma Numbered.update {p : Portal} (h : p.Numbered) {i : ℕ} {a : Accepted} {d : AnyConnection}
    (ha : p.heap[i]? = some a) (hd : d.base.connId = a.connection.base.connId) :
    Numbered (p.update i a d) ∧ p.KeepsEntries (p.update i a d) := by
  obtain ⟨hlt, -⟩ := List.getElem?_eq_some_iff.mp ha
  have hid : d.base.connId = UInt32.ofNat i := hd.trans (h.ids i a ha)
  have hset : Numbered { p with heap := p.heap.set i { a with connection := d } } := by
    refine ⟨by simpa using h.room, fun j b hb => ?_, by simpa using h.nextId,
      by simpa using h.pending, by simpa using h.connections⟩
    rw [List.getElem?_set] at hb
    split_ifs at hb with hij
    · cases hb
      rw [← hij]
      exact hid
    · exact h.ids j b hb
  unfold Portal.update
  dsimp only
  split_ifs
  · refine ⟨⟨hset.room, hset.ids, hset.nextId, hset.pending, fun e he => ?_⟩,
      fun e he => he, fun e he => ?_⟩
    · rcases Table.mem_insert.mp he with rfl | ⟨he, -⟩
      · exact ⟨by simpa using hlt, hid⟩
      · exact hset.connections e he
    · show e ∈ (p.connections.insert (d.base.connId, i)).rows
      rw [hid]
      exact mem_insert_number hlt h.room h.connections he
  · exact ⟨hset, KeepsEntries.refl p⟩

lemma Numbered.onListeners {p : Portal} (h : p.Numbered)
    (t : Table fun l : PortalListener => l.listener.name) :
    Numbered { p with listeners := t } ∧ p.KeepsEntries { p with listeners := t } :=
  ⟨h.listeners t, KeepsEntries.refl p⟩

lemma Numbered.step {p q : Portal} {e : Event} (h : p.Numbered) (hroom : p.HasRoom e)
    (hstep : Step p e q) : q.Numbered ∧ p.KeepsEntries q := by
  cases e with
  | registerListener name address type sslName memory =>
      rw [Step] at hstep
      split at hstep
      · rename_i q' hq
        obtain ⟨con, rfl⟩ := registerListener_ok hq
        rw [hstep]
        exact h.onListeners _
      · rw [hstep]
        exact ⟨h, KeepsEntries.refl p⟩
  | start name =>
      obtain ⟨l, -, rfl⟩ := hstep
      exact h.onListeners _
  | stop name =>
      obtain ⟨l, -, rfl⟩ := hstep
      exact h.onListeners _
  | accept name failed =>
      obtain ⟨l, -, -, rfl⟩ := hstep
      cases failed with
      | true => exact h.onListeners _
      | false =>
          obtain ⟨haccept, hkeeps⟩ := h.accept l (hroom rfl)
          exact ⟨haccept.listeners _, hkeeps⟩
  | connection i e =>
      obtain ⟨a, d, ha, hmove, rfl⟩ := hstep
      exact h.update ha (AnyConnection.connId_step hmove)

/-- With no id left, the first connection loses its entry. -/
lemma Numbered.overwrites {p q : Portal} {e : Event} (h : p.Numbered) (hroom : ¬ p.HasRoom e)
    (hstep : Step p e q) : ¬ p.KeepsEntries q := by
  obtain ⟨haccepts, hfull⟩ : e.accepts = true ∧ ¬ p.heap.length < UInt32.size := by
    simpa [HasRoom] using hroom
  have hlen : p.heap.length = UInt32.size := le_antisymm h.room (not_lt.mp hfull)
  cases e with
  | accept name failed =>
      obtain ⟨l, -, -, rfl⟩ := hstep
      cases failed with
      | true => cases haccepts
      | false =>
          have hfirst : (UInt32.ofNat 0, 0) ∈ p.pending.rows := by
            rw [h.pending, hlen]
            exact ⟨by decide, rfl⟩
          have hnext : p.nextId = UInt32.ofNat 0 := by
            rw [h.nextId, hlen]
            rfl
          rintro ⟨hkeeps, -⟩
          have hmem : (UInt32.ofNat 0, 0) ∈
              (p.pending.insert (p.nextId, p.heap.length)).rows := by
            have := hkeeps _ hfirst
            simpa [onAccept, Portal.accept] using this
          rw [Table.mem_insert, hnext, hlen] at hmem
          rcases hmem with heq | ⟨-, hne⟩
          · exact absurd (congrArg Prod.snd heq) (by decide)
          · exact hne rfl
  | _ => cases haccepts

lemma heap_step {p q : Portal} {e : Event} (hstep : Step p e q) :
    q.heap.length = p.heap.length + if e.accepts then 1 else 0 := by
  cases e with
  | registerListener name address type sslName memory =>
      rw [Step] at hstep
      split at hstep
      · rename_i q' hq
        obtain ⟨con, rfl⟩ := registerListener_ok hq
        rw [hstep]
        rfl
      · rw [hstep]
        rfl
  | start name =>
      obtain ⟨l, -, rfl⟩ := hstep
      rfl
  | stop name =>
      obtain ⟨l, -, rfl⟩ := hstep
      rfl
  | accept name failed =>
      obtain ⟨l, -, -, rfl⟩ := hstep
      cases failed <;> simp [onAccept, accept, Event.accepts]
  | connection i e =>
      obtain ⟨a, d, -, -, rfl⟩ := hstep
      obtain ⟨t, ht⟩ := p.update_eq i a d
      rw [ht]
      simp [Event.accepts]

lemma allSteps_hasRoom_iff {p : Portal} {tr : List (Event × Portal)} (h : Run Step p tr)
    (hp : p.heap.length ≤ UInt32.size) :
    AllSteps HasRoom p tr ↔ p.heap.length + accepted tr ≤ UInt32.size := by
  induction h with
  | nil p => simpa [AllSteps, accepted] using hp
  | @cons p q e tr hstep _ ih =>
      have hlen := heap_step hstep
      have hcount : accepted ((e, q) :: tr) = accepted tr + if e.accepts then 1 else 0 := by
        simp [accepted, List.countP_cons]
      rw [AllSteps, HasRoom, hcount]
      cases haccepts : e.accepts with
      | false =>
          rw [haccepts] at hlen
          simp only [Bool.false_eq_true, if_false, Nat.add_zero] at hlen ⊢
          rw [ih (by omega), hlen]
          simp
      | true =>
          rw [haccepts] at hlen
          simp only [if_true] at hlen ⊢
          constructor
          · rintro ⟨hroom, hrest⟩
            have := (ih (by have := hroom trivial; omega)).mp hrest
            omega
          · intro hle
            exact ⟨fun _ => by omega, (ih (by omega)).mpr (by omega)⟩

lemma numbered_new (addresses : List String)
    (sslContexts : Table fun e : String × SslContext => e.1) (onConnectCB : Bool) :
    Numbered (new addresses sslContexts onConnectCB) :=
  ⟨by simp [new], by simp [new], rfl, by simp [new, Table.empty], by simp [new, Table.empty]⟩

lemma keepsEntries_iff_accepted {p : Portal} (hp : p.Numbered) {tr : List (Event × Portal)}
    (h : Run Step p tr) :
    Run (fun p _ q => p.KeepsEntries q) p tr ↔ p.heap.length + accepted tr ≤ UInt32.size := by
  rw [← allSteps_hasRoom_iff h hp.room]
  exact h.steps_iff_allSteps (fun _ _ _ hI hroom hstep => hI.step hroom hstep)
    (fun _ _ _ hI hroom hstep => hI.overwrites hroom hstep) hp

/-- **Ids are unshared**: in a run no two connections in the maps ever have one id, and no entry
is ever overwritten by another connection's, exactly if at most `2 ^ 32` connections are
accepted. -/
theorem idsUnshared_iff_accepted (addresses : List String)
    (sslContexts : Table fun e : String × SslContext => e.1) (onConnectCB : Bool)
    (tr : List (Event × Portal)) (h : Run Step (new addresses sslContexts onConnectCB) tr) :
    (Always IdsUnshared (new addresses sslContexts onConnectCB) tr ∧
      Run (fun p _ q => p.KeepsEntries q) (new addresses sslContexts onConnectCB) tr) ↔
      accepted tr ≤ UInt32.size := by
  have hinit := numbered_new addresses sslContexts onConnectCB
  have hlen : (new addresses sslContexts onConnectCB).heap.length + accepted tr =
      accepted tr := by simp [new]
  have hiff := keepsEntries_iff_accepted hinit h
  rw [hlen] at hiff
  refine ⟨fun hboth => hiff.mp hboth.2, fun hle => ⟨?_, hiff.mpr hle⟩⟩
  have hroom := (allSteps_hasRoom_iff h hinit.room).mpr (hlen.symm ▸ hle)
  have hnumbered : Always Numbered (new addresses sslContexts onConnectCB) tr :=
    h.always_of_allSteps (fun _ _ _ hI hC hstep => (hI.step hC hstep).1) hroom hinit
  exact hnumbered.mono fun _ => Numbered.idsUnshared

lemma exists_accepts (n : ℕ) {p : Portal} {l : PortalListener}
    (hl : p.listeners.find? l.listener.name = some l) (hrunning : l.listener.running = true)
    (haccepts : 0 < l.listener.accepts) :
    ∃ tr, events tr = List.replicate n (.accept l.listener.name false) ∧ Run Step p tr := by
  induction n generalizing p l with
  | zero => exact ⟨[], rfl, .nil p⟩
  | succ n ih =>
      have hkept : l.accepted.listener = l.listener := by
        show l.listener.accepted = l.listener
        rw [Listener.accepted]
        dsimp only
        rw [if_pos hrunning, Listener.listen]
        obtain ⟨⟨name, type, sslCon, running, accepts⟩, context, sslName, agrees⟩ := l
        simp only [Listener.mk.injEq, true_and]
        exact Nat.sub_add_cancel haccepts
      have hname : l.accepted.listener.name = l.listener.name := by rw [hkept]
      obtain ⟨tr, hevents, hrun⟩ := ih (p := p.onAccept l false) (l := l.accepted)
        (Table.find?_insert_self _ l.accepted) (hkept ▸ hrunning) (hkept ▸ haccepts)
      refine ⟨(.accept l.listener.name false, p.onAccept l false) :: tr, ?_,
        .cons ⟨l, hl, haccepts, rfl⟩ hrun⟩
      rw [events_cons, hevents, hname]
      rfl

/-- A listener is registered and started, and accepts `n` connections. -/
def clientEvents (n : ℕ) : List Event :=
  .registerListener "testing" "mine" .webSocket none none :: .start "testing" ::
    List.replicate n (.accept "testing" false)

lemma accepted_of_clientEvents {tr : List (Event × Portal)} {n : ℕ}
    (h : events tr = clientEvents n) : accepted tr = n := by
  rw [accepted, h, clientEvents, List.countP_cons, List.countP_cons, List.countP_replicate]
  rfl

lemma exists_clients (n : ℕ) : ∃ tr, events tr = clientEvents n ∧
    Run Step (new ["mine"] Table.empty true) tr := by
  obtain ⟨l, hnew⟩ : ∃ l, l = PortalListener.new "testing" .webSocket none none none := ⟨_, rfl⟩
  obtain ⟨p, hregister, hl⟩ : ∃ p, Step (new ["mine"] Table.empty true)
      (.registerListener "testing" "mine" .webSocket none none) p ∧
      p.listeners.find? "testing" = some l := ⟨_, rfl, by rw [hnew]; rfl⟩
  obtain ⟨q, hstart, hq⟩ : ∃ q, Step p (.start "testing") q ∧
      q.listeners = p.listeners.insert l.start := ⟨_, ⟨l, hl, rfl⟩, rfl⟩
  have hfound : q.listeners.find? l.start.listener.name = some l.start := by
    rw [hq]
    exact Table.find?_insert_self _ l.start
  obtain ⟨tr, hevents, hrun⟩ := exists_accepts n hfound (by rw [hnew]; rfl)
    (by rw [hnew]; exact Nat.one_pos)
  refine ⟨(_, p) :: (_, q) :: tr, ?_, .cons hregister (.cons hstart hrun)⟩
  rw [events_cons, events_cons, hevents, hnew]
  rfl

/-- Two connections have different ids. -/
theorem two_clients_unshared : ∃ tr : List (Event × Portal),
    events tr = clientEvents 2 ∧ Run Step (new ["mine"] Table.empty true) tr ∧
    Always IdsUnshared (new ["mine"] Table.empty true) tr ∧
    Run (fun p _ q => p.KeepsEntries q) (new ["mine"] Table.empty true) tr := by
  obtain ⟨tr, hevents, hrun⟩ := exists_clients 2
  refine ⟨tr, hevents, hrun, (idsUnshared_iff_accepted _ _ _ tr hrun).mpr ?_⟩
  rw [accepted_of_clientEvents hevents]
  decide

/-- Clients connect until the counter has wrapped around, and then one more does. -/
theorem first_client_overwritten : ∃ tr : List (Event × Portal),
    events tr = clientEvents (UInt32.size + 1) ∧ Run Step (new ["mine"] Table.empty true) tr ∧
    ¬ (Always IdsUnshared (new ["mine"] Table.empty true) tr ∧
      Run (fun p _ q => p.KeepsEntries q) (new ["mine"] Table.empty true) tr) := by
  obtain ⟨tr, hevents, hrun⟩ := exists_clients (UInt32.size + 1)
  refine ⟨tr, hevents, hrun, fun hboth => ?_⟩
  have hle := (keepsEntries_iff_accepted (numbered_new _ _ _) hrun).mp hboth.2
  rw [accepted_of_clientEvents hevents] at hle
  exact absurd hle (by decide)

end Portal

end ForgeMush
