import ForgeMush.Manager

/-!
Which connections are in `pending` and `connections`.

A connection enters `pending` when it is accepted and is never taken out, whether it becomes
ready or fails, and nothing stops the timer of one that has failed.
-/

namespace ForgeMush

open Runs

namespace TelnetMudConnection

variable {c d : TelnetMudConnection}

/-- The TLS handshake or the read loop ends in an error. -/
def Event.Fails : Event → Prop
  | .readError => True
  | .handshake failed => failed = true
  | _ => False

lemma keepsRegular_identity (k : UInt32) (b : Bool) :
    KeepsRegular fun c => c.connId = k ∧ c.lost = b where
  record _ _ _ h := h
  cmdbuff _ _ h := h
  options _ _ h := h
  sendNegotiate c _ _ h := by
    rw [TelnetMudConnection.sendNegotiate, send_eq]
    exact h
  message _ _ h := h
  inbox _ _ h := h
  send c h := by
    rw [send_eq]
    exact h
  operations _ _ _ _ _ h := h
  handshake _ _ _ h := h
  holders _ _ _ h := h
  finishReady := keeps_finishReady (fun _ _ _ h => h) fun _ _ _ h => h

lemma identity_step {e : Event} (hstep : Step c e d) :
    d.connId = c.connId ∧ (e.Fails → d.lost = true) ∧ (¬ e.Fails → d.lost = c.lost) := by
  have hregular : e.isRegular = true → d.connId = c.connId ∧ d.lost = c.lost := fun he =>
    (keepsRegular_identity c.connId c.lost).step he ⟨rfl, rfl⟩ hstep
  cases e with
  | written i failed len =>
      obtain ⟨buffer, -, -, -, rfl⟩ := hstep
      have hd : ∀ c : TelnetMudConnection, (c.sendHandler len).connId = c.connId ∧
          (c.sendHandler len).lost = c.lost := by
        intro c
        unfold sendHandler
        dsimp only
        rw [send_eq]
        split_ifs <;> exact ⟨rfl, rfl⟩
      exact ⟨(hd _).1, fun h => h.elim, fun _ => (hd _).2⟩
  | readError =>
      obtain ⟨-, rfl⟩ := hstep
      exact ⟨rfl, fun _ => rfl, fun h => absurd trivial h⟩
  | handshake failed =>
      cases failed with
      | true =>
          obtain ⟨-, rfl⟩ := hstep
          exact ⟨rfl, fun _ => rfl, fun h => absurd rfl h⟩
      | false =>
          have hd := hregular rfl
          exact ⟨hd.1, (fun h => by cases h), fun _ => hd.2⟩
  | _ => exact ⟨(hregular rfl).1, fun h => h.elim, fun _ => (hregular rfl).2⟩

lemma onConnect_new (connId : UInt32) (isTLS hasConnectCB : Bool) :
    (new connId isTLS hasConnectCB).onConnect.connId = connId ∧
      (new connId isTLS hasConnectCB).onConnect.started = false ∧
      (new connId isTLS hasConnectCB).onConnect.lost = false := by
  obtain ⟨hid, hlost⟩ :=
    (keepsRegular_identity connId false).toKeepsStart.onConnect
      (c := new connId isTLS hasConnectCB) ⟨rfl, rfl⟩
  exact ⟨hid, (keepsStart_started false).onConnect rfl, hlost⟩

end TelnetMudConnection

/-! ### Numbers as ids -/

lemma ofNat_injective {i j : ℕ} (hi : i < UInt32.size) (hj : j < UInt32.size)
    (h : UInt32.ofNat i = UInt32.ofNat j) : i = j := by
  have htoNat := congrArg UInt32.toNat h
  rwa [UInt32.toNat_ofNat_of_lt' hi, UInt32.toNat_ofNat_of_lt' hj] at htoNat

/-- Entries under their numbers keep out of each other's way while there is room. -/
lemma mem_insert_number {t : ConnectionMap} {n i : ℕ} (hi : i < n) (hn : n ≤ UInt32.size)
    (ht : ∀ e ∈ t.rows, e.2 < n ∧ e.1 = UInt32.ofNat e.2) {e : UInt32 × ℕ} (he : e ∈ t.rows) :
    e ∈ (t.insert (UInt32.ofNat i, i)).rows := by
  obtain ⟨hlt, hid⟩ := ht e he
  rw [Table.mem_insert]
  by_cases hei : e.2 = i
  · refine Or.inl (Prod.ext ?_ hei)
    rw [hid, hei]
  · refine Or.inr ⟨he, fun hkey => hei ?_⟩
    rw [hid] at hkey
    exact ofNat_injective (hlt.trans_le hn) (hi.trans_le hn) hkey

lemma mem_insert_next {t : ConnectionMap} {n : ℕ} (hn : n < UInt32.size)
    (ht : ∀ e, e ∈ t.rows ↔ e.2 < n ∧ e.1 = UInt32.ofNat e.2) (e : UInt32 × ℕ) :
    e ∈ (t.insert (UInt32.ofNat n, n)).rows ↔ e.2 < n + 1 ∧ e.1 = UInt32.ofNat e.2 := by
  constructor
  · intro he
    rcases Table.mem_insert.mp he with rfl | ⟨he, -⟩
    · exact ⟨Nat.lt_succ_self _, rfl⟩
    · obtain ⟨hlt, hid⟩ := (ht e).mp he
      exact ⟨hlt.trans (Nat.lt_succ_self _), hid⟩
  · rintro ⟨hlt, hid⟩
    by_cases hlast : e.2 = n
    · refine Table.mem_insert.mpr (Or.inl (Prod.ext ?_ hlast))
      rw [hid, hlast]
    · refine mem_insert_number (Nat.lt_succ_self n) hn (fun e he => ?_)
        ((ht e).mpr ⟨by omega, hid⟩)
      obtain ⟨hlt, hid⟩ := (ht e).mp he
      exact ⟨hlt.trans (Nat.lt_succ_self _), hid⟩

lemma getElem?_concat_cases {α : Type} {xs : List α} {a b : α} {i : ℕ}
    (h : (xs ++ [a])[i]? = some b) : xs[i]? = some b ∨ (i = xs.length ∧ b = a) := by
  rcases Nat.lt_trichotomy i xs.length with hi | rfl | hi
  · rw [List.getElem?_append_left hi] at h
    exact Or.inl h
  · rw [List.getElem?_concat_length] at h
    exact Or.inr ⟨rfl, (Option.some.inj h).symm⟩
  · rw [List.getElem?_eq_none (by simpa using Nat.succ_le_of_lt hi)] at h
    cases h

namespace MudNetworkManager

/-- The maps tell where every connection is, and none was announced after it had failed. -/
structure Registered (m : MudNetworkManager) : Prop where
  disjoint : ∀ id ∈ m.pending.keys, id ∉ m.connections.keys
  pending : ∀ i c, m.heap[i]? = some c →
    ((c.connId, i) ∈ m.pending.rows ↔ c.started = false ∧ c.lost = false)
  connections : ∀ i c, m.heap[i]? = some c →
    ((c.connId, i) ∈ m.connections.rows ↔ c.started = true ∧ c.lost = false)
  announced : ∀ c ∈ m.announced, c.lost = false

/-- The event makes no connection ready and is no failure of one. -/
def Waits (m : MudNetworkManager) : Event → Prop
  | .connection i e => ∀ c, m.heap[i]? = some c →
      (e.MakesReady c → c.started = true) ∧ ¬ e.Fails
  | _ => True

/-- Nothing has become ready or failed, and the `n`-th connection has the id `n`. -/
structure AllPending (m : MudNetworkManager) : Prop where
  heap : ∀ c ∈ m.heap, c.started = false ∧ c.lost = false
  ids : ∀ i c, m.heap[i]? = some c → c.connId = UInt32.ofNat i
  nextId : m.nextId = UInt32.ofNat m.heap.length
  pending : ∀ e : UInt32 × ℕ, e ∈ m.pending.rows ↔
    e.2 < m.heap.length ∧ e.1 = UInt32.ofNat e.2
  connections : m.connections.rows = []
  announced : m.announced = []

lemma AllPending.registered {m : MudNetworkManager} (h : AllPending m) : Registered m := by
  refine ⟨fun id _ => ?_, fun i c hc => ?_, fun i c hc => ?_, ?_⟩
  · simp [Table.keys, h.connections]
  · obtain ⟨hstarted, hlost⟩ := h.heap c (List.mem_of_getElem? hc)
    obtain ⟨hlt, -⟩ := List.getElem?_eq_some_iff.mp hc
    simp [h.pending, hstarted, hlost, hlt, h.ids i c hc]
  · obtain ⟨hstarted, -⟩ := h.heap c (List.mem_of_getElem? hc)
    simp [h.connections, hstarted]
  · simp [h.announced]

lemma AllPending.listeners {m : MudNetworkManager} (h : AllPending m)
    (t : Table Listener.name) : AllPending { m with listeners := t } :=
  ⟨h.heap, h.ids, h.nextId, h.pending, h.connections, h.announced⟩

lemma AllPending.accept {m : MudNetworkManager} (h : AllPending m) (l : Listener)
    (hlen : m.heap.length + 1 < UInt32.size) : AllPending (m.accept l) := by
  obtain ⟨hid, hstarted, hlost⟩ :=
    TelnetMudConnection.onConnect_new m.nextId l.sslCon m.onConnectCB
  refine ⟨fun c hc => ?_, fun i c hc => ?_, ?_, fun e => ?_, h.connections, h.announced⟩
  · rcases List.mem_append.mp hc with hc | hc
    · exact h.heap c hc
    · rw [List.mem_singleton.mp hc]
      exact ⟨hstarted, hlost⟩
  · rcases getElem?_concat_cases hc with hc | ⟨rfl, rfl⟩
    · exact h.ids i c hc
    · rw [hid, h.nextId]
  · show m.nextId + 1 = UInt32.ofNat (m.heap ++ [_]).length
    rw [h.nextId, List.length_append]
    exact (UInt32.ofNat_add _ _).symm
  · show e ∈ (m.pending.insert (m.nextId, m.heap.length)).rows ↔ _
    rw [h.nextId, mem_insert_next (by omega) h.pending]
    simp [MudNetworkManager.accept]

lemma AllPending.step {m m' : MudNetworkManager} {e : Event} (h : AllPending m)
    (hwaits : Waits m e) (hstep : Step m e m') (hlen : m'.heap.length < UInt32.size) :
    AllPending m' := by
  cases e with
  | start name =>
      obtain ⟨l, -, rfl⟩ := hstep
      exact h.listeners _
  | stop name =>
      obtain ⟨l, -, rfl⟩ := hstep
      exact h.listeners _
  | accept name failed =>
      obtain ⟨l, -, -, -, rfl⟩ := hstep
      cases failed with
      | true => exact h.listeners _
      | false =>
          refine (h.accept _ ?_).listeners _
          simpa [onAccept, MudNetworkManager.accept] using hlen
  | connection i e =>
      obtain ⟨c, d, hc, hcd, rfl⟩ := hstep
      obtain ⟨hready, hfails⟩ := hwaits c hc
      obtain ⟨hstarted, hlost⟩ := h.heap c (List.mem_of_getElem? hc)
      have hd : d.started = false ∧ d.lost = false := by
        refine ⟨?_, ((TelnetMudConnection.identity_step hcd).2.2 hfails).trans hlost⟩
        by_contra hs
        rw [Bool.not_eq_false, TelnetMudConnection.started_step_iff hcd] at hs
        have := hs.elim id hready
        simp [hstarted] at this
      have hupdate : m.update i c d = { m with heap := m.heap.set i d } := by
        simp [update, hd.1]
      rw [hupdate]
      refine ⟨fun c' hc' => ?_, fun j c' hc' => ?_, ?_, fun e => ?_, h.connections, h.announced⟩
      · rcases List.mem_or_eq_of_mem_set hc' with hc' | rfl
        · exact h.heap c' hc'
        · exact hd
      · rw [List.getElem?_set] at hc'
        split_ifs at hc' with hij hlt
        · cases hc'
          subst hij
          rw [(TelnetMudConnection.identity_step hcd).1]
          exact h.ids _ c hc
        · exact h.ids j c' hc'
      · simpa using h.nextId
      · simpa using h.pending e

/-- A connection that becomes ready or fails is still in `pending`. -/
lemma AllPending.not_registered {m m' : MudNetworkManager} {e : Event} (h : AllPending m)
    (hwaits : ¬ Waits m e) (hstep : Step m e m') : ¬ Registered m' := by
  cases e with
  | connection i e =>
      obtain ⟨c, d, hc, hcd, rfl⟩ := hstep
      obtain ⟨hlt, -⟩ := List.getElem?_eq_some_iff.mp hc
      have hd : ¬ (d.started = false ∧ d.lost = false) := by
        rintro ⟨hstarted, hlost⟩
        refine hwaits fun c' hc' => ?_
        rw [hc] at hc'
        cases hc'
        refine ⟨fun hready => ?_, fun hfails => ?_⟩
        · have := (TelnetMudConnection.started_step_iff hcd).mpr (Or.inr hready)
          simp [hstarted] at this
        · have := (TelnetMudConnection.identity_step hcd).2.1 hfails
          simp [hlost] at this
      have hheap : (m.update i c d).heap = m.heap.set i d ∧
          (m.update i c d).pending = m.pending := by
        unfold update onReady
        dsimp only
        split_ifs <;> exact ⟨rfl, rfl⟩
      intro hreg
      have hget : (m.update i c d).heap[i]? = some d := by
        rw [hheap.1]
        simp [hlt]
      refine hd ((hreg.pending i d hget).mp ?_)
      rw [hheap.2, h.pending, (TelnetMudConnection.identity_step hcd).1]
      exact ⟨hlt, h.ids i c hc⟩
  | _ => exact absurd trivial hwaits

/-- The number of connections accepted in a run. -/
def accepted (tr : List (Event × MudNetworkManager)) : ℕ := (events tr).countP Event.accepts

lemma heap_step {m m' : MudNetworkManager} {e : Event} (hstep : Step m e m') :
    m'.heap.length = m.heap.length + if e.accepts then 1 else 0 := by
  cases e with
  | start name =>
      obtain ⟨l, -, rfl⟩ := hstep
      rfl
  | stop name =>
      obtain ⟨l, -, rfl⟩ := hstep
      rfl
  | accept name failed =>
      obtain ⟨l, -, -, -, rfl⟩ := hstep
      cases failed <;> simp [onAccept, accept, Event.accepts]
  | connection i e =>
      obtain ⟨c, d, -, -, rfl⟩ := hstep
      unfold update onReady
      dsimp only
      split_ifs <;> simp [Event.accepts] at *

lemma heap_run {m : MudNetworkManager} {tr : List (Event × MudNetworkManager)}
    (h : Run Step m tr) {n : ℕ} (hn : m.heap.length + accepted tr ≤ n) :
    Always (fun m' => m'.heap.length ≤ n) m tr := by
  induction h with
  | nil m =>
      have hle : m.heap.length ≤ n := by omega
      exact hle
  | @cons m m' e tr hstep _ ih =>
      have hlen := heap_step hstep
      have hcount : accepted ((e, m') :: tr) = accepted tr + if e.accepts then 1 else 0 := by
        simp [accepted, List.countP_cons]
      refine ⟨by omega, ih (by omega)⟩

/-- A manager with its listeners, before anything has been accepted. -/
def new (listeners : Table Listener.name) (onConnectCB : Bool) : MudNetworkManager where
  listeners := listeners
  onConnectCB := onConnectCB

lemma allPending_new (listeners : Table Listener.name) (onConnectCB : Bool) :
    AllPending (new listeners onConnectCB) :=
  ⟨by simp [new], by simp [new], rfl, by simp [new, Table.empty], rfl, rfl⟩

/-- **The registry of connections**: in a run with fewer than 2 ^ 32 accepts the maps are
right throughout exactly if no connection becomes ready and none fails. -/
theorem registered_iff_waits (listeners : Table Listener.name) (onConnectCB : Bool)
    (tr : List (Event × MudNetworkManager)) (h : Run Step (new listeners onConnectCB) tr)
    (haccepts : accepted tr < UInt32.size) :
    Always Registered (new listeners onConnectCB) tr ↔
      AllSteps Waits (new listeners onConnectCB) tr := by
  have hlen : Always (fun m => m.heap.length ≤ UInt32.size - 1) (new listeners onConnectCB) tr :=
    heap_run h (by simp only [new, List.length_nil]; omega)
  refine (h.restrict hlen).always_iff_allSteps (fun _ => AllPending.registered) ?_ ?_
    (allPending_new listeners onConnectCB)
  · rintro m e m' hm hwaits ⟨hstep, hle⟩
    exact hm.step hwaits hstep (by omega)
  · rintro m e m' hm hwaits ⟨hstep, -⟩
    exact hm.not_registered hwaits hstep

def telnetListener : Listener where
  name := "testing"
  type := .telnet
  sslCon := false

def oneListener : Table Listener.name := Table.empty.insert telnetListener

/-- Two connections are accepted and wait. -/
theorem waiting_connections_registered : ∃ tr : List (Event × MudNetworkManager),
    events tr = [.start "testing", .accept "testing" false, .accept "testing" false] ∧
      Run Step (new oneListener true) tr ∧ Always Registered (new oneListener true) tr := by
  have hrun : Run Step (new oneListener true) [(.start "testing", _),
      (.accept "testing" false, _), (.accept "testing" false, _)] :=
    .cons ⟨_, rfl, rfl⟩ (.cons ⟨_, rfl, rfl, by decide, rfl⟩
      (.cons ⟨_, rfl, rfl, by decide, rfl⟩ (.nil _)))
  refine ⟨_, rfl, hrun, (registered_iff_waits oneListener true _ hrun (by decide)).mpr ?_⟩
  exact ⟨trivial, trivial, trivial, trivial⟩

/-- A client vanishes before the timer fires, and is announced and never forgotten. -/
theorem dead_peer_announced : ∃ tr : List (Event × MudNetworkManager),
    events tr = [.start "testing", .accept "testing" false, .connection 0 .readError,
        .connection 0 .timer] ∧
      Run Step (new oneListener true) tr ∧ ¬ Always Registered (new oneListener true) tr ∧
      ∃ c ∈ (final (new oneListener true) tr).announced, c.lost = true := by
  have hrun : Run Step (new oneListener true) [(.start "testing", _),
      (.accept "testing" false, _), (.connection 0 .readError, _), (.connection 0 .timer, _)] :=
    .cons ⟨_, rfl, rfl⟩ (.cons ⟨_, rfl, rfl, by decide, rfl⟩
      (.cons ⟨_, _, rfl, ⟨by decide, rfl⟩, rfl⟩
        (.cons ⟨_, _, rfl, ⟨by decide, rfl⟩, rfl⟩ (.nil _))))
  refine ⟨_, rfl, hrun, fun h => ?_, _, List.mem_singleton_self _, rfl⟩
  exact absurd (h.final.announced _ (List.mem_singleton_self _)) (by decide)

end MudNetworkManager

end ForgeMush
