import ForgeMush.Registry
import ForgeMush.Portal

/-!
A portal whose listeners are all Telnet does what the manager of Telnet listeners does.

The manager knows of a listener's context only whether it is there, and keeps no record of what
the sockets were upgraded with; apart from that the two are the same, step by step.
-/

namespace ForgeMush

open Runs

namespace Portal

/-- The portal as the manager of its Telnet listeners sees it. -/
structure Shows (p : Portal) (m : MudNetworkManager) : Prop where
  telnet : ∀ l ∈ p.listeners.rows, l.listener.type = .telnet
  listeners : m.listeners.rows = p.listeners.rows.map PortalListener.listener
  onConnectCB : p.onConnectCB = m.onConnectCB
  nextId : p.nextId = m.nextId
  connections : p.connections = m.connections
  pending : p.pending = m.pending
  heap : p.heap.map Accepted.connection = m.heap.map AnyConnection.telnet

variable {p p' : Portal} {m : MudNetworkManager}

/-- The listeners without their contexts. -/
def shown (t : Table fun l : PortalListener => l.listener.name) : Table Listener.name :=
  ⟨t.rows.map PortalListener.listener, by rw [List.map_map]; exact t.distinct⟩

lemma shows_new (addresses : List String)
    (sslContexts : Table fun e : String × SslContext => e.1) (onConnectCB : Bool)
    {t : Table fun l : PortalListener => l.listener.name}
    (ht : ∀ l ∈ t.rows, l.listener.type = .telnet) :
    Shows { new addresses sslContexts onConnectCB with listeners := t }
      (.new (shown t) onConnectCB) where
  telnet := ht
  listeners := rfl
  onConnectCB := rfl
  nextId := rfl
  connections := rfl
  pending := rfl
  heap := rfl

lemma Shows.find? (h : Shows p m) {name : String} {l : PortalListener}
    (hl : p.listeners.find? name = some l) :
    m.listeners.find? name = some l.listener ∧ l.listener.type = .telnet := by
  refine ⟨?_, h.telnet l (Table.find?_eq_some_iff.mp hl).1⟩
  rw [Table.find?_map (fun _ => rfl) h.listeners, hl]
  rfl

lemma Shows.insert (h : Shows p m) {l : PortalListener} (hl : l.listener.type = .telnet) :
    Shows { p with listeners := p.listeners.insert l }
      { m with listeners := m.listeners.insert l.listener } := by
  refine { h with telnet := fun l' hl' => ?_, listeners := ?_ }
  · rcases Table.mem_insert.mp hl' with rfl | ⟨hmem, -⟩
    · exact hl
    · exact h.telnet l' hmem
  · have hput : (Table.put (fun l : PortalListener => l.listener.name) l p.listeners.rows).map
        PortalListener.listener =
          Table.put Listener.name l.listener (p.listeners.rows.map PortalListener.listener) :=
      Table.map_put (fun _ => rfl) l p.listeners.rows
    rw [← h.listeners] at hput
    exact hput.symm

lemma type_start (l : Listener) : l.start.type = l.type := by
  unfold Listener.start Listener.listen
  split_ifs <;> rfl

lemma type_stop (l : Listener) : l.stop.type = l.type := by
  unfold Listener.stop
  split_ifs <;> rfl

lemma type_accepted (l : Listener) : l.accepted.type = l.type := by
  unfold Listener.accepted Listener.listen
  dsimp only
  split_ifs <;> rfl

lemma Shows.accept (h : Shows p m) {l : PortalListener} (hl : l.listener.type = .telnet) :
    Shows (p.accept l) (m.accept l.listener) := by
  have hlen : p.heap.length = m.heap.length := by
    simpa using congrArg List.length h.heap
  have hnew : AnyConnection.new l.listener.type p.nextId l.listener.sslCon p.onConnectCB =
      .telnet (.new m.nextId l.listener.sslCon m.onConnectCB) := by
    rw [hl, h.nextId, h.onConnectCB]
    rfl
  unfold Portal.accept MudNetworkManager.accept
  rw [hnew]
  refine { h with nextId := ?_, pending := ?_, heap := ?_ }
  · exact congrArg (· + 1) h.nextId
  · dsimp only
    rw [h.pending, hlen]
    rfl
  · dsimp only
    rw [List.map_append, List.map_append, h.heap]
    rfl

lemma Shows.onAccept (h : Shows p m) {l : PortalListener} (hl : l.listener.type = .telnet)
    (failed : Bool) : Shows (p.onAccept l failed) (m.onAccept l.listener failed) := by
  have hl' : l.accepted.listener.type = .telnet := (type_accepted _).trans hl
  unfold Portal.onAccept MudNetworkManager.onAccept
  cases failed with
  | true => exact h.insert hl'
  | false => exact (h.accept hl).insert hl'

lemma Shows.update (h : Shows p m) (i : ℕ) {a : Accepted} {c d : TelnetMudConnection}
    (ha : a.connection = .telnet c) :
    Shows (p.update i a (.telnet d)) (m.update i c d) := by
  have hset : (p.heap.set i { a with connection := .telnet d }).map Accepted.connection =
      (m.heap.set i d).map AnyConnection.telnet := by
    rw [List.map_set, List.map_set, h.heap]
  have hready : (!a.connection.started && (AnyConnection.telnet d).started) =
      (!c.started && d.started) := by
    rw [ha]
    rfl
  unfold Portal.update MudNetworkManager.update
  dsimp only
  rw [hready]
  split_ifs with hc
  · refine { h with connections := ?_, heap := hset }
    dsimp only [MudNetworkManager.onReady]
    rw [h.connections]
    rfl
  · exact { h with heap := hset }

/-- The event is no call of `registerListener`. -/
def Event.RegistersNone : Event → Prop
  | .registerListener .. => False
  | _ => True

/-- **What the portal does the manager of its Telnet listeners does.** -/
theorem Shows.step (h : Shows p m) {e : Event} (he : e.RegistersNone) (hstep : Step p e p') :
    ∃ e' m', MudNetworkManager.Step m e' m' ∧ Shows p' m' := by
  cases e with
  | registerListener => cases he
  | start name =>
      obtain ⟨l, hl, rfl⟩ := hstep
      obtain ⟨hfind, htype⟩ := h.find? hl
      exact ⟨.start name, _, ⟨l.listener, hfind, rfl⟩, h.insert ((type_start _).trans htype)⟩
  | stop name =>
      obtain ⟨l, hl, rfl⟩ := hstep
      obtain ⟨hfind, htype⟩ := h.find? hl
      exact ⟨.stop name, _, ⟨l.listener, hfind, rfl⟩, h.insert ((type_stop _).trans htype)⟩
  | accept name failed =>
      obtain ⟨l, hl, haccepts, rfl⟩ := hstep
      obtain ⟨hfind, htype⟩ := h.find? hl
      exact ⟨.accept name failed, _, ⟨l.listener, hfind, htype, haccepts, rfl⟩,
        h.onAccept htype failed⟩
  | connection i e =>
      obtain ⟨a, d, ha, had, rfl⟩ := hstep
      have hmap : (p.heap.map Accepted.connection)[i]? = some a.connection := by
        rw [List.getElem?_map, ha]
        rfl
      rw [h.heap, List.getElem?_map] at hmap
      obtain ⟨c, hc, hca⟩ := Option.map_eq_some_iff.mp hmap
      rw [← hca] at had
      rcases AnyConnection.step_cases had with ⟨c, k, d, hc', rfl, rfl, hcd⟩ | ⟨_, _, _, hc', -⟩
      · cases hc'
        exact ⟨.connection i k, _, ⟨c, d, hc, hcd, rfl⟩, h.update i hca.symm⟩
      · cases hc'

/-- **A run of a portal with Telnet listeners** is one of their manager, from the moment all
are registered. -/
theorem shows_run (addresses : List String)
    (sslContexts : Table fun e : String × SslContext => e.1) (onConnectCB : Bool)
    {t : Table fun l : PortalListener => l.listener.name}
    (ht : ∀ l ∈ t.rows, l.listener.type = .telnet) {tr : List (Event × Portal)}
    (h : Run Step { new addresses sslContexts onConnectCB with listeners := t } tr)
    (htr : AllSteps (fun _ e => e.RegistersNone)
      { new addresses sslContexts onConnectCB with listeners := t } tr) :
    ∃ tr', Run MudNetworkManager.Step (.new (shown t) onConnectCB) tr' ∧
      Shows (final { new addresses sslContexts onConnectCB with listeners := t } tr)
        (final (.new (shown t) onConnectCB) tr') :=
  h.simulate (fun _ _ _ _ hs he hstep => hs.step he hstep) htr
    (shows_new addresses sslContexts onConnectCB ht)

end Portal

end ForgeMush
