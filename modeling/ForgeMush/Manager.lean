import ForgeMush.EventLoop

/-!
`Listener` and `MudNetworkManager`: accepting connections, and the maps of those that are
accepted and of those that are ready.

A pointer to a connection is its index among all that were constructed. What a connection
does by itself is a step of `TelnetMudConnection`; the manager sees it become ready.
-/

namespace ForgeMush

open Runs

inductive MudConnectionType | telnet | webSocket
  deriving DecidableEq

structure Listener where
  name : String
  type : MudConnectionType
  /-- `ssl_con != nullptr`. The constructor does not set the member. -/
  sslCon : Bool
  running : Bool := false
  /-- The calls of `async_accept` outstanding. -/
  accepts : ℕ := 0

namespace Listener

/-- Starts an accept; its handler is `MudNetworkManager.onAccept`. -/
def listen (l : Listener) : Listener := { l with accepts := l.accepts + 1 }

def start (l : Listener) : Listener :=
  if !l.running then { l with running := true }.listen else l

def stop (l : Listener) : Listener := if l.running then { l with running := false } else l

end Listener

abbrev ConnectionMap := Table fun e : UInt32 × ℕ => e.1

structure MudNetworkManager where
  listeners : Table Listener.name
  /-- Whether a callback is installed, which is then the one of `portal.cpp`. -/
  onConnectCB : Bool
  nextId : UInt32 := 0
  connections : ConnectionMap := Table.empty
  pending : ConnectionMap := Table.empty
  /-- All connections constructed. -/
  heap : List TelnetMudConnection := []
  /-- The connections passed to `onConnectCB`, as they were then. -/
  announced : List TelnetMudConnection := []

namespace MudNetworkManager

/-- The handler of a completed accept, for a Telnet listener, up to the next `listen`. -/
def accept (m : MudNetworkManager) (l : Listener) : MudNetworkManager :=
  let mud := TelnetMudConnection.new m.nextId l.sslCon m.onConnectCB
  { m with
    nextId := m.nextId + 1
    pending := m.pending.insert (mud.connId, m.heap.length)
    heap := m.heap ++ [mud.onConnect] }

def onAccept (m : MudNetworkManager) (l : Listener) (failed : Bool) : MudNetworkManager :=
  let l := { l with accepts := l.accepts - 1 }
  let m := if failed then m else m.accept l
  { m with listeners := m.listeners.insert (if l.running then l.listen else l) }

/-- What `MudConnection::onReady` of the connection `i` does to the manager. -/
def onReady (m : MudNetworkManager) (i : ℕ) (c : TelnetMudConnection) : MudNetworkManager :=
  { m with
    connections := m.connections.insert (c.connId, i)
    announced := if c.hasConnectCB then m.announced ++ [c] else m.announced }

/-- The connection `i` has gone from `c` to `d`. It runs `onReady` when `started` is set. -/
def update (m : MudNetworkManager) (i : ℕ) (c d : TelnetMudConnection) : MudNetworkManager :=
  let m := { m with heap := m.heap.set i d }
  if !c.started && d.started then m.onReady i d else m

inductive Event
  | start (name : String)
  | stop (name : String)
  /-- An accept of the listener completes. -/
  | accept (name : String) (failed : Bool)
  | connection (i : ℕ) (e : TelnetMudConnection.Event)

def Step (m : MudNetworkManager) : Event → MudNetworkManager → Prop
  | .start name, m' => ∃ l, m.listeners.find? name = some l ∧
      m' = { m with listeners := m.listeners.insert l.start }
  | .stop name, m' => ∃ l, m.listeners.find? name = some l ∧
      m' = { m with listeners := m.listeners.insert l.stop }
  | .accept name failed, m' => ∃ l, m.listeners.find? name = some l ∧ l.type = .telnet ∧
      0 < l.accepts ∧ m' = m.onAccept l failed
  | .connection i e, m' => ∃ c d, m.heap[i]? = some c ∧ TelnetMudConnection.Step c e d ∧
      m' = m.update i c d

def Event.accepts : Event → Bool
  | .accept _ failed => !failed
  | _ => false

end MudNetworkManager

end ForgeMush
