import ForgeMush.Runs
import ForgeMush.Table
import Mathlib.Data.Finset.Dedup
import Mathlib.Data.Finset.Erase
import Mathlib.Data.Finset.SDiff

/-!
The Qt server of `mudcore`: `QSslServer`, `QMudListener` and `QMudServerCore`.

A pointer to an object is its index among all of its kind that were constructed. Signals are
delivered synchronously: the slot is run where the signal is emitted. What Qt's own classes do
is either an operation of `QTcpServer`, which is a parameter, or an event.
-/

namespace ForgeMush.Mudcore

variable {σ : Type}

inductive MudConnectionType | telnet | webSocket
  deriving DecidableEq

/-- What the listeners call of a `QTcpServer`, on a state of type `σ`. -/
structure QTcpServer (σ : Type) where
  fresh : σ
  isListening : σ → Bool
  /-- Whether new connections are handed over to `incomingConnection`. -/
  accepting : σ → Bool
  listen : σ → String → UInt16 → σ × Bool
  pauseAccepting : σ → σ

/-- The documentation of `QTcpServer`. -/
structure QTcpServer.Documented (q : QTcpServer σ) : Prop where
  fresh : q.isListening q.fresh = false ∧ q.accepting q.fresh = false
  listen : ∀ s address port, q.isListening s = false → (q.listen s address port).2 = true →
    q.isListening (q.listen s address port).1 = true ∧
      q.accepting (q.listen s address port).1 = true
  pauseAccepting : ∀ s, q.isListening (q.pauseAccepting s) = q.isListening s ∧
    q.accepting (q.pauseAccepting s) = false

/-- A server that is listening or not, and paused or not, and listens when it is told to. -/
def flags : QTcpServer (Bool × Bool) where
  fresh := (false, false)
  isListening s := s.1
  accepting s := s.1 && !s.2
  listen _ _ _ := ((true, false), true)
  pauseAccepting s := (s.1, true)

lemma flags_documented : flags.Documented where
  fresh := ⟨rfl, rfl⟩
  listen _ _ _ _ _ := ⟨rfl, rfl⟩
  pauseAccepting s := ⟨rfl, by simp [flags]⟩

/-! ### The TLS server -/

structure QSslSocket where
  encrypted : Bool

structure QSslServer (σ : Type) where
  /-- The `QTcpServer` that it is. -/
  base : σ
  /-- `ssl_config.isNull()` -/
  noConfig : Bool
  pendingSsl : Finset ℕ := ∅
  /-- All sockets constructed that took their descriptor. -/
  sockets : List QSslSocket := []

namespace QSslServer

def isEncrypted (v : QSslServer σ) (s : ℕ) : Bool := v.sockets[s]?.any QSslSocket.encrypted

/-- With the sockets that `connReady` is emitted for, here and below. A socket that does not take
its descriptor is deleted. -/
def incomingConnection (v : QSslServer σ) (setSocketDescriptor : Bool) :
    QSslServer σ × List ℕ :=
  if setSocketDescriptor then
    let serverSocket := v.sockets.length
    let v := { v with sockets := v.sockets ++ [{ encrypted := false }] }
    if v.noConfig then (v, [serverSocket])
    else ({ v with pendingSsl := insert serverSocket v.pendingSsl }, [])
  else (v, [])

/-- The slot `ssl_ready`, where the set is walked through in the given order. -/
def sslReady (v : QSslServer σ) (order : List ℕ) : QSslServer σ × List ℕ :=
  let toRemove := order.filter v.isEncrypted
  ({ v with pendingSsl := v.pendingSsl \ toRemove.toFinset }, toRemove)

inductive Event
  | incomingConnection (setSocketDescriptor : Bool)
  /-- The TLS handshake of a socket is over. -/
  | encrypts (s : ℕ)
  /-- The signal `encrypted` of a socket is handled. -/
  | encrypted (s : ℕ) (order : List ℕ)

def Enabled (v : QSslServer σ) : Event → Prop
  | .incomingConnection _ => True
  | .encrypts s => v.noConfig = false ∧ s < v.sockets.length
  | .encrypted s order => v.noConfig = false ∧ v.isEncrypted s = true ∧
      order.Nodup ∧ ∀ s, s ∈ order ↔ s ∈ v.pendingSsl

def handle (v : QSslServer σ) : Event → QSslServer σ × List ℕ
  | .incomingConnection setSocketDescriptor => v.incomingConnection setSocketDescriptor
  | .encrypts s => ({ v with sockets := v.sockets.set s { encrypted := true } }, [])
  | .encrypted _ order => v.sslReady order

end QSslServer

/-! ### Listeners -/

structure QMudListener (σ : Type) where
  objectName : String := ""
  address : String
  port : UInt16
  /-- Set for a Telnet listener. For a WebSocket listener nothing is constructed. -/
  listener : Option (QSslServer σ)
  pendingTelnet : Finset ℕ := ∅

namespace QMudListener

def new (q : QTcpServer σ) (address : String) (port : UInt16) (noConfig : Bool)
    (type : MudConnectionType) : QMudListener σ where
  address := address
  port := port
  listener :=
    match type with
    | .telnet => some { base := q.fresh, noConfig := noConfig }
    | .webSocket => none

/-- With what it returns. -/
def start (q : QTcpServer σ) (l : QMudListener σ) : QMudListener σ × Bool :=
  match l.listener with
  | some v =>
    if q.isListening v.base then (l, false)
    else
      let (base, ok) := q.listen v.base l.address l.port
      ({ l with listener := some { v with base := base } }, ok)
  | none => (l, false)

def stop (q : QTcpServer σ) (l : QMudListener σ) : QMudListener σ × Bool :=
  match l.listener with
  | some v =>
    if q.isListening v.base then
      ({ l with listener := some { v with base := q.pauseAccepting v.base } }, true)
    else (l, false)
  | none => (l, false)

def accepting (q : QTcpServer σ) (l : QMudListener σ) : Bool :=
  l.listener.any fun v => q.accepting v.base

end QMudListener

/-! ### The core -/

structure QMudTelnetConnection where
  /-- The listener, which is its parent in the tree of objects. -/
  parent : ℕ
  socket : ℕ
  objectName : String := ""

/-- `QHash<QString, T*>`. -/
abbrev ObjectHash := Table fun e : String × ℕ => e.1

structure QMudServerCore (σ : Type) where
  listeners : ObjectHash := Table.empty
  connections : ObjectHash := Table.empty
  /-- All listeners constructed. The core is their parent. -/
  listenerHeap : List (QMudListener σ) := []
  /-- All connections constructed. -/
  connectionHeap : List QMudTelnetConnection := []

namespace QMudServerCore

def createListener (q : QTcpServer σ) (c : QMudServerCore σ) (name interface : String)
    (port : UInt16) (noConfig : Bool) (type : MudConnectionType) : QMudServerCore σ :=
  let l := { QMudListener.new q interface port noConfig type with objectName := name }
  { c with
    listeners := c.listeners.insert (l.objectName, c.listenerHeap.length)
    listenerHeap := c.listenerHeap ++ [l] }

/-- The loop `for(auto l : listeners.values())`. -/
def forListeners (c : QMudServerCore σ) (f : QMudListener σ → QMudListener σ) :
    QMudServerCore σ :=
  let heap := c.listeners.rows.foldl (fun heap e => heap.modify e.2 f) c.listenerHeap
  { c with listenerHeap := heap }

def startListening (q : QTcpServer σ) (c : QMudServerCore σ) : QMudServerCore σ :=
  c.forListeners fun l => (l.start q).1

def stopListening (q : QTcpServer σ) (c : QMudServerCore σ) : QMudServerCore σ :=
  c.forListeners fun l => (l.stop q).1

/-- The slot of the listener `i`. -/
def acceptTelnetConnection (c : QMudServerCore σ) (i socket : ℕ) : QMudServerCore σ :=
  { c with connectionHeap := c.connectionHeap ++ [{ parent := i, socket := socket }] }

/-- The server `v` of the listener `i` handles an event, and the listener takes what is ready. -/
def serverEvent (c : QMudServerCore σ) (i : ℕ) (l : QMudListener σ) (v : QSslServer σ)
    (e : QSslServer.Event) : QMudServerCore σ :=
  let (v, ready) := v.handle e
  ready.foldl (fun c s => c.acceptTelnetConnection i s)
    { c with listenerHeap := c.listenerHeap.set i { l with listener := some v } }

/-- The connection `j` is accepted, whose parent is the listener `l`. -/
def acceptConnection (c : QMudServerCore σ) (j : ℕ) (conn : QMudTelnetConnection)
    (l : QMudListener σ) : QMudServerCore σ :=
  let conn := { conn with objectName := l.objectName ++ "_test_conn" }
  { c with
    connectionHeap := c.connectionHeap.set j conn
    connections := c.connections.insert (conn.objectName, j) }

/-- The slot of the listener `i`. -/
def telnetReady (c : QMudServerCore σ) (i j : ℕ) (conn : QMudTelnetConnection)
    (l : QMudListener σ) : QMudServerCore σ :=
  let l := { l with pendingTelnet := l.pendingTelnet.erase j }
  { c with listenerHeap := c.listenerHeap.set i l }.acceptConnection j conn l

inductive Event
  | createListener (name interface : String) (port : UInt16) (noConfig : Bool)
      (type : MudConnectionType)
  | startListening
  | stopListening
  /-- Something happens to the server of the listener `i`. -/
  | server (i : ℕ) (e : QSslServer.Event)
  /-- The connection `j` of the listener `i` emits `telnetReady`. -/
  | telnetReady (i j : ℕ)

def Step (q : QTcpServer σ) (c : QMudServerCore σ) : Event → QMudServerCore σ → Prop
  | .createListener name interface port noConfig type, c' =>
      c' = c.createListener q name interface port noConfig type
  | .startListening, c' => c' = c.startListening q
  | .stopListening, c' => c' = c.stopListening q
  | .server i e, c' => ∃ l v, c.listenerHeap[i]? = some l ∧ l.listener = some v ∧ v.Enabled e ∧
      (∀ ok, e = .incomingConnection ok → q.accepting v.base = true) ∧
      c' = c.serverEvent i l v e
  | .telnetReady i j, c' => ∃ l conn, c.listenerHeap[i]? = some l ∧
      c.connectionHeap[j]? = some conn ∧ conn.parent = i ∧ c' = c.telnetReady i j conn l

end QMudServerCore

end ForgeMush.Mudcore
