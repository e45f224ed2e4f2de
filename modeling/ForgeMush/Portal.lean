import ForgeMush.Manager

/-!
`MudNetworkManager` from the registration of its listeners on, with connections of both kinds.

Where the manager of Telnet listeners only knows whether the pointer to an SSL context is
null, the pointer itself is kept here: which context it is that a socket is upgraded with.
-/

namespace ForgeMush

/-- A `boost::asio::ssl::context*`. The null pointer is `none`. -/
abbrev SslContext := Option ℕ

/-! ### Connections -/

structure WebSocketMudConnection extends MudConnection where
  wsock : Bool := false
  -- the operations outstanding
  handshakes : ℕ := 0
  accepts : ℕ := 0

namespace WebSocketMudConnection

def new (connId : UInt32) (isTLS hasConnectCB : Bool) : WebSocketMudConnection where
  connId := connId
  isTLS := isTLS
  hasConnectCB := hasConnectCB

def onPlainConnect (c : WebSocketMudConnection) : WebSocketMudConnection :=
  { c with conn := .websocket, wsock := true, accepts := c.accepts + 1 }

def onSecureConnect (c : WebSocketMudConnection) : WebSocketMudConnection :=
  { c with conn := .tlsWebsocket, wsock := true, accepts := c.accepts + 1 }

/-- `MudConnection::onConnect`. -/
def onConnect (c : WebSocketMudConnection) : WebSocketMudConnection :=
  if c.isTLS then { c with conn := .securePeer, handshakes := c.handshakes + 1 }
  else c.onPlainConnect

/-- It prints a line and does nothing else: no read is ever begun. -/
def start (c : WebSocketMudConnection) : WebSocketMudConnection := c

def send (c : WebSocketMudConnection) : WebSocketMudConnection :=
  if !c.isWriting then
    if c.outbox.length > 0 then { c with isWriting := true } else c
  else c

inductive Event
  | send
  | handshake (failed : Bool)
  /-- The WebSocket accept completes. -/
  | accepted (failed : Bool)

def Step (c : WebSocketMudConnection) : Event → WebSocketMudConnection → Prop
  | .send, d => d = c.send
  | .handshake failed, d => 0 < c.handshakes ∧
      d = if failed then { c with handshakes := c.handshakes - 1 }
        else onSecureConnect { c with handshakes := c.handshakes - 1 }
  | .accepted failed, d => 0 < c.accepts ∧
      d = if failed then { c with accepts := c.accepts - 1 }
        else start { c with accepts := c.accepts - 1 }

end WebSocketMudConnection

/-- A connection of either subclass of `MudConnection`. -/
inductive AnyConnection
  | telnet (c : TelnetMudConnection)
  | webSocket (c : WebSocketMudConnection)

namespace AnyConnection

def base : AnyConnection → MudConnection
  | .telnet c => c.toMudConnection
  | .webSocket c => c.toMudConnection

/-- A Telnet connection never sets `wsock`. -/
def wsock : AnyConnection → Bool
  | .telnet _ => false
  | .webSocket c => c.wsock

def started : AnyConnection → Bool
  | .telnet c => c.started
  | .webSocket _ => false

def new (type : MudConnectionType) (connId : UInt32) (isTLS hasConnectCB : Bool) :
    AnyConnection :=
  match type with
  | .telnet => .telnet (.new connId isTLS hasConnectCB)
  | .webSocket => .webSocket (.new connId isTLS hasConnectCB)

def onConnect : AnyConnection → AnyConnection
  | .telnet c => .telnet c.onConnect
  | .webSocket c => .webSocket c.onConnect

/-- The member of the union that the destructor deletes. -/
def deleted (c : AnyConnection) : Socket :=
  if c.base.isTLS then
    if c.wsock then .tlsWebsocket else .securePeer
  else
    if c.wsock then .websocket else .peer

/-- The member that `receive` reads from, and that the `send` of a Telnet connection writes to. The
`receive` of a WebSocket connection does not ask for `wsock`, and its `send` writes nothing. -/
def streamed : AnyConnection → Socket
  | .telnet c => if c.isTLS then .securePeer else .peer
  | .webSocket c => if c.isTLS then .tlsWebsocket else .websocket

inductive Event
  | telnet (e : TelnetMudConnection.Event)
  | webSocket (e : WebSocketMudConnection.Event)

def Step : AnyConnection → Event → AnyConnection → Prop
  | .telnet c, .telnet e, .telnet d => TelnetMudConnection.Step c e d
  | .webSocket c, .webSocket e, .webSocket d => WebSocketMudConnection.Step c e d
  | _, _, _ => False

lemma step_cases {a b : AnyConnection} {e : Event} (h : Step a e b) :
    (∃ c k d, a = .telnet c ∧ e = .telnet k ∧ b = .telnet d ∧
      TelnetMudConnection.Step c k d) ∨
    (∃ c k d, a = .webSocket c ∧ e = .webSocket k ∧ b = .webSocket d ∧
      WebSocketMudConnection.Step c k d) := by
  cases a with
  | telnet c =>
      cases e with
      | telnet k =>
          cases b with
          | telnet d => exact Or.inl ⟨c, k, d, rfl, rfl, rfl, h⟩
          | webSocket d => cases h
      | webSocket k => cases h
  | webSocket c =>
      cases e with
      | telnet k => cases h
      | webSocket k =>
          cases b with
          | telnet d => cases h
          | webSocket d => exact Or.inr ⟨c, k, d, rfl, rfl, rfl, h⟩

end AnyConnection

/-! ### Listeners -/

namespace Listener

@[simp] lemma start_sslCon (l : Listener) : l.start.sslCon = l.sslCon := by
  unfold start listen
  split_ifs <;> rfl

@[simp] lemma stop_sslCon (l : Listener) : l.stop.sslCon = l.sslCon := by
  unfold stop
  split_ifs <;> rfl

/-- What the handler of a completed accept does to the listener. -/
def accepted (l : Listener) : Listener :=
  let l := { l with accepts := l.accepts - 1 }
  if l.running then l.listen else l

@[simp] lemma accepted_sslCon (l : Listener) : l.accepted.sslCon = l.sslCon := by
  unfold accepted listen
  dsimp only
  split_ifs <;> rfl

end Listener

/-- A listener with the pointer that its `ssl_con` holds, and with the `ssl_name` it was
registered with. -/
structure PortalListener where
  listener : Listener
  context : SslContext
  sslName : Option String
  agrees : listener.sslCon = context.isSome

namespace PortalListener

/-- The constructor. It leaves `ssl_con` as it finds it in `memory`. -/
def new (name : String) (type : MudConnectionType) (_sslContext : SslContext)
    (sslName : Option String) (memory : SslContext) : PortalListener where
  listener := { name := name, type := type, sslCon := memory.isSome, running := false }
  context := memory
  sslName := sslName
  agrees := rfl

def start (l : PortalListener) : PortalListener :=
  { l with listener := l.listener.start, agrees := by simpa using l.agrees }

def stop (l : PortalListener) : PortalListener :=
  { l with listener := l.listener.stop, agrees := by simpa using l.agrees }

def accepted (l : PortalListener) : PortalListener :=
  { l with listener := l.listener.accepted, agrees := by simpa using l.agrees }

end PortalListener

/-! ### The manager -/

/-- A connection with the `ssl_name` that its listener was registered with, and the context
that `onConnect` has upgraded its socket with. -/
structure Accepted where
  sslName : Option String
  upgrade : Option SslContext := none
  connection : AnyConnection

/-- `MudNetworkManager`. -/
structure Portal where
  /-- The names of the addresses registered. -/
  addresses : List String
  sslContexts : Table fun e : String × SslContext => e.1
  listeners : Table fun l : PortalListener => l.listener.name := Table.empty
  onConnectCB : Bool
  nextId : UInt32 := 0
  connections : ConnectionMap := Table.empty
  pending : ConnectionMap := Table.empty
  /-- All connections constructed. -/
  heap : List Accepted := []

namespace Portal

/-- `registerListener`, with what the memory of the new listener holds at `ssl_con`. -/
def registerListener (p : Portal) (name address : String) (type : MudConnectionType)
    (sslName : Option String) (memory : SslContext) : Except String Portal :=
  if p.listeners.find? name ≠ none then .error "duplicate server!"
  else if address ∉ p.addresses then .error "address not found"
  else
    match sslName with
    | none =>
      .ok { p with listeners := p.listeners.insert (.new name type none sslName memory) }
    | some n =>
      match p.sslContexts.find? n with
      | none => .error "ssl context not found"
      | some (_, con) =>
        .ok { p with listeners := p.listeners.insert (.new name type con sslName memory) }

/-- The handler of a completed accept, up to the next `listen`. -/
def accept (p : Portal) (l : PortalListener) : Portal :=
  let mud := AnyConnection.new l.listener.type p.nextId l.listener.sslCon p.onConnectCB
  { p with
    nextId := p.nextId + 1
    pending := p.pending.insert (mud.base.connId, p.heap.length)
    heap := p.heap ++ [{
      sslName := l.sslName
      upgrade := if mud.base.isTLS then some l.context else none
      connection := mud.onConnect }] }

def onAccept (p : Portal) (l : PortalListener) (failed : Bool) : Portal :=
  let p := if failed then p else p.accept l
  { p with listeners := p.listeners.insert l.accepted }

/-- The connection `i` has gone from `a` to `d`. It runs `MudConnection::onReady` when it
becomes ready. -/
def update (p : Portal) (i : ℕ) (a : Accepted) (d : AnyConnection) : Portal :=
  let p := { p with heap := p.heap.set i { a with connection := d } }
  if !a.connection.started && d.started then
    { p with connections := p.connections.insert (d.base.connId, i) }
  else p

inductive Event
  | registerListener (name address : String) (type : MudConnectionType)
      (sslName : Option String) (memory : SslContext)
  | start (name : String)
  | stop (name : String)
  /-- An accept of the listener completes. -/
  | accept (name : String) (failed : Bool)
  | connection (i : ℕ) (e : AnyConnection.Event)

def Step (p : Portal) : Event → Portal → Prop
  | .registerListener name address type sslName memory, p' =>
      -- a call that throws leaves the manager as it was
      p' = match p.registerListener name address type sslName memory with
        | .ok q => q
        | .error _ => p
  | .start name, p' => ∃ l, p.listeners.find? name = some l ∧
      p' = { p with listeners := p.listeners.insert l.start }
  | .stop name, p' => ∃ l, p.listeners.find? name = some l ∧
      p' = { p with listeners := p.listeners.insert l.stop }
  | .accept name failed, p' => ∃ l, p.listeners.find? name = some l ∧
      0 < l.listener.accepts ∧ p' = p.onAccept l failed
  | .connection i e, p' => ∃ a d, p.heap[i]? = some a ∧ a.connection.Step e d ∧
      p' = p.update i a d

/-- A manager with its addresses and contexts, before any listener is registered. -/
def new (addresses : List String) (sslContexts : Table fun e : String × SslContext => e.1)
    (onConnectCB : Bool) : Portal where
  addresses := addresses
  sslContexts := sslContexts
  onConnectCB := onConnectCB

lemma registerListener_ok {p q : Portal} {name address : String} {type : MudConnectionType}
    {sslName : Option String} {memory : SslContext}
    (h : p.registerListener name address type sslName memory = .ok q) :
    ∃ con, q = { p with
      listeners := p.listeners.insert (.new name type con sslName memory) } := by
  unfold registerListener at h
  split_ifs at h
  cases sslName with
  | none => exact ⟨none, (Except.ok.inj h).symm⟩
  | some n =>
      dsimp only at h
      split at h
      · cases h
      · exact ⟨_, (Except.ok.inj h).symm⟩

lemma update_eq (p : Portal) (i : ℕ) (a : Accepted) (d : AnyConnection) :
    ∃ t, p.update i a d =
      { p with heap := p.heap.set i { a with connection := d }, connections := t } := by
  unfold update
  dsimp only
  split_ifs <;> exact ⟨_, rfl⟩

end Portal

end ForgeMush
