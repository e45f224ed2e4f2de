import ForgeMush.Loop
import ForgeMush.Options
import ForgeMush.Table
import Mathlib.Data.Finset.Basic

/-!
`MudConnection` and `TelnetMudConnection`: the state of a connection and its methods, up to
the handling of one telnet message.

A connection also carries what the event loop holds for it (the asynchronous operations not
completed yet, and the bytes its completed writes have put on the wire) and the calls made
so far. A socket function only starts an operation; its handler runs from the event loop.
-/

namespace ForgeMush

/-- The members of the union `Connection`. -/
inductive Socket | peer | securePeer | websocket | tlsWebsocket
  deriving DecidableEq

/-- `std::unordered_map<uint8_t, TelnetOption*>`, in the order it is walked through. Registration
puts an option at the end, and every order is that of some registration. -/
abbrev OptionTable := Table fun op : TelnetOption => op.opCode

structure MudConnection where
  connId : UInt32
  /-- `listener.ssl_con != nullptr` -/
  isTLS : Bool
  /-- Whether `listener.manager.onConnectCB` holds a callback, which is then the one of
  `portal.cpp`. -/
  hasConnectCB : Bool
  /-- The member stored last. -/
  conn : Socket := .peer
  isWriting : Bool := false
  inbox : Bytes := []
  outbox : Bytes := []
  /-- Whether a callback is installed. -/
  onCommandCB : Bool := false

structure TelnetMudConnection extends MudConnection where
  cmdbuff : Bytes := []
  hsLocal : Finset TelnetCode := ∅
  hsRemote : Finset TelnetCode := ∅
  hsSpecial : Finset TelnetCode := ∅
  options : OptionTable := Table.empty
  started : Bool := false
  -- the operations outstanding; a write with the bytes it was given
  handshakes : ℕ := 0
  reads : ℕ := 0
  waits : ℕ := 0
  writes : List Bytes := []
  wire : Bytes := []
  /-- Whether the handshake or a read has ended in an error. -/
  lost : Bool := false
  calls : List Call := []

namespace TelnetMudConnection

def new (connId : UInt32) (isTLS hasConnectCB : Bool) : TelnetMudConnection where
  connId := connId
  isTLS := isTLS
  hasConnectCB := hasConnectCB

def record (c : TelnetMudConnection) (k : Call) : TelnetMudConnection :=
  { c with calls := c.calls ++ [k] }

def consume (c : TelnetMudConnection) (n : ℕ) : TelnetMudConnection :=
  { c with inbox := c.inbox.drop n }

/-! ### Output -/

def send (c : TelnetMudConnection) : TelnetMudConnection :=
  if !c.isWriting then
    if c.outbox.length > 0 then
      { c with isWriting := true, writes := c.writes ++ [c.outbox] }
    else c
  else c

lemma send_eq (c : TelnetMudConnection) :
    c.send = { c with
      isWriting := c.isWriting || decide (0 < c.outbox.length)
      writes := if c.isWriting = false ∧ 0 < c.outbox.length then c.writes ++ [c.outbox]
        else c.writes } := by
  obtain ⟨⟨_, _, _, _, w, _, o, _⟩, _⟩ := c
  cases w <;> by_cases ho : 0 < o.length <;> simp [send, ho]

/-- The completion handler of the write that `send` starts. It does not look at the error
code. -/
def sendHandler (c : TelnetMudConnection) (len : ℕ) : TelnetMudConnection :=
  let c := { c with outbox := c.outbox.drop len }
  if c.outbox.length > 0 then c.send else { c with isWriting := false }

def sendNegotiate (c : TelnetMudConnection) (command option : TelnetCode) :
    TelnetMudConnection :=
  send { c.record (.sendNegotiate command option) with
    outbox := c.outbox ++ [TelnetCode.IAC, command, option] }

/-! ### Readiness -/

def onReady (c : TelnetMudConnection) : TelnetMudConnection :=
  let c := c.record .onReady
  if c.hasConnectCB then { c.record .onConnectCB with onCommandCB := true } else c

def finishReady (c : TelnetMudConnection) : TelnetMudConnection :=
  if c.started then c else onReady { c with started := true }

def checkReady (c : TelnetMudConnection) : TelnetMudConnection :=
  if c.started then c
  else if c.hsLocal ≠ ∅ then c
  else if c.hsRemote ≠ ∅ then c
  else if c.hsSpecial ≠ ∅ then c
  else c.finishReady

/-- The handshake holder of a side. -/
def holder (c : TelnetMudConnection) : Side → Finset TelnetCode
  | .localSide => c.hsLocal
  | .remoteSide => c.hsRemote

def setHolder (c : TelnetMudConnection) (hs : Finset TelnetCode) : Side → TelnetMudConnection
  | .localSide => { c with hsLocal := hs }
  | .remoteSide => { c with hsRemote := hs }

/-- `TelnetHandshakeHolder::processHandshake` of the holder of `side`. -/
def processHandshake (c : TelnetMudConnection) (side : Side) (code : TelnetCode) :
    TelnetMudConnection :=
  let c := (c.record (.processHandshake side code)).setHolder ((c.holder side).erase code) side
  if c.holder side = ∅ then c.checkReady else c

/-! ### Options -/

/-- `TelnetOption::registerHandshake`. -/
def registerHandshake (c : TelnetMudConnection) (op : TelnetOption) : TelnetMudConnection :=
  let c := if op.supportLocal && op.startDo then
    { c with hsLocal := insert op.opCode c.hsLocal } else c
  if op.supportRemote && op.startWill then
    { c with hsRemote := insert op.opCode c.hsRemote } else c

def registerOption (c : TelnetMudConnection) (op : TelnetOption) : TelnetMudConnection :=
  registerHandshake { c with options := c.options.insert op } op

/-- A connection as constructed, with options of the classes `ks` registered in turn. -/
def withOptions (connId : UInt32) (isTLS hasConnectCB : Bool) (ks : List OptionClass) :
    TelnetMudConnection :=
  ks.foldl (fun c k => c.registerOption (TelnetOption.new k)) (new connId isTLS hasConnectCB)

/-- **The registration rule**: what every registration keeps holds of a connection with its
options. -/
theorem withOptions_invariant {I : TelnetMudConnection → Prop} {connId : UInt32}
    {isTLS hasConnectCB : Bool} {ks : List OptionClass} (hnew : I (new connId isTLS hasConnectCB))
    (hI : ∀ c, I c → ∀ k ∈ ks, I (c.registerOption (TelnetOption.new k))) :
    I (withOptions connId isTLS hasConnectCB ks) :=
  List.foldlRecOn ks _ hnew hI

lemma registerOption_eq (c : TelnetMudConnection) (op : TelnetOption) :
    ∃ l r, c.registerOption op =
      { c with options := c.options.insert op, hsLocal := l, hsRemote := r } := by
  unfold registerOption registerHandshake
  dsimp only
  split_ifs <;> exact ⟨_, _, rfl⟩

lemma withOptions_eq (connId : UInt32) (isTLS hasConnectCB : Bool) (ks : List OptionClass) :
    ∃ t l r, withOptions connId isTLS hasConnectCB ks =
      { new connId isTLS hasConnectCB with options := t, hsLocal := l, hsRemote := r } := by
  refine withOptions_invariant (I := fun c => ∃ t l r, c =
    { new connId isTLS hasConnectCB with options := t, hsLocal := l, hsRemote := r })
    ⟨Table.empty, ∅, ∅, rfl⟩ ?_
  rintro c ⟨t, l, r, rfl⟩ k -
  obtain ⟨l', r', h⟩ := registerOption_eq _ (TelnetOption.new k)
  exact ⟨_, l', r', h⟩

lemma options_withOptions (connId : UInt32) (isTLS hasConnectCB : Bool) (ks : List OptionClass) :
    (withOptions connId isTLS hasConnectCB ks).options =
      (ks.map TelnetOption.new).foldl Table.insert Table.empty := by
  have hfold : ∀ c : TelnetMudConnection,
      (ks.foldl (fun c k => c.registerOption (TelnetOption.new k)) c).options =
        (ks.map TelnetOption.new).foldl Table.insert c.options := by
    induction ks with
    | nil => exact fun _ => rfl
    | cons k ks ih =>
        intro c
        obtain ⟨l, r, hreg⟩ := registerOption_eq c (TelnetOption.new k)
        rw [List.foldl_cons, ih, hreg]
        rfl
  exact hfold _

/-- The connection with its map of options walked through in the order of `walk`. -/
def walking (c : TelnetMudConnection) (walk : OptionTable) : TelnetMudConnection :=
  { c with options := walk }

/-- What a connection is constructed from. -/
structure Setup where
  connId : UInt32
  isTLS : Bool
  hasConnectCB : Bool
  options : OptionSet

def Setup.connection (a : Setup) : TelnetMudConnection :=
  withOptions a.connId a.isTLS a.hasConnectCB a.options.classes

/-- What a call does to the connection. The hooks of an option are empty. -/
def perform (c : TelnetMudConnection) : Call → TelnetMudConnection
  | .sendNegotiate command option => c.sendNegotiate command option
  | .processHandshake side code => c.processHandshake side code
  | k => c.record k

/-- A method of the option registered under `code`, with the calls it makes. -/
def onOption (c : TelnetMudConnection) (code : TelnetCode)
    (method : TelnetOption → TelnetOption × List Call) : TelnetMudConnection :=
  match c.options.find? code with
  | none => c
  | some op =>
    (method op).2.foldl perform { c with options := c.options.insert (method op).1 }

/-! ### Start -/

def receive (c : TelnetMudConnection) : TelnetMudConnection := { c with reads := c.reads + 1 }

def start (c : TelnetMudConnection) : TelnetMudConnection :=
  let c := c.send.receive
  let c := c.options.keys.foldl (fun c k => c.onOption k TelnetOption.onConnect) c
  { c with waits := c.waits + 1 }

def onPlainConnect (c : TelnetMudConnection) : TelnetMudConnection := c.start

def onSecureConnect (c : TelnetMudConnection) : TelnetMudConnection := c.start

/-- `MudConnection::onConnect`. -/
def onConnect (c : TelnetMudConnection) : TelnetMudConnection :=
  if c.isTLS then { c with conn := .securePeer, handshakes := c.handshakes + 1 }
  else c.onPlainConnect

/-! ### Messages -/

/-- One turn of the loop of `onReceiveAppData`: the first line of `cmdbuff`, if it is
complete. -/
def commandTurn (c : TelnetMudConnection) : Loop.Ctl TelnetMudConnection TelnetMudConnection :=
  if c.cmdbuff.length > 0 then
    let check := find c.cmdbuff TelnetCode.LF
    if check = c.cmdbuff.length then .done c
    else
      let cmd := trim (c.cmdbuff.take (check + 1))
      let c := { c with cmdbuff := c.cmdbuff.drop (check + 1) }
      .next (if c.onCommandCB then c.record (.onCommandCB cmd) else c)
  else .done c

lemma commandTurn_shortens (c d : TelnetMudConnection) (h : c.commandTurn = .next d) :
    d.cmdbuff.length < c.cmdbuff.length := by
  unfold commandTurn at h
  dsimp only at h
  split_ifs at h with hpos hend hcb
  · cases h
    simp only [record, List.length_drop]
    omega
  · cases h
    simp only [List.length_drop]
    omega

def onReceiveAppData (c : TelnetMudConnection) (data : Bytes) : TelnetMudConnection :=
  Loop.execute commandTurn (fun c => c.cmdbuff.length) commandTurn_shortens
    { c with cmdbuff := c.cmdbuff ++ data }

def onReceiveNegotiation (c : TelnetMudConnection) (command option : TelnetCode) :
    TelnetMudConnection :=
  match c.options.find? option with
  | some _ => c.onOption option fun op => op.negotiate command
  | none =>
    if command = TelnetCode.WILL then c.sendNegotiate TelnetCode.DONT option
    else if command = TelnetCode.DO then c.sendNegotiate TelnetCode.WONT option
    else c

def onReceiveSubnegotiation (c : TelnetMudConnection) (option : TelnetCode) (data : Bytes) :
    TelnetMudConnection :=
  match c.options.find? option with
  | some _ => c.record (.receiveSubnegotiate option data)
  | none => c

def onReceiveCommand (c : TelnetMudConnection) (_code : TelnetCode) : TelnetMudConnection := c

def onReceiveMessage (c : TelnetMudConnection) (msg : TelnetMessage) : TelnetMudConnection :=
  let c := c.record (.onReceiveMessage msg)
  match msg with
  | .appData data => c.onReceiveAppData data
  | .command code => c.onReceiveCommand code
  | .negotiation command option => c.onReceiveNegotiation command option
  | .subnegotiation option data => c.onReceiveSubnegotiation option data

end TelnetMudConnection

end ForgeMush
