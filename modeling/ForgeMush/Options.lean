import ForgeMush.Codes

/-!
`TelnetOption`: one option of a connection, and the negotiation of its two sides.

The local side is opened by our WILL and the peer's DO, the remote side by our DO and the
peer's WILL. A method returns the option as it leaves it and the calls it makes on the
connection and on its own hooks, in order. None of these calls reads or changes the option,
so the connection carries them out afterwards.
-/

namespace ForgeMush

inductive Side | localSide | remoteSide
  deriving DecidableEq

/-- The side as the peer sees it. -/
def Side.other : Side → Side
  | .localSide => .remoteSide
  | .remoteSide => .localSide

/-- What our end opens the side with. -/
def Side.request : Side → TelnetCode
  | .localSide => TelnetCode.WILL
  | .remoteSide => TelnetCode.DO

/-- What our end declines the side with. -/
def Side.refusal : Side → TelnetCode
  | .localSide => TelnetCode.WONT
  | .remoteSide => TelnetCode.DONT

/-- The command that asks for the side, or refuses it. -/
def Side.command (side : Side) (m : Bool) : TelnetCode := if m then side.request else side.refusal

@[simp] lemma Side.other_other (side : Side) : side.other.other = side := by
  cases side <;> rfl

lemma Side.request_ne_refusal (side side' : Side) : side.request ≠ side'.refusal := by
  cases side <;> cases side' <;> decide

lemma Side.request_inj {side side' : Side} : side.request = side'.request ↔ side = side' := by
  cases side <;> cases side' <;> decide

lemma Side.exists_request {command : TelnetCode} :
    (∃ side : Side, command = side.request) ↔
      command = TelnetCode.WILL ∨ command = TelnetCode.DO := by
  constructor
  · rintro ⟨side, rfl⟩
    cases side
    · exact Or.inl rfl
    · exact Or.inr rfl
  · rintro (h | h)
    · exact ⟨.localSide, h⟩
    · exact ⟨.remoteSide, h⟩

/-- The calls the model keeps a record of. -/
inductive Call
  | onReceiveMessage (msg : TelnetMessage)
  | sendNegotiate (command option : TelnetCode)
  | enable (side : Side) (option : TelnetCode)
  | disable (side : Side) (option : TelnetCode)
  | processHandshake (side : Side) (option : TelnetCode)
  | receiveSubnegotiate (option : TelnetCode) (data : Bytes)
  | onCommandCB (cmd : Bytes)
  | onReady
  | onConnectCB
  deriving DecidableEq

/-- Neither a message handed on nor a negotiation sent. -/
def Call.isNote : Call → Bool
  | .onReceiveMessage _ => false
  | .sendNegotiate _ _ => false
  | _ => true

/-- What a subclass of `TelnetOption` overrides. The defaults are those of the base class. -/
structure OptionClass where
  opCode : TelnetCode
  startWill : Bool := false
  startDo : Bool := false
  supportLocal : Bool := false
  supportRemote : Bool := false
  deriving DecidableEq

/-- What a class starts, it supports. -/
structure OptionClass.Coherent (k : OptionClass) : Prop where
  startWill : k.startWill = true → k.supportLocal = true
  startDo : k.startDo = true → k.supportRemote = true

/-- Classes to register options of, one after the other. -/
structure OptionSet where
  classes : List OptionClass
  coherent : ∀ k ∈ classes, k.Coherent

def MXPOption : OptionClass := { opCode := TelnetCode.MXP }

structure TelnetOptionPerspective where
  enabled : Bool := false
  negotiating : Bool := false
  answered : Bool := false
  deriving DecidableEq

/-- An option object. The fields `local` and `remote` of the source are `localSide` and
`remoteSide`. -/
structure TelnetOption extends OptionClass where
  localSide : TelnetOptionPerspective := {}
  remoteSide : TelnetOptionPerspective := {}
  deriving DecidableEq

namespace TelnetOption

def new (k : OptionClass) : TelnetOption := { toOptionClass := k }

def perspective (op : TelnetOption) : Side → TelnetOptionPerspective
  | .localSide => op.localSide
  | .remoteSide => op.remoteSide

def setPerspective (op : TelnetOption) (p : TelnetOptionPerspective) : Side → TelnetOption
  | .localSide => { op with localSide := p }
  | .remoteSide => { op with remoteSide := p }

def starts (op : TelnetOption) : Side → Bool
  | .localSide => op.startWill
  | .remoteSide => op.startDo

def supports (op : TelnetOption) : Side → Bool
  | .localSide => op.supportLocal
  | .remoteSide => op.supportRemote

def negotiate (op : TelnetOption) (command : TelnetCode) : TelnetOption × List Call :=
  if command = TelnetCode.DO then
    ({ op with remoteSide.negotiating := true }, [.sendNegotiate command op.opCode])
  else if command = TelnetCode.WILL then
    ({ op with localSide.negotiating := true }, [.sendNegotiate command op.opCode])
  else (op, [])

def onConnect (op : TelnetOption) : TelnetOption × List Call :=
  let will := if op.startWill then op.negotiate TelnetCode.WILL else (op, [])
  let ask := if will.1.startDo then will.1.negotiate TelnetCode.DO else (will.1, [])
  (ask.1, will.2 ++ ask.2)

/-- The negotiations that `onConnect` sends. -/
def offers (op : TelnetOption) : List Negotiation :=
  (if op.startWill then [(TelnetCode.WILL, op.opCode)] else []) ++
    if op.startDo then [(TelnetCode.DO, op.opCode)] else []

lemma onConnect_calls (op : TelnetOption) :
    op.onConnect.2 = op.offers.map fun m => .sendNegotiate m.1 m.2 := by
  obtain ⟨⟨code, w, d, l, r⟩, lp, rp⟩ := op
  cases w <;> cases d <;> rfl

/-- The WILL and DO branches of `receiveNegotiate`: the peer opens a side, or agrees to. -/
def receiveRequest (op : TelnetOption) (side : Side) : TelnetOption × List Call :=
  let p := op.perspective side
  if op.supports side then
    if p.negotiating then
      let p := { p with negotiating := false }
      if !p.enabled then
        let p := { p with enabled := true }
        if !p.answered then
          (op.setPerspective { p with answered := true } side,
            [.enable side op.opCode, .processHandshake side op.opCode])
        else (op.setPerspective p side, [.enable side op.opCode])
      else (op.setPerspective p side, [])
    else
      let p := { p with enabled := true }
      let calls := [.sendNegotiate side.request op.opCode, .enable side op.opCode]
      if !p.answered then
        (op.setPerspective { p with answered := true } side,
          calls ++ [.processHandshake side op.opCode])
      else (op.setPerspective p side, calls)
  else (op, [.sendNegotiate side.refusal op.opCode])

/-- The WONT and DONT branches of `receiveNegotiate`. The side stays enabled if it was. -/
def receiveRefusal (op : TelnetOption) (side : Side) : TelnetOption × List Call :=
  let p := op.perspective side
  let off := if p.enabled then [.disable side op.opCode] else []
  if p.negotiating then
    let p := { p with negotiating := false }
    if !p.answered then
      (op.setPerspective { p with answered := true } side,
        off ++ [.processHandshake side op.opCode])
    else (op.setPerspective p side, off)
  else (op, off)

def receiveNegotiate (op : TelnetOption) (command : TelnetCode) : TelnetOption × List Call :=
  if command = TelnetCode.WILL then op.receiveRequest .remoteSide
  else if command = TelnetCode.DO then op.receiveRequest .localSide
  else if command = TelnetCode.WONT then op.receiveRefusal .remoteSide
  else if command = TelnetCode.DONT then op.receiveRefusal .localSide
  else (op, [])

/-! ### What the methods leave alone -/

@[simp] lemma setPerspective_class (op : TelnetOption) (p : TelnetOptionPerspective)
    (side : Side) : (op.setPerspective p side).toOptionClass = op.toOptionClass := by
  cases side <;> rfl

lemma perspective_setPerspective_of_ne (op : TelnetOption) (p : TelnetOptionPerspective)
    {side other : Side} (h : other ≠ side) :
    (op.setPerspective p side).perspective other = op.perspective other := by
  cases side <;> cases other <;> first | rfl | exact absurd rfl h

@[simp] lemma negotiate_class (op : TelnetOption) (command : TelnetCode) :
    (op.negotiate command).1.toOptionClass = op.toOptionClass := by
  unfold negotiate
  split_ifs <;> rfl

@[simp] lemma onConnect_class (op : TelnetOption) :
    op.onConnect.1.toOptionClass = op.toOptionClass := by
  unfold onConnect
  dsimp only
  split_ifs <;> simp

@[simp] lemma receiveRequest_class (op : TelnetOption) (side : Side) :
    (op.receiveRequest side).1.toOptionClass = op.toOptionClass := by
  unfold receiveRequest
  dsimp only
  split_ifs <;> simp

@[simp] lemma receiveRefusal_class (op : TelnetOption) (side : Side) :
    (op.receiveRefusal side).1.toOptionClass = op.toOptionClass := by
  unfold receiveRefusal
  dsimp only
  split_ifs <;> simp

@[simp] lemma receiveNegotiate_class (op : TelnetOption) (command : TelnetCode) :
    (op.receiveNegotiate command).1.toOptionClass = op.toOptionClass := by
  unfold receiveNegotiate
  split_ifs <;> simp

end TelnetOption

end ForgeMush
