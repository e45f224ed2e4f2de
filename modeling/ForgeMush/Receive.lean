import ForgeMush.Connection
import Mathlib.Tactic.SplitIfs

/-!
`TelnetMudConnection::onReceive`: cutting what has been read into telnet messages.

The two nested loops of the source are one loop here, whose states are the heads of the two
`while`s. What a call of `onReceive` does is what the loop yields; a call that never returns
yields nothing.
-/

namespace ForgeMush

/-- `std::length_error`, thrown for a string that should be longer than any string. -/
inductive Exception | lengthError

/-- The inner loop, which looks for the end of a subnegotiation. Its iterators are indices
into `box`, the bytes `inbox` held when the outer loop came round. -/
structure Scan where
  c : TelnetMudConnection
  box : Bytes
  option : UInt8
  sub : ℕ
  b : ℕ
  escaped : Bool := false
  match1 : Bool := false
  match2 : Bool := false

/-- Where control is: at the head of the outer loop or of the inner one. -/
inductive Frame
  | outer (c : TelnetMudConnection)
  | scan (s : Scan)

abbrev Result := Except Exception TelnetMudConnection

namespace TelnetMudConnection

/-- One turn of `while(inbox.size() > 0)`. -/
def outerTurn (c : TelnetMudConnection) : Loop.Ctl Frame Result :=
  match c.inbox with
  | [] => .done (.ok c)
  | first :: rest =>
    if first = TelnetCode.IAC then
      match rest with
      | [] => .done (.ok c)
      | code :: rest =>
        if code = TelnetCode.IAC then
          .next (.outer ((c.onReceiveMessage (.appData [TelnetCode.IAC])).consume 2))
        else if TelnetCode.isNegotiation code then
          match rest with
          | option :: _ =>
            .next (.outer ((c.onReceiveMessage (.negotiation code option)).consume 3))
          | [] => .done (.ok c)
        else if code = TelnetCode.SB then
          match rest with
          -- at least five bytes in all
          | option :: _ :: _ :: _ =>
            .next (.scan { c := c, box := c.inbox, option := option, sub := 3, b := 3 })
          | _ => .done (.ok c)
        else .next (.outer ((c.onReceiveMessage (.command code)).consume 2))
    else
      let data := c.inbox.take (find c.inbox TelnetCode.IAC)
      .next (.outer ((c.consume data.length).onReceiveMessage (.appData data)))

/-- One turn of `while(b != end)`. The iterator `b` is not moved except one back, before a
byte SB; the string from `sub` to it is then of length -1. -/
def scanTurn (s : Scan) : Loop.Ctl Frame Result :=
  if s.b = s.box.length then .next (.outer s.c)
  else if s.box.getD s.b 0 = TelnetCode.IAC then
    if s.match1 then .next (.scan { s with escaped := true, match1 := false })
    else .next (.scan { s with match1 := true })
  else if s.box.getD s.b 0 = TelnetCode.SB then
    let s := if s.match1 then { s with match2 := true } else s
    let s := { s with b := s.b - 1 }
    if s.b < s.sub then .done (.error .lengthError)
    else
      let data := (s.box.drop s.sub).take (s.b - s.sub)
      let c := (s.c.consume (5 + data.length)).onReceiveMessage (.subnegotiation s.option data)
      .next (.scan { s with c := c })
  else .next (.scan s)

def onReceiveTurn : Frame → Loop.Ctl Frame Result
  | .outer c => c.outerTurn
  | .scan s => scanTurn s

/-- `onReceive`, called on `c`, returns and leaves `d`. -/
def OnReceive (c d : TelnetMudConnection) : Prop :=
  Loop.Yields onReceiveTurn (.outer c) (.ok d)

/-- A read of `data`: committed to `inbox` and followed by `onReceive`. -/
def Read (c : TelnetMudConnection) (data : Bytes) (d : TelnetMudConnection) : Prop :=
  OnReceive { c with inbox := c.inbox ++ data } d

/-- Successive reads. -/
def Reads : TelnetMudConnection → List Bytes → TelnetMudConnection → Prop
  | c, [], d => d = c
  | c, data :: rest, d => ∃ e, Read c data e ∧ Reads e rest d

/-- The messages handed to `onReceiveMessage` so far. -/
def received (c : TelnetMudConnection) : List TelnetMessage :=
  c.calls.filterMap fun
    | .onReceiveMessage msg => some msg
    | _ => none

/-! ### What handling a message keeps -/

/-- `I` does not depend on the bookkeeping of options, commands and calls, and sending a
negotiation keeps it. -/
structure Keeps (I : TelnetMudConnection → Prop) : Prop where
  record : ∀ c k, k.isNote = true → I c → I (c.record k)
  cmdbuff : ∀ (c : TelnetMudConnection) (l : Bytes), I c → I { c with cmdbuff := l }
  options : ∀ (c : TelnetMudConnection) (t : OptionTable), I c → I { c with options := t }
  sendNegotiate : ∀ c command option, I c → I (c.sendNegotiate command option)

variable {I : TelnetMudConnection → Prop}

lemma Keeps.onReceiveAppData (h : Keeps I) {c : TelnetMudConnection} (hc : I c)
    (data : Bytes) : I (c.onReceiveAppData data) := by
  refine (Loop.yields_execute commandTurn_shortens _).invariant ?_ (h.cmdbuff _ _ hc)
  intro d hd
  unfold commandTurn
  dsimp only
  split_ifs
  · exact hd
  · exact h.record _ _ rfl (h.cmdbuff _ _ hd)
  · exact h.cmdbuff _ _ hd
  · exact hd

/-- The dispatcher keeps what sending negotiations keeps and what does not depend on the options. -/
lemma onReceiveNegotiation_keeps
    (hnegotiate : ∀ c command option, I c → I (c.sendNegotiate command option))
    (hoptions : ∀ (c : TelnetMudConnection) (t : OptionTable), I c → I { c with options := t })
    {c : TelnetMudConnection} (hc : I c) (command option : TelnetCode) :
    I (c.onReceiveNegotiation command option) := by
  unfold TelnetMudConnection.onReceiveNegotiation
  cases hop : c.options.find? option with
  | none =>
      dsimp only
      split_ifs
      · exact hnegotiate _ _ _ hc
      · exact hnegotiate _ _ _ hc
      · exact hc
  | some op =>
      simp only [onOption, hop, TelnetOption.negotiate]
      split_ifs
      · exact hnegotiate _ _ _ (hoptions _ _ hc)
      · exact hnegotiate _ _ _ (hoptions _ _ hc)
      · exact hoptions _ _ hc

lemma Keeps.onReceiveNegotiation (h : Keeps I) {c : TelnetMudConnection} (hc : I c)
    (command option : TelnetCode) : I (c.onReceiveNegotiation command option) :=
  onReceiveNegotiation_keeps h.sendNegotiate h.options hc command option

/-- **Handling a message** keeps what taking note of it and sending negotiations keep. -/
theorem Keeps.onReceiveMessage (h : Keeps I) {c : TelnetMudConnection}
    {msg : TelnetMessage} (hc : I (c.record (.onReceiveMessage msg))) :
    I (c.onReceiveMessage msg) := by
  cases msg with
  | appData data => exact h.onReceiveAppData hc data
  | command code => exact hc
  | negotiation command option => exact h.onReceiveNegotiation hc command option
  | subnegotiation option data =>
      simp only [TelnetMudConnection.onReceiveMessage, onReceiveSubnegotiation]
      split
      · exact h.record _ _ rfl hc
      · exact hc

/-- `I` does not depend on `inbox` and the messages handed on either. -/
structure KeepsReading (I : TelnetMudConnection → Prop) : Prop extends Keeps I where
  message : ∀ c msg, I c → I (c.record (.onReceiveMessage msg))
  inbox : ∀ (c : TelnetMudConnection) (l : Bytes), I c → I { c with inbox := l }

lemma KeepsReading.onReceiveMessage' (h : KeepsReading I) {c : TelnetMudConnection}
    (msg : TelnetMessage) (hc : I c) : I (c.onReceiveMessage msg) :=
  h.onReceiveMessage (h.message c msg hc)

/-- What a frame says of its connection. -/
def Frame.Holds (I : TelnetMudConnection → Prop) : Frame → Prop
  | .outer c => I c
  | .scan s => I s.c

def ResultHolds (I : TelnetMudConnection → Prop) : Result → Prop
  | .ok d => I d
  | .error _ => True

lemma KeepsReading.onReceiveTurn (h : KeepsReading I) (f : Frame) (hf : Frame.Holds I f) :
    (onReceiveTurn f).Holds (Frame.Holds I) (ResultHolds I) := by
  cases f with
  | outer c =>
      simp only [TelnetMudConnection.onReceiveTurn, outerTurn]
      split
      · exact hf
      · split_ifs
        · split
          · exact hf
          · split_ifs
            · exact h.inbox _ _ (h.onReceiveMessage' _ hf)
            · split
              · exact h.inbox _ _ (h.onReceiveMessage' _ hf)
              · exact hf
            · split
              · exact hf
              · exact hf
            · exact h.inbox _ _ (h.onReceiveMessage' _ hf)
        · exact h.onReceiveMessage' _ (h.inbox _ _ hf)
  | scan s =>
      have hsub : ∀ n msg, I ((s.c.consume n).onReceiveMessage msg) := fun n msg =>
        h.onReceiveMessage' msg (h.inbox _ _ hf)
      simp only [TelnetMudConnection.onReceiveTurn, scanTurn]
      split_ifs <;> dsimp only [Loop.Ctl.Holds, Frame.Holds, ResultHolds] <;>
        first | exact hf | trivial | exact hsub _ _

/-- **Reading** keeps what does not depend on what is read. -/
theorem KeepsReading.onReceive (h : KeepsReading I) {c d : TelnetMudConnection} (hc : I c)
    (hd : OnReceive c d) : I d := by
  have hstart : Frame.Holds I (.outer c) := hc
  have hend : ResultHolds I (.ok d) := by
    unfold OnReceive at hd
    exact hd.invariant h.onReceiveTurn hstart
  exact hend

lemma KeepsReading.read (h : KeepsReading I) {c d : TelnetMudConnection} {data : Bytes}
    (hc : I c) (hd : Read c data d) : I d :=
  h.onReceive (h.inbox _ _ hc) hd

end TelnetMudConnection

end ForgeMush
