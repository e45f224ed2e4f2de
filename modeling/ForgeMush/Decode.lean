import ForgeMush.Receive
import ForgeMush.TelnetStream
import Mathlib.Algebra.Order.Group.Nat

/-!
What `onReceive` makes of a stream without subnegotiations, and when that is the telnet
reading of it.

A byte that is not IAC makes `onReceive` look for the next IAC, which its search never
finds; so it hands on all of `inbox` as application data, sequences included. Otherwise it
reads as the reference does.
-/

namespace ForgeMush

open TelnetStream

/-! ### Messages with adjacent application data merged -/

/-- A byte of application data, or a message of another kind. -/
inductive Piece
  | byte (b : UInt8)
  | command (code : TelnetCode)
  | negotiation (command option : TelnetCode)
  | subnegotiation (option : TelnetCode) (data : Bytes)

def TelnetMessage.pieces : TelnetMessage → List Piece
  | .appData data => data.map .byte
  | .command code => [.command code]
  | .negotiation cmd option => [.negotiation cmd option]
  | .subnegotiation option data => [.subnegotiation option data]

def pieces (ms : List TelnetMessage) : List Piece := ms.flatMap TelnetMessage.pieces

/-- Every maximal run of bytes as one message. -/
def group : List Piece → List TelnetMessage
  | [] => []
  | .byte b :: ps =>
    match group ps with
    | .appData data :: ms => .appData (b :: data) :: ms
    | ms => .appData [b] :: ms
  | .command code :: ps => .command code :: group ps
  | .negotiation cmd option :: ps => .negotiation cmd option :: group ps
  | .subnegotiation option data :: ps => .subnegotiation option data :: group ps

/-- The messages with adjacent application data merged into one message. -/
def mergeAppData (ms : List TelnetMessage) : List TelnetMessage := group (pieces ms)

lemma pieces_group (ps : List Piece) : pieces (group ps) = ps := by
  induction ps with
  | nil => rfl
  | cons p ps ih =>
      cases p with
      | byte b =>
          rw [group]
          split
          · next data ms heq =>
              rw [heq] at ih
              simpa [pieces, TelnetMessage.pieces] using ih
          · simpa [pieces, TelnetMessage.pieces] using ih
      | _ => simpa [group, pieces, TelnetMessage.pieces] using ih

lemma mergeAppData_inj {ms ns : List TelnetMessage} :
    mergeAppData ms = mergeAppData ns ↔ pieces ms = pieces ns := by
  constructor
  · intro h
    rw [← pieces_group (pieces ms), ← pieces_group (pieces ns)]
    exact congrArg pieces h
  · exact fun h => congrArg group h

@[simp] lemma pieces_nil : pieces [] = [] := rfl
@[simp] lemma pieces_cons (m : TelnetMessage) (ms : List TelnetMessage) :
    pieces (m :: ms) = m.pieces ++ pieces ms := rfl
lemma pieces_append (ms ns : List TelnetMessage) :
    pieces (ms ++ ns) = pieces ms ++ pieces ns := List.flatMap_append

/-! ### What the code reads -/

/-- What `onReceive` hands on for a stream with the tokens `ts` and the rest `r`, and what it
leaves in `inbox`. -/
def codeReading : List Token → Bytes → List TelnetMessage × Bytes
  | [], r => ([], r)
  | .data b _ :: ts, r => ([.appData (b :: (ts.flatMap Token.bytes ++ r))], [])
  | t :: ts, r => (t.message :: (codeReading ts r).1, (codeReading ts r).2)

/-- The bytes a piece takes at least on the wire. -/
def Piece.weight : Piece → ℕ
  | .byte b => if b = TelnetCode.IAC then 2 else 1
  | .command _ => 2
  | .negotiation _ _ => 3
  | .subnegotiation _ _ => 0

def weight : List Piece → ℕ
  | [] => 0
  | p :: ps => p.weight + weight ps

lemma weight_append (ps qs : List Piece) : weight (ps ++ qs) = weight ps + weight qs := by
  induction ps with
  | nil => simp [weight]
  | cons p ps ih =>
      rw [List.cons_append, weight, weight, ih]
      omega

lemma weight_message (t : Token) : weight t.message.pieces = t.bytes.length := by
  cases t with
  | data b hb => simp [weight, Token.message, TelnetMessage.pieces, Piece.weight, Token.bytes, hb]
  | _ => rfl

lemma weight_tokens (ts : List Token) :
    weight (pieces (ts.map Token.message)) = (ts.flatMap Token.bytes).length := by
  induction ts with
  | nil => rfl
  | cons t ts ih =>
      rw [List.map_cons, pieces_cons, weight_append, weight_message, ih, List.flatMap_cons,
        List.length_append]

lemma weight_bytes (l : Bytes) :
    weight (l.map .byte) = l.length + l.count TelnetCode.IAC := by
  induction l with
  | nil => rfl
  | cons b l ih =>
      have hcons : weight ((b :: l).map .byte) = Piece.weight (.byte b) + weight (l.map .byte) :=
        rfl
      rw [hcons, ih, List.length_cons, List.count_cons]
      by_cases hb : b = TelnetCode.IAC
      · simp [Piece.weight, hb]
        omega
      · simp [Piece.weight, hb]
        omega

lemma pieces_of_isData {ts : List Token} (h : ∀ t ∈ ts, t.isData = true) :
    pieces (ts.map Token.message) = (ts.flatMap Token.bytes).map .byte := by
  induction ts with
  | nil => rfl
  | cons t ts ih =>
      have := ih fun u hu => h u (by simp [hu])
      cases t with
      | data b hb => simp [Token.message, TelnetMessage.pieces, Token.bytes, this]
      | _ => simp [Token.isData] at h

lemma codeReading_of_dataLast {ts : List Token} {r : Bytes} (h : DataLast ts r) :
    pieces (codeReading ts r).1 = pieces (ts.map Token.message) ∧ (codeReading ts r).2 = r := by
  induction ts with
  | nil => exact ⟨rfl, rfl⟩
  | cons t ts ih =>
      cases t with
      | data b hb =>
          obtain ⟨hall, rfl⟩ : (∀ u ∈ ts, u.isData = true) ∧ r = [] := h
          refine ⟨?_, rfl⟩
          simp [codeReading, Token.message, TelnetMessage.pieces, pieces_of_isData hall]
      | _ =>
          obtain ⟨h1, h2⟩ := ih h
          exact ⟨by simp [codeReading, h1], h2⟩

lemma codeReading_of_noData {ts : List Token} (h : ∀ t ∈ ts, t.isData = false) (r : Bytes) :
    codeReading ts r = (ts.map Token.message, r) := by
  induction ts with
  | nil => rfl
  | cons t ts ih =>
      have hrest := ih fun u hu => h u (List.mem_cons_of_mem _ hu)
      cases t with
      | data b hb => cases h _ List.mem_cons_self
      | _ => simp [codeReading, hrest]

/-- Elsewhere it hands on an IAC of a sequence as data, which then weighs too much. -/
lemma lt_weight_codeReading {ts : List Token} {r : Bytes} (h : ¬ DataLast ts r)
    (hr : r ≠ [] → TelnetCode.IAC ∈ r) :
    (ts.flatMap Token.bytes).length + r.length <
      weight (pieces (codeReading ts r).1) + (codeReading ts r).2.length := by
  induction ts with
  | nil => exact absurd trivial h
  | cons t ts ih =>
      cases t with
      | data b hb =>
          have hmem : TelnetCode.IAC ∈ b :: (ts.flatMap Token.bytes ++ r) := by
            by_contra hno
            simp only [List.mem_cons, List.mem_append, List.mem_flatMap, not_or] at hno
            refine h ⟨fun t ht => ?_, ?_⟩
            · by_contra ht'
              exact hno.2.1 ⟨t, ht, IAC_mem_bytes_iff.mpr (by simpa using ht')⟩
            · by_contra hne
              exact hno.2.2 (hr hne)
          have hcount := List.count_pos_iff.mpr hmem
          have hw := weight_bytes (b :: (ts.flatMap Token.bytes ++ r))
          simp only [codeReading, pieces_cons, pieces_nil, List.append_nil,
            TelnetMessage.pieces, hw, List.flatMap_cons, Token.bytes]
          simp only [List.length_cons, List.length_append, List.length_nil] at *
          omega
      | _ =>
          have := ih h
          simp only [codeReading, pieces_cons, weight_append, weight_message,
            List.flatMap_cons, List.length_append]
          omega

/-- **When the code reads right**: exactly on the streams in whose reading no IAC comes after
a plain byte. -/
theorem codeReading_eq_decode_iff (w : Bytes) :
    (mergeAppData (codeReading (tokens w) (rest w)).1 = mergeAppData (decode w).1 ∧
      (codeReading (tokens w) (rest w)).2 = (decode w).2) ↔ Orderly w := by
  constructor
  · rintro ⟨hms, hrest⟩
    by_contra hno
    have hlt := lt_weight_codeReading hno IAC_mem_rest
    rw [mergeAppData_inj.mp hms, hrest] at hlt
    simp only [decode, weight_tokens] at hlt
    omega
  · intro h
    obtain ⟨h1, h2⟩ := codeReading_of_dataLast h
    exact ⟨mergeAppData_inj.mpr h1, h2⟩

namespace TelnetMudConnection

lemma keeps_inbox (l : Bytes) : Keeps fun c => c.inbox = l where
  record _ _ _ h := h
  cmdbuff _ _ h := h
  options _ _ h := h
  sendNegotiate c command option h := by
    simp [TelnetMudConnection.sendNegotiate, send_eq, TelnetMudConnection.record, h]

lemma keeps_received (l : List TelnetMessage) : Keeps fun c => c.received = l where
  record c k hk h := by
    cases k with
    | onReceiveMessage msg => cases hk
    | sendNegotiate command option => cases hk
    | _ => simpa [received, TelnetMudConnection.record] using h
  cmdbuff _ _ h := h
  options _ _ h := h
  sendNegotiate c command option h := by
    simpa [received, TelnetMudConnection.sendNegotiate, send_eq, TelnetMudConnection.record]
      using h

@[simp] lemma onReceiveMessage_inbox (c : TelnetMudConnection) (msg : TelnetMessage) :
    (c.onReceiveMessage msg).inbox = c.inbox :=
  (keeps_inbox c.inbox).onReceiveMessage rfl

@[simp] lemma onReceiveMessage_received (c : TelnetMudConnection) (msg : TelnetMessage) :
    (c.onReceiveMessage msg).received = c.received ++ [msg] :=
  (keeps_received _).onReceiveMessage (by simp [received, record])

@[simp] lemma consume_received (c : TelnetMudConnection) (n : ℕ) :
    (c.consume n).received = c.received := rfl

/-! ### One turn of the outer loop -/

variable {c : TelnetMudConnection}

lemma outerTurn_nil (h : c.inbox = []) : c.outerTurn = .done (.ok c) := by
  simp [outerTurn, h]

lemma outerTurn_IAC (h : c.inbox = [TelnetCode.IAC]) : c.outerTurn = .done (.ok c) := by
  simp [outerTurn, h]

lemma outerTurn_escaped {w : Bytes} (h : c.inbox = TelnetCode.IAC :: TelnetCode.IAC :: w) :
    c.outerTurn =
      .next (.outer ((c.onReceiveMessage (.appData [TelnetCode.IAC])).consume 2)) := by
  simp [outerTurn, h]

lemma outerTurn_unfinished {code : TelnetCode} (h : c.inbox = [TelnetCode.IAC, code])
    (hc : code ≠ TelnetCode.IAC) (hn : TelnetCode.isNegotiation code = true) :
    c.outerTurn = .done (.ok c) := by
  simp [outerTurn, h, hc, hn]

lemma outerTurn_negotiation {code option : TelnetCode} {w : Bytes}
    (h : c.inbox = TelnetCode.IAC :: code :: option :: w)
    (hc : code ≠ TelnetCode.IAC) (hn : TelnetCode.isNegotiation code = true) :
    c.outerTurn =
      .next (.outer ((c.onReceiveMessage (.negotiation code option)).consume 3)) := by
  simp [outerTurn, h, hc, hn]

lemma outerTurn_command {code : TelnetCode} {w : Bytes}
    (h : c.inbox = TelnetCode.IAC :: code :: w) (hc : code ≠ TelnetCode.IAC)
    (hn : ¬ TelnetCode.isNegotiation code = true) (hs : code ≠ TelnetCode.SB) :
    c.outerTurn = .next (.outer ((c.onReceiveMessage (.command code)).consume 2)) := by
  simp [outerTurn, h, hc, hn, hs]

lemma outerTurn_data {b : UInt8} {w : Bytes} (h : c.inbox = b :: w)
    (hb : b ≠ TelnetCode.IAC) :
    c.outerTurn =
      .next (.outer ((c.consume (w.length + 1)).onReceiveMessage (.appData (b :: w)))) := by
  simp [outerTurn, h, hb, find_IAC]

/-- **What `onReceive` does** with an `inbox` in which no subnegotiation begins: it returns,
having handed on and left what `codeReading` says. -/
theorem onReceive_codeReading (w : Bytes) (hw : NoSubnegotiation w)
    (c : TelnetMudConnection) (h : c.inbox = w) :
    ∃ d, OnReceive c d ∧ d.received = c.received ++ (codeReading (tokens w) (rest w)).1 ∧
      d.inbox = (codeReading (tokens w) (rest w)).2 := by
  induction w using reading.induct generalizing c with
  | case1 =>
      refine ⟨c, (Loop.yields_done (outerTurn_nil h)).mpr rfl, ?_, ?_⟩ <;>
        simp [tokens, rest, codeReading, h]
  | case2 =>
      refine ⟨c, (Loop.yields_done (outerTurn_IAC h)).mpr rfl, ?_, ?_⟩ <;>
        simp [tokens, rest, reading, codeReading, h]
  | case3 w ih =>
      obtain ⟨d, hd, hr, hi⟩ := ih (by simpa [NoSubnegotiation, rest, reading_escaped] using hw)
        ((c.onReceiveMessage (.appData [TelnetCode.IAC])).consume 2) (by simp [consume, h])
      refine ⟨d, (Loop.yields_next (outerTurn_escaped h)).mpr hd, ?_, ?_⟩
      · simp [hr, tokens, rest, reading_escaped, codeReading, Token.message]
      · simp [hi, tokens, rest, reading_escaped, codeReading]
  | case4 code hc hn =>
      refine ⟨c, (Loop.yields_done (outerTurn_unfinished h hc hn)).mpr rfl, ?_, ?_⟩ <;>
        simp [tokens, rest, reading, codeReading, h, hc, hn]
  | case5 code hc hn option w ih =>
      obtain ⟨d, hd, hr, hi⟩ := ih
        (by simpa [NoSubnegotiation, rest, reading_negotiation hc hn] using hw)
        ((c.onReceiveMessage (.negotiation code option)).consume 3) (by simp [consume, h])
      refine ⟨d, (Loop.yields_next (outerTurn_negotiation h hc hn)).mpr hd, ?_, ?_⟩
      · simp [hr, tokens, rest, reading_negotiation hc hn, codeReading, Token.message]
      · simp [hi, tokens, rest, reading_negotiation hc hn, codeReading]
  | case6 w _ _ =>
      refine absurd ?_ hw
      rw [rest, reading_sub]
      exact ⟨w, rfl⟩
  | case7 code w hc hn hs ih =>
      obtain ⟨d, hd, hr, hi⟩ := ih
        (by simpa [NoSubnegotiation, rest, reading_command hc hn hs] using hw)
        ((c.onReceiveMessage (.command code)).consume 2) (by simp [consume, h])
      refine ⟨d, (Loop.yields_next (outerTurn_command h hc hn hs)).mpr hd, ?_, ?_⟩
      · simp [hr, tokens, rest, reading_command hc hn hs, codeReading, Token.message]
      · simp [hi, tokens, rest, reading_command hc hn hs, codeReading]
  | case8 b w hb _ =>
      -- everything goes out as data in this turn, and the next one finds `inbox` empty
      set e := (c.consume (w.length + 1)).onReceiveMessage (.appData (b :: w)) with he
      have hempty : e.inbox = [] := by simp [he, consume, h]
      refine ⟨e, (Loop.yields_next (outerTurn_data h hb)).mpr
        ((Loop.yields_done (outerTurn_nil hempty)).mpr rfl), ?_, ?_⟩
      · have := bytes_reading w
        rw [tokens, rest, reading_data hb, codeReading, this]
        simp [he]
      · simp [hempty, tokens, reading_data hb, codeReading]

/-! ### Successive reads -/

/-- The reads `reads` all return; what they hand on, application data merged, and what they
leave in `inbox`. -/
def Outcome (c : TelnetMudConnection) (reads : List Bytes) (ms : List TelnetMessage)
    (left : Bytes) : Prop :=
  ∃ d new, Reads c reads d ∧ d.received = c.received ++ new ∧ mergeAppData new = ms ∧
    d.inbox = left

/-- Reading the stream `w` in the parts `reads` comes to what reading it at once comes to,
and to what the reference says. -/
def FollowsTelnet (c : TelnetMudConnection) (w : Bytes) (reads : List Bytes) : Prop :=
  Outcome c reads (mergeAppData (decode w).1) (decode w).2 ∧
    Outcome c [w] (mergeAppData (decode w).1) (decode w).2

/-- Reading on behind the stream `u`. Where there is no data, nothing needs to be merged. -/
lemma reads_of_orderly (reads : List Bytes) (u : Bytes) (c : TelnetMudConnection)
    (hno : NoSubnegotiation (u ++ reads.flatten)) (hord : Orderly (u ++ reads.flatten))
    (hc : c.inbox = rest u) :
    ∃ d new, Reads c reads d ∧ d.received = c.received ++ new ∧
      pieces (decode u).1 ++ pieces new = pieces (decode (u ++ reads.flatten)).1 ∧
      d.inbox = rest (u ++ reads.flatten) ∧
      ((∀ t ∈ tokens (u ++ reads.flatten), t.isData = false) →
        (decode u).1 ++ new = (decode (u ++ reads.flatten)).1) := by
  induction reads generalizing u c with
  | nil => exact ⟨c, [], rfl, by simp, by simp, by simpa using hc, by simp⟩
  | cons x xs ih =>
      rw [List.flatten_cons, ← List.append_assoc] at hno hord ⊢
      have hu : NoSubnegotiation u := hno.left.left
      -- the read of `x` finds `rest u ++ x` in `inbox`
      obtain ⟨e, he, hre, hie⟩ := onReceive_codeReading (rest u ++ x) hno.left.right
        { c with inbox := c.inbox ++ x } (by simp [hc])
      obtain ⟨hp, hi⟩ := codeReading_of_dataLast ((hord.left hno.left).right hu)
      rw [hi, ← rest_append hu] at hie
      obtain ⟨d, new, hd, hrd, hpd, hid, hexact⟩ := ih (u ++ x) e hno hord hie
      have hux : (decode (u ++ x)).1 = (decode u).1 ++ (decode (rest u ++ x)).1 := by
        simp only [decode, tokens_append hu, List.map_append]
      refine ⟨d, (codeReading (tokens (rest u ++ x)) (rest (rest u ++ x))).1 ++ new,
        ⟨e, he, hd⟩, ?_, ?_, hid, fun hdata => ?_⟩
      · rw [hrd, hre]
        simp [received]
      · rw [← hpd, hux, pieces_append, pieces_append, hp, List.append_assoc]
        rfl
      · have hpart : ∀ t ∈ tokens (rest u ++ x), t.isData = false := by
          intro t ht
          rw [tokens_append hno.left, tokens_append hu] at hdata
          exact hdata t (List.mem_append_left _ (List.mem_append_right _ ht))
        rw [codeReading_of_noData hpart, ← hexact hdata, hux, List.append_assoc]
        rfl

lemma Read.unique {c d e : TelnetMudConnection} {data : Bytes} (h : Read c data d)
    (h' : Read c data e) : d = e :=
  Except.ok.inj (Loop.Yields.unique h h')

lemma orderly_of_outcome {c : TelnetMudConnection} (hc : c.inbox = []) {w : Bytes}
    (hw : NoSubnegotiation w)
    (h : Outcome c [w] (mergeAppData (decode w).1) (decode w).2) : Orderly w := by
  obtain ⟨d, new, ⟨e, he, rfl⟩, hr, hms, hi⟩ := h
  obtain ⟨e', he', hr', hi'⟩ := onReceive_codeReading w hw { c with inbox := c.inbox ++ w }
    (by simp [hc])
  obtain rfl := he.unique he'
  have hnew : new = (codeReading (tokens w) (rest w)).1 := by
    rw [hr] at hr'
    exact List.append_cancel_left hr'
  rw [hnew] at hms
  exact (codeReading_eq_decode_iff w).mp ⟨hms, by rw [← hi', hi]⟩

lemma outcome_of_orderly {c : TelnetMudConnection} (hc : c.inbox = []) {reads : List Bytes}
    (hw : NoSubnegotiation reads.flatten) (h : Orderly reads.flatten) :
    Outcome c reads (mergeAppData (decode reads.flatten).1) (decode reads.flatten).2 := by
  obtain ⟨d, new, hd, hr, hp, hi, -⟩ := reads_of_orderly reads [] c (by simpa using hw)
    (by simpa using h) (by simpa [rest] using hc)
  exact ⟨d, new, hd, hr, mergeAppData_inj.mpr (by simpa [decode, tokens] using hp),
    by simpa [decode] using hi⟩

/-- **Reading a stream in any parts follows telnet exactly when no IAC comes after a plain
byte in the stream.** -/
theorem reads_follow_telnet_iff (c : TelnetMudConnection) (hc : c.inbox = []) (w : Bytes)
    (hw : NoSubnegotiation w) (reads : List Bytes) (hcut : reads.flatten = w) :
    FollowsTelnet c w reads ↔ Orderly w := by
  subst hcut
  constructor
  · exact fun h => orderly_of_outcome hc hw h.2
  · intro h
    have hone : [reads.flatten].flatten = reads.flatten := by simp
    have hall := outcome_of_orderly hc (hone.symm ▸ hw) (hone.symm ▸ h)
    rw [hone] at hall
    exact ⟨outcome_of_orderly hc hw h, hall⟩

/-- An escaped IAC and a command, then plain text, cut inside the command. -/
theorem split_command_follows_telnet :
    FollowsTelnet (new 0 false true) [255, 255, 255, 241, 104, 105]
      [[255, 255, 255], [241, 104, 105]] :=
  (reads_follow_telnet_iff (new 0 false true) rfl _ (by decide) _ rfl).mpr (by decide)

/-- The letter `h` and then IAC WILL 1, in one read. -/
theorem text_then_command_does_not_follow_telnet :
    NoSubnegotiation [104, 255, 251, 1] ∧
      ¬ FollowsTelnet (new 0 false true) [104, 255, 251, 1] [[104, 255, 251, 1]] := by
  refine ⟨by decide, fun h => ?_⟩
  have hord := orderly_of_outcome (c := new 0 false true) rfl (by decide) h.2
  exact absurd hord (by decide)

end TelnetMudConnection

end ForgeMush
