import ForgeMush.Isolation
import ForgeMush.Link

/-!
How much of what a connection sends is ever written.

A write begins where nothing is being written, so that it is one of a single negotiation. One that
is enqueued before the write completes is what its handler finds in `outbox`, and nothing more is
written then. So the answers go out one at a time, and a client that asks for a second thing while
an answer is being written gets that answer and no other.
-/

namespace ForgeMush

open Runs

namespace TelnetMudConnection

variable {c d : TelnetMudConnection} {k : ℕ} {w : Bytes}

lemma take_wireBytes (ms : List Negotiation) (k : ℕ) :
    (wireBytes ms).take (3 * k) = wireBytes (ms.take k) := by
  induction ms generalizing k with
  | nil => simp [wireBytes]
  | cons m ms ih =>
      cases k with
      | zero => rfl
      | succ k =>
          have hcons : wireBytes (m :: ms) = TelnetCode.IAC :: m.1 :: m.2 :: wireBytes ms := rfl
          rw [hcons, Nat.mul_succ, List.take_succ_cons, List.take_succ_cons, List.take_succ_cons,
            ih]
          rfl

lemma send_of_isWriting (h : c.isWriting = true) : c.send = c := by
  unfold TelnetMudConnection.send
  rw [if_neg (by simp [h])]

lemma send_of_outbox_nil (h : c.outbox = []) : c.send = c := by
  unfold TelnetMudConnection.send
  rw [h]
  exact ite_self _

/-- While a write is in flight `outbox` grows and nothing else happens. -/
lemma sendNegotiate_of_isWriting (h : c.isWriting = true) (command option : TelnetCode) :
    c.sendNegotiate command option = { c.record (.sendNegotiate command option) with
      outbox := c.outbox ++ [TelnetCode.IAC, command, option] } :=
  send_of_isWriting h

lemma sendNegotiate_of_idle (h : c.isWriting = false) (houtbox : c.outbox = [])
    (command option : TelnetCode) :
    c.sendNegotiate command option = { c.record (.sendNegotiate command option) with
      outbox := [TelnetCode.IAC, command, option]
      isWriting := true
      writes := c.writes ++ [[TelnetCode.IAC, command, option]] } := by
  rw [TelnetMudConnection.sendNegotiate, send_eq]
  simp [record, h, houtbox]

/-- What `send` reads and writes. -/
structure Output where
  isWriting : Bool
  outbox : Bytes
  writes : List Bytes
  wire : Bytes

def output (c : TelnetMudConnection) : Output := ⟨c.isWriting, c.outbox, c.writes, c.wire⟩

/-- **The output rule**: what `send` and `sendNegotiate` keep of the output is kept by every event
but a completed write. -/
lemma keepsAll_output {I : Output → Prop}
    (hsend : ∀ c : TelnetMudConnection, I c.output → I c.send.output)
    (hnegotiate : ∀ (c : TelnetMudConnection) (command option : TelnetCode), I c.output →
      I (c.sendNegotiate command option).output) :
    KeepsAll fun c => Conserved c ∧ I c.output where
  record _ _ hk h := ⟨h.1.record hk, h.2⟩
  cmdbuff c l h := ⟨keepsAll_conserved.cmdbuff c l h.1, h.2⟩
  options c t h := ⟨keepsAll_conserved.options c t h.1, h.2⟩
  sendNegotiate c command option h :=
    ⟨h.1.sendNegotiate command option, hnegotiate c command option h.2⟩
  message c msg h := ⟨keepsAll_conserved.message c msg h.1, h.2⟩
  inbox c l h := ⟨keepsAll_conserved.inbox c l h.1, h.2⟩
  send c h := ⟨h.1.send, hsend c h.2⟩
  operations c sock i j k h := ⟨keepsAll_conserved.operations c sock i j k h.1, h.2⟩
  handshake c side code h := ⟨keepsAll_conserved.handshake c side code h.1, h.2⟩
  holders c l r h := ⟨keepsAll_conserved.holders c l r h.1, h.2⟩
  finishReady := keeps_finishReady (fun _ _ hk h => ⟨h.1.record hk, h.2⟩)
    fun _ _ _ h => ⟨⟨h.1.one, h.1.front, h.1.writing, h.1.bytes⟩, h.2⟩
  lose c h := ⟨keepsAll_conserved.lose c h.1, h.2⟩

/-! ### One negotiation at a time -/

/-- A write completes. -/
def Event.isWritten : Event → Bool
  | .written _ _ _ => true
  | _ => false

/-- After `k` completed writes there are at most `k` negotiations on the wire, and just as many as
long as a write can begin or is in flight, which is one of a single negotiation. -/
structure OneByOne (k : ℕ) (o : Output) : Prop where
  idle : o.isWriting = false → o.outbox = [] ∧ o.writes = [] ∧ o.wire.length = 3 * k
  single : ∀ buffer ∈ o.writes, buffer.length = 3 ∧ o.wire.length = 3 * k
  wire : o.wire.length ≤ 3 * k

lemma OneByOne.send (h : OneByOne k c.output) : OneByOne k c.send.output := by
  cases hwriting : c.isWriting with
  | true => rwa [send_of_isWriting hwriting]
  | false => rwa [send_of_outbox_nil (h.idle hwriting).1]

lemma OneByOne.sendNegotiate (h : OneByOne k c.output) (command option : TelnetCode) :
    OneByOne k (c.sendNegotiate command option).output := by
  cases hwriting : c.isWriting with
  | true =>
      rw [sendNegotiate_of_isWriting hwriting]
      exact ⟨fun hidle => absurd (hwriting.symm.trans hidle) Bool.noConfusion, h.single, h.wire⟩
  | false =>
      obtain ⟨houtbox, hnone, hwire⟩ := h.idle hwriting
      rw [sendNegotiate_of_idle hwriting houtbox, show c.writes = [] from hnone]
      refine ⟨fun hidle => Bool.noConfusion hidle, fun buffer hbuffer => ?_, h.wire⟩
      rw [List.mem_singleton.mp hbuffer]
      exact ⟨rfl, hwire⟩

lemma keepsAll_oneByOne (k : ℕ) : KeepsAll fun c => Conserved c ∧ OneByOne k c.output :=
  keepsAll_output (fun _ h => h.send) fun _ command option h => h.sendNegotiate command option

/-- The handler begins no write, and what it leaves in `outbox` is not written. -/
lemma OneByOne.written (h : OneByOne k c.output) (hc : Conserved c) {i len : ℕ} {failed : Bool}
    (hstep : Step c (.written i failed len) d) : OneByOne (k + 1) d.output := by
  obtain ⟨buffer, hw, hlen, rfl⟩ := written_cases hc.one hstep
  have hmem : buffer ∈ c.writes := by
    rw [hw]
    exact List.mem_singleton_self _
  obtain ⟨hthree, hwire⟩ := h.single buffer hmem
  have hlong : (c.wire ++ buffer.take len).length = 3 * k + len := by
    rw [List.length_append, List.length_take, Nat.min_eq_left hlen]
    exact congrArg (· + len) hwire
  have hmost : (c.wire ++ buffer.take len).length ≤ 3 * (k + 1) := by omega
  by_cases hlt : len < c.outbox.length
  · have hwriting : c.isWriting = true := hc.writing (List.ne_nil_of_mem hmem)
    rw [sendHandler_of_lt (by exact hwriting) (by exact hlt)]
    exact ⟨fun hidle => absurd (hwriting.symm.trans hidle) Bool.noConfusion,
      fun _ hnone => absurd hnone List.not_mem_nil, hmost⟩
  · have hle : c.outbox.length ≤ len := not_lt.mp hlt
    have hfront := (hc.front buffer hmem).length_le
    have hall : (c.wire ++ buffer.take len).length = 3 * (k + 1) := by omega
    rw [sendHandler_of_le (by exact hle)]
    exact ⟨fun _ => ⟨rfl, rfl, hall⟩, fun _ hnone => absurd hnone List.not_mem_nil, hmost⟩

lemma OneByOne.step {e : Event} (hc : Conserved c) (h : OneByOne k c.output)
    (hstep : Step c e d) :
    Conserved d ∧ OneByOne (k + if e.isWritten then 1 else 0) d.output := by
  cases e with
  | written i failed len => exact ⟨hc.written hstep, h.written hc hstep⟩
  | _ => exact (keepsAll_oneByOne k).step (by simp) ⟨hc, h⟩ hstep

lemma OneByOne.run {tr : List (Event × TelnetMudConnection)} (hc : Conserved c)
    (h : OneByOne k c.output) (hrun : Run Step c tr) : Conserved (final c tr) ∧
      OneByOne (k + (events tr).countP Event.isWritten) (final c tr).output := by
  induction hrun generalizing k with
  | nil c => exact ⟨hc, h⟩
  | @cons c d e tr hstep _ ih =>
      obtain ⟨hd, hone⟩ := h.step hc hstep
      have hfinal := ih hd hone
      rwa [Nat.add_assoc, Nat.add_comm (ite ..), ← List.countP_cons] at hfinal

lemma oneByOne_withOptions (connId : UInt32) (isTLS hasConnectCB : Bool) (ks : List OptionClass) :
    OneByOne 0 (withOptions connId isTLS hasConnectCB ks).output := by
  obtain ⟨ho, hw, -, hwire, -⟩ := withOptions_output connId isTLS hasConnectCB ks
  exact ⟨fun _ => ⟨ho, hw, congrArg List.length hwire⟩, by simp [output, hw],
    by simp [output, hwire]⟩

lemma oneByOne_of_run {connId : UInt32} {isTLS hasConnectCB : Bool} {ks : List OptionClass}
    {tr : List (Event × TelnetMudConnection)}
    (h : Run Step (withOptions connId isTLS hasConnectCB ks).onConnect tr) :
    Conserved (final (withOptions connId isTLS hasConnectCB ks).onConnect tr) ∧
      OneByOne ((events tr).countP Event.isWritten)
        (final (withOptions connId isTLS hasConnectCB ks).onConnect tr).output := by
  obtain ⟨hc, hone⟩ := (keepsAll_oneByOne 0).toKeepsStart.onConnect
    ⟨conserved_withOptions connId isTLS hasConnectCB ks,
      oneByOne_withOptions connId isTLS hasConnectCB ks⟩
  have hrun := hone.run hc h
  rwa [Nat.zero_add] at hrun

/-- **One negotiation is written at a time**: after `k` completed writes there is an initial part
of the first `k` negotiations sent on the wire; and where no write is in flight and one can begin,
these are all that were sent, and the whole of them is written. -/
theorem written_of_run (connId : UInt32) (isTLS hasConnectCB : Bool) (ks : List OptionClass)
    (tr : List (Event × TelnetMudConnection))
    (h : Run Step (withOptions connId isTLS hasConnectCB ks).onConnect tr) :
    (final (withOptions connId isTLS hasConnectCB ks).onConnect tr).wire <+:
      wireBytes ((final (withOptions connId isTLS hasConnectCB ks).onConnect tr).sent.take
        ((events tr).countP Event.isWritten)) ∧
    ((final (withOptions connId isTLS hasConnectCB ks).onConnect tr).isWriting = false →
      (final (withOptions connId isTLS hasConnectCB ks).onConnect tr).sent.length =
        (events tr).countP Event.isWritten ∧
      (final (withOptions connId isTLS hasConnectCB ks).onConnect tr).wire =
        wireBytes (final (withOptions connId isTLS hasConnectCB ks).onConnect tr).sent) := by
  obtain ⟨hconserved, hidle, -, hwire⟩ := oneByOne_of_run h
  have hbytes := hconserved.bytes
  rw [enqueued_eq_wireBytes] at hbytes
  constructor
  · rw [← take_wireBytes, ← hbytes, List.prefix_take_iff]
    exact ⟨List.prefix_append _ _, hwire⟩
  · intro hwriting
    obtain ⟨houtbox, -, hall⟩ := hidle hwriting
    dsimp only [output] at houtbox hall
    rw [houtbox, List.append_nil] at hbytes
    refine ⟨?_, hbytes⟩
    have hlen := length_enqueued (final (withOptions connId isTLS hasConnectCB ks).onConnect tr)
    rw [enqueued_eq_wireBytes, ← hbytes, hall] at hlen
    omega

/-- One negotiation is written whole. Of the two that follow the second is left. -/
theorem third_negotiation_left : ∃ tr : List (Event × TelnetMudConnection),
    events tr = [.sendNegotiate TelnetCode.WILL 1, .written 0 false 3,
      .sendNegotiate TelnetCode.DO 1, .sendNegotiate TelnetCode.WILL 3, .written 0 false 3] ∧
    Run Step (withOptions 0 false true []).onConnect tr ∧
    (final (withOptions 0 false true []).onConnect tr).sent.length = 3 ∧
    (final (withOptions 0 false true []).onConnect tr).wire = [255, 251, 1, 255, 253, 1] ∧
    [255, 251, 1, 255, 253, 1] <+: wireBytes
      ((final (withOptions 0 false true []).onConnect tr).sent.take 2) := by
  have hrun : Run Step (withOptions 0 false true []).onConnect
      [(.sendNegotiate TelnetCode.WILL 1, _), (.written 0 false 3, _),
        (.sendNegotiate TelnetCode.DO 1, _), (.sendNegotiate TelnetCode.WILL 3, _),
        (.written 0 false 3, _)] :=
    .cons rfl (.cons ⟨_, rfl, by decide, by decide, rfl⟩ (.cons rfl (.cons rfl
      (.cons ⟨_, rfl, by decide, by decide, rfl⟩ (.nil _)))))
  exact ⟨_, rfl, hrun, rfl, rfl, (written_of_run 0 false true [] _ hrun).1⟩

/-! ### The last of them -/

/-- What is on the wire is of `w`, and so is what is being written, behind which more is waiting. -/
structure Muting (w : Bytes) (o : Output) : Prop where
  isWriting : o.isWriting = true
  backlog : ∀ buffer ∈ o.writes, buffer.length < o.outbox.length
  wire : o.wire ++ o.writes.flatten <+: w

lemma Muting.sendNegotiate (h : Muting w c.output) (command option : TelnetCode) :
    Muting w (c.sendNegotiate command option).output := by
  rw [sendNegotiate_of_isWriting h.isWriting]
  refine ⟨h.isWriting, fun buffer hbuffer => ?_, h.wire⟩
  exact (h.backlog buffer hbuffer).trans_le (List.prefix_append _ _).length_le

/-- The write in flight leaves something in `outbox`, and so it is the last. -/
lemma Muting.written (h : Muting w c.output) (hc : Conserved c) {i len : ℕ} {failed : Bool}
    (hstep : Step c (.written i failed len) d) : Muting w d.output := by
  obtain ⟨buffer, hw, hlen, rfl⟩ := written_cases hc.one hstep
  have hmem : buffer ∈ c.writes := by
    rw [hw]
    exact List.mem_singleton_self _
  have hmore : len < c.outbox.length := hlen.trans_lt (h.backlog buffer hmem)
  have hwire : c.wire ++ c.writes.flatten <+: w := h.wire
  rw [hw, List.flatten_singleton] at hwire
  rw [sendHandler_of_lt (by exact h.isWriting) (by exact hmore)]
  refine ⟨h.isWriting, fun _ hnone => absurd hnone List.not_mem_nil, ?_⟩
  show c.wire ++ buffer.take len ++ [] <+: w
  rw [List.append_nil]
  exact ((List.prefix_append_right_inj _).mpr (List.take_prefix _ _)).trans hwire

lemma Muting.step {e : Event} (h : Conserved c ∧ Muting w c.output) (hstep : Step c e d) :
    Conserved d ∧ Muting w d.output := by
  cases e with
  | written i failed len => exact ⟨h.1.written hstep, h.2.written h.1 hstep⟩
  | _ =>
      exact (keepsAll_output (I := Muting w)
        (fun c h => (send_of_isWriting (c := c) h.isWriting).symm ▸ h)
        fun _ command option h => h.sendNegotiate command option).step (by simp) h hstep

lemma OneByOne.length_writes_le (h : OneByOne k c.output) (hc : Conserved c) :
    c.writes.flatten.length ≤ 3 := by
  have hone := hc.one
  rcases hw : c.writes with _ | ⟨buffer, _ | ⟨_, _⟩⟩
  · exact Nat.zero_le 3
  · have hmem : buffer ∈ c.writes := by
      rw [hw]
      exact List.mem_singleton_self _
    rw [List.flatten_singleton]
    exact (h.single buffer hmem).1.le
  · simp [hw] at hone

lemma OneByOne.muting (h : OneByOne k c.output)
    (hback : c.writes.flatten.length < c.outbox.length) :
    Muting (c.wire ++ c.writes.flatten) c.output := by
  have hwriting : c.isWriting = true := by
    by_contra hidle
    have hnone : c.outbox = [] := (h.idle (Bool.eq_false_iff.mpr hidle)).1
    rw [hnone] at hback
    exact Nat.not_lt_zero _ hback
  refine ⟨hwriting, fun buffer hbuffer => ?_, List.prefix_rfl⟩
  exact (List.sublist_flatten_of_mem hbuffer).length_le.trans_lt hback

/-- **A backlog is never written**: once there is more in `outbox` than is being written, nothing
else is ever written, whatever happens. -/
lemma wire_of_backlog {connId : UInt32} {isTLS hasConnectCB : Bool} {ks : List OptionClass}
    {tr tr' : List (Event × TelnetMudConnection)}
    (h : Run Step (withOptions connId isTLS hasConnectCB ks).onConnect tr)
    (hc : final (withOptions connId isTLS hasConnectCB ks).onConnect tr = c)
    (hback : c.writes.flatten.length < c.outbox.length) (h' : Run Step c tr') :
    (final c tr').wire <+: c.wire ++ c.writes.flatten ∧ c.writes.flatten.length ≤ 3 := by
  obtain ⟨hconserved, hone⟩ := oneByOne_of_run h
  rw [hc] at hconserved hone
  obtain ⟨-, hmuting⟩ := h'.invariant (I := fun c => Conserved c ∧ Muting _ c.output)
    (fun _ _ _ hm hstep => Muting.step hm hstep) ⟨hconserved, hone.muting hback⟩
  exact ⟨(List.prefix_append _ _).trans hmuting.wire, hone.length_writes_le hconserved⟩

end TelnetMudConnection

namespace Portal

/-- **A client that does not wait for its answer gets no other**: when there is more for a client
in `outbox` than is being written, what is being written is the last that it ever gets, and of one
answer, whatever the client and the rest of the portal do. -/
theorem backlog_final (addresses : List String)
    (sslContexts : Table fun e : String × SslContext => e.1) (onConnectCB : Bool)
    (tr : List (Event × Portal)) (h : Run Step (new addresses sslContexts onConnectCB) tr)
    (i : ℕ) (a : Accepted) (c : TelnetMudConnection)
    (ha : (final (new addresses sslContexts onConnectCB) tr).heap[i]? = some a)
    (hc : a.connection = .telnet c) (hback : c.writes.flatten.length < c.outbox.length)
    (tr' : List (Event × Portal))
    (h' : Run Step (final (new addresses sslContexts onConnectCB) tr) tr') (b : Accepted)
    (d : TelnetMudConnection)
    (hb : (final (final (new addresses sslContexts onConnectCB) tr) tr').heap[i]? = some b)
    (hd : b.connection = .telnet d) :
    d.wire <+: c.wire ++ c.writes.flatten ∧ c.writes.flatten.length ≤ 3 := by
  obtain ⟨isTLS, own, hown, hfinal, -⟩ := telnet_run h ha hc
  have hcounts : Counts onConnectCB (final (new addresses sslContexts onConnectCB) tr) :=
    h.invariant (fun _ _ _ hs hstep => hs.step hstep)
      (counts_new addresses sslContexts onConnectCB)
  -- the connection goes on from where it is
  obtain ⟨x, hx, hrun, hend, -⟩ :=
    (composed onConnectCB).run_share (run_composed h' hcounts) (made_getElem? hb)
  rw [made_getElem? ha, Option.some.injEq, hc] at hx
  rw [hd] at hend
  obtain rfl | ⟨hnone, -⟩ := hx
  · obtain ⟨own', hown', hend', -⟩ := AnyConnection.telnet_run hrun
    obtain rfl := AnyConnection.telnet.inj (hend'.symm.trans hend)
    exact TelnetMudConnection.wire_of_backlog hown hfinal hback hown'
  · cases hnone

/-- A client asks for two options in one read, and for another one when it has its first answer. -/
theorem second_answer_left : ∃ tr tr' : List (Event × Portal), Run Step plain tr ∧
    (events tr).drop 3 = [.connection 0 (.telnet (.read [255, 251, 1, 255, 253, 3]))] ∧
    Run Step (final plain tr) tr' ∧
    events tr' = [.connection 0 (.telnet (.written 0 false 3)),
      .connection 0 (.telnet (.read [255, 251, 5]))] ∧
    ∃ d, (final (final plain tr) tr').made = [.telnet d] ∧
      d.sent = [(TelnetCode.DONT, 1), (TelnetCode.WONT, 3), (TelnetCode.DONT, 5)] ∧
      d.wire = [255, 254, 1] ∧ d.wire <+: [255, 254, 1] := by
  have hrun : Run Step plain [(.registerListener "testing" "mine" .telnet none none, _),
      (.start "testing", _), (.accept "testing" false, _),
      (.connection 0 (.telnet (.read [255, 251, 1, 255, 253, 3])), _)] :=
    .cons rfl (.cons ⟨_, rfl, rfl⟩ (.cons ⟨_, rfl, by decide, rfl⟩
      (.cons ⟨_, .telnet _, rfl, TelnetMudConnection.step_read (by decide) (by decide), rfl⟩
        (.nil _))))
  refine ⟨_, [(.connection 0 (.telnet (.written 0 false 3)), _),
      (.connection 0 (.telnet (.read [255, 251, 5])), _)], hrun, rfl,
    .cons ⟨_, .telnet _, rfl, ⟨_, rfl, by decide, by decide, rfl⟩, rfl⟩
      (.cons ⟨_, .telnet _, rfl, TelnetMudConnection.step_read (by decide) (by decide), rfl⟩
        (.nil _)), rfl, _, rfl, by decide, by decide, ?_⟩
  refine (backlog_final ["mine"] Table.empty true _ hrun 0 _ _ rfl rfl (by decide)
    [(.connection 0 (.telnet (.written 0 false 3)), _),
      (.connection 0 (.telnet (.read [255, 251, 5])), _)]
    (.cons ⟨_, .telnet _, rfl, ⟨_, rfl, by decide, by decide, rfl⟩, rfl⟩
      (.cons ⟨_, .telnet _, rfl, TelnetMudConnection.step_read (by decide) (by decide), rfl⟩
        (.nil _))) _ _ rfl rfl).1

end Portal

end ForgeMush
