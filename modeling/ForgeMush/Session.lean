import ForgeMush.Lifecycle
import ForgeMush.Reading

/-!
What a connection does over a whole session.

However its input is cut into reads and whatever else happens in between, its callbacks come in
one order, and what they are called with is determined by the messages received: by the telnet
reading of the input, if that is orderly.
-/

namespace ForgeMush

open Runs Segments TelnetStream

namespace TelnetMudConnection

variable {c d : TelnetMudConnection} {tr : List (Event × TelnetMudConnection)}

/-! ### Events that are no read -/

/-- `I` has nothing to do with the output and is kept by all that a connection does but read. -/
structure KeepsApart (I : TelnetMudConnection → Prop) : Prop extends KeepsStart I,
    KeepsReady I where
  output : ∀ (c : TelnetMudConnection) (ws : List Bytes) (wire out : Bytes) (w : Bool), I c →
    I { c with writes := ws, wire := wire, outbox := out, isWriting := w }
  lose : ∀ c, I c → I { c with lost := true }

/-- **Every event but a read.** -/
theorem KeepsApart.step {I : TelnetMudConnection → Prop} (h : KeepsApart I) {e : Event}
    (he : ∀ data, e ≠ .read data) (hc : I c) (hstep : Step c e d) : I d := by
  have hlose : ∀ h' r : ℕ, I { c with handshakes := h', reads := r, lost := true } :=
    fun h' r => h.lose _ (h.operations _ c.conn h' r c.waits hc)
  cases e with
  | sendNegotiate command option => exact hstep ▸ h.sendNegotiate _ _ _ hc
  | send => exact hstep ▸ h.send _ hc
  | processHandshake side code => exact hstep ▸ h.toKeepsReady.processHandshake hc side code
  | written i failed len =>
      obtain ⟨buffer, -, -, -, rfl⟩ := hstep
      unfold sendHandler
      dsimp only
      split_ifs
      · exact h.send _ (h.output _ _ _ _ _ hc)
      · exact h.output _ _ _ _ _ hc
  | read data => exact absurd rfl (he data)
  | readError =>
      obtain ⟨-, rfl⟩ := hstep
      exact hlose _ _
  | handshake failed =>
      obtain ⟨-, rfl⟩ := hstep
      split
      · exact hlose _ _
      · exact h.toKeepsStart.start (h.operations _ _ _ _ _ hc)
  | timer =>
      obtain ⟨-, rfl⟩ := hstep
      exact h.finishReady _ (h.operations _ _ _ _ _ hc)

/-! ### Callbacks -/

/-- The messages received before the connection is ready. -/
def untilReady : TelnetMudConnection → List (Event × TelnetMudConnection) → List TelnetMessage
  | c, [] => c.received
  | c, (_, d) :: tr => if c.started then c.received else untilReady d tr

/-- The callbacks of a connection that has received `ms`, of which it had received `before` when it
became ready. -/
def callbacksFor (started hasConnectCB : Bool) (before ms : List TelnetMessage) : List Call :=
  if started then
    .onReady :: if hasConnectCB then
      .onConnectCB ::
        (laterLines (texts ms) (texts before)).map fun line => .onCommandCB (trim line)
    else []
  else []

/-- Where a connection is that has received `ms`, and `before` of them before it was ready. -/
structure Served (cb : Bool) (before ms : List TelnetMessage) (c : TelnetMudConnection) : Prop where
  received : c.received = ms
  hasConnectCB : c.hasConnectCB = cb
  callbacks : c.callbacks = callbacksFor c.started cb before ms
  cmdbuff : c.cmdbuff = remainder isLF (texts ms)
  early : (segments isLF (texts before)).length ≤ (segments isLF (texts ms)).length
  waiting : c.started = false → before = ms
  onCommandCB : c.onCommandCB = (c.started && cb)

variable {cb : Bool} {before ms : List TelnetMessage}

lemma Served.of_sameCourse (h : Served cb before ms c) (hsame : SameCourse c d)
    (hreceived : d.received = c.received) : Served cb before ms d := by
  refine ⟨hreceived.trans h.received, hsame.hasConnectCB.trans h.hasConnectCB, ?_,
    hsame.cmdbuff.trans h.cmdbuff, h.early, ?_, ?_⟩
  · rw [hsame.callbacks, hsame.started, h.callbacks]
  · rw [hsame.started]
    exact h.waiting
  · rw [hsame.onCommandCB, hsame.started, h.onCommandCB]

lemma received_record (c : TelnetMudConnection) {k : Call} (hk : k.isNote = true) :
    (c.record k).received = c.received := (keeps_received c.received).record c k hk rfl

lemma received_sendNegotiate (c : TelnetMudConnection) (command option : TelnetCode) :
    (c.sendNegotiate command option).received = c.received :=
  (keeps_received c.received).sendNegotiate c command option rfl

lemma received_send (c : TelnetMudConnection) : c.send.received = c.received := by
  rw [send_eq]
  rfl

lemma Served.noLine (h : Served cb before ms c) : c.NoLine := by
  intro b hb
  rw [h.cmdbuff] at hb
  exact of_mem_remainder hb

/-- What becoming ready does, if the connection is not ready yet. -/
structure Readies (c d : TelnetMudConnection) : Prop where
  callbacks : d.callbacks = c.callbacks ++ .onReady :: if c.hasConnectCB then [.onConnectCB] else []
  received : d.received = c.received
  cmdbuff : d.cmdbuff = c.cmdbuff
  onCommandCB : d.onCommandCB = (c.onCommandCB || c.hasConnectCB)
  hasConnectCB : d.hasConnectCB = c.hasConnectCB
  started : d.started = true

lemma readies_finishReady (h : c.started = false) : Readies c c.finishReady := by
  set e : TelnetMudConnection := { c with started := true }
  have hready : c.finishReady = if c.hasConnectCB then
      { (e.record .onReady).record .onConnectCB with onCommandCB := true }
      else e.record .onReady := by
    rw [finishReady, if_neg (by simp [h])]
    rfl
  have honce := received_record e (k := .onReady) rfl
  have htwice := received_record (e.record .onReady) (k := .onConnectCB) rfl
  by_cases hcon : c.hasConnectCB = true
  · rw [if_pos hcon] at hready
    rw [hready]
    refine ⟨?_, htwice.trans honce, rfl, ?_, rfl, rfl⟩
    · simp [callbacks, record, hcon, Call.isCallback, e]
    · simp [hcon]
  · rw [if_neg hcon] at hready
    rw [hready]
    refine ⟨?_, honce, rfl, ?_, rfl, rfl⟩
    · simp [callbacks, record, hcon, Call.isCallback, e]
    · simp [record, hcon, e]

lemma Served.finishReady (h : Served cb before ms c) : Served cb before ms c.finishReady := by
  cases hstarted : c.started with
  | true =>
      rw [TelnetMudConnection.finishReady, if_pos hstarted]
      exact h
  | false =>
      have hready := readies_finishReady hstarted
      have hnone : c.callbacks = [] := by
        rw [h.callbacks, callbacksFor, hstarted]
        rfl
      have hdropped : laterLines (texts ms) (texts before) = [] := by
        rw [laterLines, h.waiting hstarted]
        exact List.drop_length
      refine ⟨hready.received.trans h.received, hready.hasConnectCB.trans h.hasConnectCB, ?_,
        hready.cmdbuff.trans h.cmdbuff, h.early, ?_, ?_⟩
      · rw [hready.callbacks, hnone, callbacksFor, hready.started, hdropped, h.hasConnectCB]
        rfl
      · rw [hready.started]
        exact fun hf => absurd hf Bool.noConfusion
      · rw [hready.onCommandCB, hready.started, h.onCommandCB, hstarted, h.hasConnectCB]
        simp

lemma Served.handles {ns : List TelnetMessage} (h : Served cb before ms c) (hns : Handles c ns d) :
    Served cb (if c.started then before else ms ++ ns) (ms ++ ns) d := by
  have hreceived : d.received = ms ++ ns := by rw [hns.received, h.received]
  have hcon : d.hasConnectCB = cb := hns.hasConnectCB.trans h.hasConnectCB
  have hbuff : d.cmdbuff = remainder isLF (texts (ms ++ ns)) := by
    rw [hns.cmdbuff, h.cmdbuff, texts_append, ← remainder_append]
  have hcallbacks := hns.callbacks
  rw [h.callbacks, passed, h.onCommandCB, h.cmdbuff] at hcallbacks
  have hflag : d.onCommandCB = (d.started && cb) := by
    rw [hns.onCommandCB, hns.started, h.onCommandCB]
  cases hstarted : c.started with
  | true =>
      have hs : d.started = true := hns.started.trans hstarted
      have hlen : (segments isLF (texts ms)).length ≤
          (segments isLF (texts (ms ++ ns))).length := by
        rw [texts_append, segments_append, List.length_append]
        exact Nat.le_add_right _ _
      refine ⟨hreceived, hcon, ?_, hbuff, h.early.trans hlen, fun hf => ?_, hflag⟩
      · rw [hcallbacks, hstarted, hs, callbacksFor, callbacksFor, texts_append]
        cases cb
        · simp
        · simp [laterLines_append h.early]
      · rw [hs] at hf
        cases hf
  | false =>
      have hs : d.started = false := hns.started.trans hstarted
      refine ⟨hreceived, hcon, ?_, hbuff, le_rfl, fun _ => rfl, hflag⟩
      rw [hcallbacks, hstarted, hs]
      rfl

lemma keepsApart_served (cb : Bool) (before ms : List TelnetMessage) :
    KeepsApart (Served cb before ms) where
  send c h := h.of_sameCourse (sameCourse_send c) (received_send c)
  sendNegotiate c m o h := h.of_sameCourse (sameCourse_sendNegotiate c m o)
    (received_sendNegotiate c m o)
  options _ _ h := h.of_sameCourse ⟨rfl, rfl, rfl, rfl, rfl⟩ rfl
  operations _ _ _ _ _ h := h.of_sameCourse ⟨rfl, rfl, rfl, rfl, rfl⟩ rfl
  handshake c _ _ h := h.of_sameCourse (sameCourse_record c rfl) (received_record c rfl)
  holders _ _ _ h := h.of_sameCourse ⟨rfl, rfl, rfl, rfl, rfl⟩ rfl
  finishReady _ h := h.finishReady
  output _ _ _ _ _ h := h.of_sameCourse ⟨rfl, rfl, rfl, rfl, rfl⟩ rfl
  lose _ h := h.of_sameCourse ⟨rfl, rfl, rfl, rfl, rfl⟩ rfl

/-- **One event.** -/
lemma Served.step (h : Served cb before ms c) {e : Event} (hstep : Step c e d) :
    ∃ ns, Served cb (if c.started then before else ms ++ ns) (ms ++ ns) d := by
  by_cases hread : ∃ data, e = .read data
  · obtain ⟨data, rfl⟩ := hread
    obtain ⟨-, e, hread, rfl⟩ := hstep
    have hin : Served cb before ms { c with reads := c.reads - 1 } :=
      h.of_sameCourse ⟨rfl, rfl, rfl, rfl, rfl⟩ rfl
    have hout := hin.handles (hread.handles hin.noLine).1
    exact ⟨_, hout.of_sameCourse ⟨rfl, rfl, rfl, rfl, rfl⟩ rfl⟩
  · have hd := (keepsApart_served cb before ms).step (fun data heq => hread ⟨data, heq⟩) h hstep
    refine ⟨[], ?_⟩
    rw [List.append_nil]
    cases hstarted : c.started with
    | true => exact hd
    | false => rwa [h.waiting hstarted] at hd

lemma untilReady_of_started (hc : c.started = true) (tr : List (Event × TelnetMudConnection)) :
    untilReady c tr = c.received := by
  cases tr with
  | nil => rfl
  | cons x tr => exact if_pos hc

lemma Served.run (h : Served cb before ms c) (hrun : Run Step c tr) :
    Served cb (if c.started then before else untilReady c tr) (final c tr).received
      (final c tr) := by
  induction hrun generalizing before ms with
  | nil c =>
      obtain rfl := h.received
      rw [untilReady, final_nil]
      cases hstarted : c.started with
      | true => exact h
      | false =>
          obtain rfl := h.waiting hstarted
          exact h
  | @cons c d e tr hstep _ ih =>
      obtain ⟨ns, hd⟩ := h.step hstep
      have htr := ih hd
      rw [final_cons, untilReady]
      cases hstarted : c.started with
      | true =>
          have hs : d.started = true := (started_step_iff hstep).mpr (Or.inl hstarted)
          simpa [hs, hstarted] using htr
      | false =>
          cases hs : d.started with
          | true =>
              rw [untilReady_of_started hs, hd.received]
              simpa [hs, hstarted] using htr
          | false => simpa [hs, hstarted] using htr

lemma served_onConnect (connId : UInt32) (isTLS hasConnectCB : Bool) (ks : List OptionClass) :
    Served hasConnectCB [] [] (withOptions connId isTLS hasConnectCB ks).onConnect := by
  obtain ⟨t, l, r, heq⟩ := withOptions_eq connId isTLS hasConnectCB ks
  refine (keepsApart_served hasConnectCB [] []).toKeepsStart.onConnect ?_
  rw [heq]
  exact ⟨rfl, rfl, rfl, rfl, le_rfl, fun _ => rfl, rfl⟩

lemma served_run (connId : UInt32) (isTLS hasConnectCB : Bool) (ks : List OptionClass)
    (h : Run Step (withOptions connId isTLS hasConnectCB ks).onConnect tr) :
    Served hasConnectCB (untilReady (withOptions connId isTLS hasConnectCB ks).onConnect tr)
      (final (withOptions connId isTLS hasConnectCB ks).onConnect tr).received
      (final (withOptions connId isTLS hasConnectCB ks).onConnect tr) := by
  have hrun := (served_onConnect connId isTLS hasConnectCB ks).run h
  have hstarted : (withOptions connId isTLS hasConnectCB ks).onConnect.started = false :=
    (keepsStart_started false).onConnect (readiness_withOptions connId isTLS hasConnectCB ks).2.1
  rwa [if_neg (by simp [hstarted])] at hrun

/-- **The callbacks of a session**: whatever happens, `onReady` comes first, then the callback of
the portal if there is one, and then the lines that become complete in the text received after
that, trimmed, in order and once. Before that there are none. -/
theorem callbacks_of_run (connId : UInt32) (isTLS hasConnectCB : Bool) (ks : List OptionClass)
    (tr : List (Event × TelnetMudConnection))
    (h : Run Step (withOptions connId isTLS hasConnectCB ks).onConnect tr) :
    (final (withOptions connId isTLS hasConnectCB ks).onConnect tr).callbacks =
      callbacksFor (final (withOptions connId isTLS hasConnectCB ks).onConnect tr).started
        hasConnectCB (untilReady (withOptions connId isTLS hasConnectCB ks).onConnect tr)
        (final (withOptions connId isTLS hasConnectCB ks).onConnect tr).received :=
  (served_run connId isTLS hasConnectCB ks h).callbacks

/-- A line that is begun before and ended after the connection is ready, and one before that. -/
theorem later_line_called_back : ∃ tr : List (Event × TelnetMudConnection),
    events tr = [.read [108, 10, 110], .timer, .read [117, 13, 10]] ∧
      Run Step (withOptions 0 false true []).onConnect tr ∧
      (final (withOptions 0 false true []).onConnect tr).callbacks =
        [.onReady, .onConnectCB, .onCommandCB [110, 117]] := by
  have hrun : Run Step (withOptions 0 false true []).onConnect
      [(.read [108, 10, 110], _), (.timer, _), (.read [117, 13, 10], _)] :=
    .cons (step_read (by decide) (by decide)) (.cons ⟨by decide, rfl⟩
      (.cons (step_read (by decide) (by decide)) (.nil _)))
  refine ⟨_, rfl, hrun, ?_⟩
  rw [callbacks_of_run 0 false true [] _ hrun]
  decide

/-! ### What the input says -/

lemma keepsApart_inbox (l : Bytes) : KeepsApart fun c => c.inbox = l where
  send c h := by rwa [send_eq]
  sendNegotiate c m o h := (keeps_inbox l).sendNegotiate c m o h
  options _ _ h := h
  operations _ _ _ _ _ h := h
  handshake _ _ _ h := h
  holders _ _ _ h := h
  finishReady := keeps_finishReady (fun _ _ _ h => h) fun _ _ _ h => h
  output _ _ _ _ _ h := h
  lose _ h := h

lemma texts_eq_pieces (ms : List TelnetMessage) :
    texts ms = (pieces ms).flatMap fun
      | .byte b => [b]
      | _ => [] := by
  induction ms with
  | nil => rfl
  | cons msg ms ih =>
      have hcons : texts (msg :: ms) = texts [msg] ++ texts ms := texts_append [msg] ms
      rw [hcons, ih, pieces_cons, List.flatMap_append]
      congr 1
      cases msg with
      | appData data => simp [texts, TelnetMessage.pieces, List.flatMap_map]
      | _ => rfl

lemma negotiations_eq_pieces (ms : List TelnetMessage) :
    negotiations ms = (pieces ms).filterMap fun
      | .negotiation command option => some (command, option)
      | _ => none := by
  induction ms with
  | nil => rfl
  | cons msg ms ih =>
      have hcons : negotiations (msg :: ms) = negotiations [msg] ++ negotiations ms :=
        negotiations_append [msg] ms
      rw [hcons, ih, pieces_cons, List.filterMap_append]
      congr 1
      cases msg with
      | appData data =>
          refine (List.filterMap_eq_nil_iff.mpr fun p hp => ?_).symm
          obtain ⟨b, -, rfl⟩ := List.mem_map.mp hp
          rfl
      | _ => rfl

lemma received_handle (c : TelnetMudConnection) (ms : List TelnetMessage) :
    (c.handle ms).received = c.received ++ ms := by
  induction ms generalizing c with
  | nil => exact (List.append_nil _).symm
  | cons msg ms ih => rw [handle_cons, ih, onReceiveMessage_received, List.append_assoc]; rfl

/-- The input `u` has been read as telnet. -/
structure Understands (u : Bytes) (c : TelnetMudConnection) : Prop where
  inbox : c.inbox = rest u
  pieces_eq : pieces c.received = pieces (decode u).1

variable {u : Bytes}

lemma keepsApart_received (ms : List TelnetMessage) : KeepsApart fun c => c.received = ms where
  send c h := (received_send c).trans h
  sendNegotiate c m o h := (received_sendNegotiate c m o).trans h
  options _ _ h := h
  operations _ _ _ _ _ h := h
  handshake c side code h := (received_record c (k := .processHandshake side code) rfl).trans h
  holders _ _ _ h := h
  finishReady := keeps_finishReady (fun c _ hk h => (received_record c hk).trans h)
    fun _ _ _ h => h
  output _ _ _ _ _ h := h
  lose _ h := h

lemma Understands.read (h : Understands u c) {data : Bytes} (hno : NoSubnegotiation (u ++ data))
    (hord : Orderly (u ++ data)) (hread : Read c data d) : Understands (u ++ data) d := by
  obtain ⟨hpieces, hrest⟩ := codeReading_of_dataLast (hord.right hno.left)
  rw [hread.eq, h.inbox]
  refine ⟨hrest.trans (rest_append hno.left data).symm, ?_⟩
  have hdecode : (decode (u ++ data)).1 = (decode u).1 ++ (decode (rest u ++ data)).1 := by
    simp only [decode, tokens_append hno.left, List.map_append]
  refine (congrArg pieces (received_handle c _)).trans ?_
  rw [pieces_append, h.pieces_eq, hdecode, pieces_append]
  exact congrArg _ hpieces

lemma Understands.step (h : Understands u c) {e : Event} (hno : NoSubnegotiation (u ++ e.text))
    (hord : Orderly (u ++ e.text)) (hstep : Step c e d) : Understands (u ++ e.text) d := by
  by_cases hread : ∃ data, e = .read data
  · obtain ⟨data, rfl⟩ := hread
    obtain ⟨-, e, hread, rfl⟩ := hstep
    have hin : Understands u { c with reads := c.reads - 1 } := ⟨h.inbox, h.pieces_eq⟩
    have hout := hin.read hno hord hread
    exact ⟨hout.inbox, hout.pieces_eq⟩
  · have htext : e.text = [] := by
      cases e with
      | read data => exact absurd ⟨data, rfl⟩ hread
      | _ => rfl
    have hnoread : ∀ data, e ≠ .read data := fun data heq => hread ⟨data, heq⟩
    rw [htext, List.append_nil]
    refine ⟨(keepsApart_inbox _).step hnoread h.inbox hstep, ?_⟩
    rw [(keepsApart_received _).step hnoread rfl hstep, h.pieces_eq]

/-- **A run** whose input is orderly reads it as telnet, and so does the part of it before the
connection is ready. -/
lemma Understands.run (h : Understands u c) (hrun : Run Step c tr)
    (hno : NoSubnegotiation (u ++ text tr)) (hord : Orderly (u ++ text tr)) :
    Understands (u ++ text tr) (final c tr) ∧
      pieces (untilReady c tr) = pieces (decode (u ++ TelnetMudConnection.early c tr)).1 := by
  induction hrun generalizing u with
  | nil c =>
      have hempty : u ++ text ([] : List (Event × TelnetMudConnection)) = u := List.append_nil u
      rw [hempty]
      refine ⟨h, ?_⟩
      rw [untilReady, TelnetMudConnection.early, List.append_nil, h.pieces_eq]
  | @cons c d e tr hstep _ ih =>
      have htext : u ++ text ((e, d) :: tr) = (u ++ e.text) ++ text tr := by simp [text]
      rw [htext] at hno hord ⊢
      have hd := h.step hno.left (hord.left hno.left) hstep
      obtain ⟨hfinal, hearly⟩ := ih hd hno hord
      refine ⟨hfinal, ?_⟩
      rw [untilReady, TelnetMudConnection.early]
      split_ifs
      · rw [List.append_nil, h.pieces_eq]
      · rw [hearly, List.append_assoc]

lemma understands_onConnect (connId : UInt32) (isTLS hasConnectCB : Bool)
    (ks : List OptionClass) :
    Understands [] (withOptions connId isTLS hasConnectCB ks).onConnect := by
  obtain ⟨t, l, r, heq⟩ := withOptions_eq connId isTLS hasConnectCB ks
  rw [heq]
  refine ⟨(keepsApart_inbox []).toKeepsStart.onConnect rfl, ?_⟩
  rw [(keepsApart_received []).toKeepsStart.onConnect rfl]
  rfl

lemma callbacksFor_congr {started hasConnectCB : Bool} {before ms before' ms' : List TelnetMessage}
    (hbefore : pieces before = pieces before') (hms : pieces ms = pieces ms') :
    callbacksFor started hasConnectCB before ms =
      callbacksFor started hasConnectCB before' ms' := by
  rw [callbacksFor, callbacksFor, texts_eq_pieces ms, texts_eq_pieces before, hms, hbefore,
    ← texts_eq_pieces, ← texts_eq_pieces]

/-- **The callbacks for a stream**: where the input is orderly and has no subnegotiation, however
it is cut into reads, the lines passed on are those of its telnet reading. -/
theorem callbacks_of_stream (connId : UInt32) (isTLS hasConnectCB : Bool) (ks : List OptionClass)
    (tr : List (Event × TelnetMudConnection))
    (h : Run Step (withOptions connId isTLS hasConnectCB ks).onConnect tr)
    (hno : NoSubnegotiation (text tr)) (hord : Orderly (text tr)) :
    (final (withOptions connId isTLS hasConnectCB ks).onConnect tr).callbacks =
      callbacksFor (final (withOptions connId isTLS hasConnectCB ks).onConnect tr).started
        hasConnectCB
        (decode (TelnetMudConnection.early (withOptions connId isTLS hasConnectCB ks).onConnect
          tr)).1
        (decode (text tr)).1 := by
  obtain ⟨hfinal, hearly⟩ := (understands_onConnect connId isTLS hasConnectCB ks).run h hno hord
  rw [(served_run connId isTLS hasConnectCB ks h).callbacks]
  exact callbacksFor_congr hearly hfinal.pieces_eq

/-- IAC WILL 1 and a line, cut inside the negotiation and inside the line. -/
theorem line_after_negotiation_called_back : ∃ tr : List (Event × TelnetMudConnection),
    events tr = [.timer, .read [255, 251], .read [1, 110], .read [117, 10]] ∧
      Run Step (withOptions 0 false true []).onConnect tr ∧
      (final (withOptions 0 false true []).onConnect tr).callbacks =
        [.onReady, .onConnectCB, .onCommandCB [110, 117]] := by
  have hrun : Run Step (withOptions 0 false true []).onConnect
      [(.timer, _), (.read [255, 251], _), (.read [1, 110], _), (.read [117, 10], _)] :=
    .cons ⟨by decide, rfl⟩ (.cons (step_read (by decide) (by decide))
      (.cons (step_read (by decide) (by decide)) (.cons (step_read (by decide) (by decide))
        (.nil _))))
  refine ⟨_, rfl, hrun, ?_⟩
  rw [callbacks_of_stream 0 false true [] _ hrun (by decide) (by decide)]
  decide

/-! ### What is sent -/

/-- The offers of all options. -/
def offered (t : OptionTable) : List Negotiation := t.keys.flatMap (Peer.offersOf t)

/-- They depend on the classes registered, but for their order. -/
lemma offered_perm {t t' : OptionTable} (h : SameClasses t t') :
    (offered t').Perm (offered t) := by
  have hkeys : ∀ code, code ∈ t'.keys ↔ code ∈ t.keys := by
    intro code
    have hnone : t'.find? code = none ↔ t.find? code = none := by
      rw [← Option.map_eq_none_iff, h code, Option.map_eq_none_iff]
    rw [Table.find?_eq_none_iff, Table.find?_eq_none_iff] at hnone
    exact not_iff_not.mp hnone
  have hperm : t'.keys.Perm t.keys := (List.perm_ext_iff_of_nodup t'.distinct t.distinct).mpr hkeys
  rw [offered, offered, Peer.offersOf_of_sameClasses h]
  exact hperm.flatMap_right _

/-- Whether the handshake that the event is the end of went well. -/
def Event.secures : Event → Bool
  | .handshake failed => !failed
  | _ => false

/-- A connection with the options `t` before its socket is secured. -/
structure Silent (t : OptionTable) (c : TelnetMudConnection) : Prop where
  options : c.options = t
  sent : c.sent = []
  received : c.received = []
  cmdbuff : c.cmdbuff = []
  reads : c.reads = 0
  handshakes : c.handshakes ≤ 1

/-- And after that. -/
structure Speaking (t : OptionTable) (c : TelnetMudConnection) : Prop where
  classes : SameClasses t c.options
  sent : c.sent = offered t ++ repliesTo t (negotiations c.received)
  noLine : c.NoLine
  handshakes : c.handshakes = 0

/-- Nothing is sent or received. -/
structure SameTalk (c d : TelnetMudConnection) : Prop where
  options : d.options = c.options
  sent : d.sent = c.sent
  received : d.received = c.received
  cmdbuff : d.cmdbuff = c.cmdbuff
  reads : d.reads = c.reads
  handshakes : d.handshakes = c.handshakes

variable {t : OptionTable}

lemma Silent.of_sameTalk (h : Silent t c) (hsame : SameTalk c d) : Silent t d :=
  ⟨hsame.1.trans h.1, hsame.2.trans h.2, hsame.3.trans h.3, hsame.4.trans h.4, hsame.5.trans h.5,
    hsame.6.le.trans h.6⟩

lemma Speaking.of_sameTalk (h : Speaking t c) (hsame : SameTalk c d) : Speaking t d := by
  refine ⟨hsame.options ▸ h.classes, ?_, ?_, hsame.handshakes.trans h.handshakes⟩
  · rw [hsame.sent, hsame.received, h.sent]
  · rw [NoLine, hsame.cmdbuff]
    exact h.noLine

lemma negotiation?_of_isNote {k : Call} (hk : k.isNote = true) : k.negotiation? = none := by
  cases k with
  | sendNegotiate command option => cases hk
  | _ => rfl

lemma SameTalk.record (h : SameTalk c d) {k : Call} (hk : k.isNote = true) :
    SameTalk c (d.record k) :=
  ⟨h.1, (sent_record_of_none d (negotiation?_of_isNote hk)).trans h.2,
    (received_record d hk).trans h.3, h.4, h.5, h.6⟩

lemma SameTalk.send (h : SameTalk c d) : SameTalk c d.send := by
  have hsent := (sent_send d).trans h.sent
  rw [send_eq] at hsent ⊢
  exact ⟨h.1, hsent, h.3, h.4, h.5, h.6⟩

lemma keepsReady_sameTalk (c : TelnetMudConnection) : KeepsReady (SameTalk c) where
  handshake _ side code h := h.record (k := .processHandshake side code) rfl
  holders _ _ _ h := ⟨h.1, h.2, h.3, h.4, h.5, h.6⟩
  finishReady := keeps_finishReady (fun _ _ hk h => h.record hk)
    fun _ _ _ h => ⟨h.1, h.2, h.3, h.4, h.5, h.6⟩

/-- Events that have to do with neither input nor negotiations. -/
def Event.isQuiet : Event → Bool
  | .send => true
  | .processHandshake _ _ => true
  | .written _ _ _ => true
  | .timer => true
  | _ => false

lemma sameTalk_step {e : Event} (he : e.isQuiet = true) (hstep : Step c e d) : SameTalk c d := by
  have hself : SameTalk c c := ⟨rfl, rfl, rfl, rfl, rfl, rfl⟩
  cases e with
  | send => exact hstep ▸ hself.send
  | processHandshake side code =>
      exact hstep ▸ (keepsReady_sameTalk c).processHandshake hself side code
  | written i failed len =>
      obtain ⟨buffer, -, -, -, rfl⟩ := hstep
      unfold sendHandler
      dsimp only
      split_ifs
      · exact SameTalk.send ⟨rfl, rfl, rfl, rfl, rfl, rfl⟩
      · exact ⟨rfl, rfl, rfl, rfl, rfl, rfl⟩
  | timer =>
      obtain ⟨-, rfl⟩ := hstep
      exact (keepsReady_sameTalk c).finishReady _ ⟨rfl, rfl, rfl, rfl, rfl, rfl⟩
  | _ => cases he

lemma start_frame (c : TelnetMudConnection) :
    c.start.received = c.received ∧ c.start.cmdbuff = c.cmdbuff ∧ c.start.inbox = c.inbox ∧
      c.start.handshakes = c.handshakes := by
  refine start_keeps (I := fun e => e.received = c.received ∧ e.cmdbuff = c.cmdbuff ∧
    e.inbox = c.inbox ∧ e.handshakes = c.handshakes) ?_ ?_ (fun _ _ he => he)
    (fun _ _ _ he => he) ⟨rfl, rfl, rfl, rfl⟩
  · intro e he
    rwa [send_eq]
  · intro e m o he
    have hreceived := (received_sendNegotiate e m o).trans he.1
    rw [TelnetMudConnection.sendNegotiate, send_eq] at hreceived ⊢
    exact ⟨hreceived, he.2⟩

lemma sameClasses_start (c : TelnetMudConnection) : SameClasses c.options c.start.options := by
  intro code
  rw [(start_spec c).2.2, Option.map_map]
  congr 1
  ext1 op
  exact op.onConnect_class

lemma Silent.start (h : Silent t c) (hhand : c.handshakes = 0) : Speaking t c.start := by
  obtain ⟨hreceived, hbuff, -, hnone⟩ := c.start_frame
  refine ⟨h.options ▸ c.sameClasses_start, ?_, ?_, hnone.trans hhand⟩
  · rw [(start_spec c).2.1, h.sent, h.options, hreceived, h.received]
    exact (List.append_nil _).symm
  · intro b hb
    rw [hbuff, h.cmdbuff] at hb
    cases hb

/-- **One event**, calls from elsewhere in the program excepted. -/
lemma Silent.step (h : Silent t c) {e : Event} (he : ∀ m o, e ≠ .sendNegotiate m o)
    (hstep : Step c e d) : if e.secures then Speaking t d else Silent t d := by
  cases e with
  | sendNegotiate m o => exact absurd rfl (he m o)
  | read data =>
      obtain ⟨hpos, -⟩ := hstep
      exact absurd h.reads hpos.ne'
  | readError =>
      obtain ⟨hpos, -⟩ := hstep
      exact absurd h.reads hpos.ne'
  | handshake failed =>
      obtain ⟨hpos, rfl⟩ := hstep
      have hone := h.handshakes
      have hin : Silent t { c with handshakes := c.handshakes - 1 } :=
        ⟨h.1, h.2, h.3, h.4, h.5, (Nat.sub_le _ _).trans hone⟩
      cases failed with
      | true => exact ⟨hin.1, hin.2, hin.3, hin.4, hin.5, hin.6⟩
      | false => exact hin.start (by dsimp only; omega)
  | _ => exact h.of_sameTalk (sameTalk_step rfl hstep)

lemma Speaking.step (h : Speaking t c) {e : Event} (he : ∀ m o, e ≠ .sendNegotiate m o)
    (hstep : Step c e d) : Speaking t d := by
  cases e with
  | sendNegotiate m o => exact absurd rfl (he m o)
  | read data =>
      obtain ⟨-, e, hread, rfl⟩ := hstep
      have hms := (hread.handles (c := { c with reads := c.reads - 1 }) h.noLine).1
      have hin : Operations c.handshakes (c.reads - 1) c.waits c.lost c.started
          { c with reads := c.reads - 1 } := ⟨rfl, rfl, rfl, rfl, rfl⟩
      have hhand := (keepsReading_operations _ _ _ _ _).read hin hread
      refine ⟨h.classes.trans hms.classes, ?_, hms.noLine, hhand.handshakes.trans h.handshakes⟩
      have hsent : e.sent = c.sent ++ repliesTo c.options (negotiations _) := hms.sent
      have hreceived : e.received = c.received ++ _ := hms.received
      refine hsent.trans ?_
      rw [h.sent, repliesTo_of_sameClasses h.classes, List.append_assoc, ← repliesTo_append,
        ← negotiations_append, ← hreceived]
      rfl
  | readError =>
      obtain ⟨-, rfl⟩ := hstep
      exact ⟨h.classes, h.sent, h.noLine, h.handshakes⟩
  | handshake failed =>
      obtain ⟨hpos, -⟩ := hstep
      exact absurd h.handshakes hpos.ne'
  | _ => exact h.of_sameTalk (sameTalk_step rfl hstep)

/-- Whether the connection has begun to talk in a run. -/
def begins (isTLS : Bool) (tr : List (Event × TelnetMudConnection)) : Bool :=
  !isTLS || (events tr).any Event.secures

lemma Speaking.run (h : Speaking t c) (hrun : Run Step c tr)
    (hown : ∀ m o, .sendNegotiate m o ∉ events tr) : Speaking t (final c tr) :=
  (hrun.restrict_events (P := fun e => ∀ m o, e ≠ .sendNegotiate m o)
    fun _ he m o heq => hown m o (heq ▸ he)).invariant
      (fun _ _ _ hs hstep => hs.step hstep.2 hstep.1) h

lemma Silent.run (h : Silent t c) (hrun : Run Step c tr)
    (hown : ∀ m o, .sendNegotiate m o ∉ events tr) :
    if (events tr).any Event.secures then Speaking t (final c tr) else Silent t (final c tr) := by
  induction hrun with
  | nil c => exact h
  | @cons c d e tr hstep hrun ih =>
      have hrest : ∀ m o, Event.sendNegotiate m o ∉ events tr :=
        fun m o hmem => hown m o (List.mem_cons_of_mem _ hmem)
      have hd := h.step (fun m o heq => hown m o (heq ▸ List.mem_cons_self)) hstep
      rw [events_cons, List.any_cons, final_cons]
      cases hsecures : e.secures with
      | true =>
          rw [hsecures, if_pos rfl] at hd
          exact hd.run hrun hrest
      | false =>
          rw [hsecures, if_neg Bool.false_ne_true] at hd
          exact ih hd hrest

lemma silent_withOptions (connId : UInt32) (isTLS hasConnectCB : Bool) (ks : List OptionClass) :
    Silent (withOptions connId isTLS hasConnectCB ks).options
      (withOptions connId isTLS hasConnectCB ks) ∧
      (withOptions connId isTLS hasConnectCB ks).handshakes = 0 ∧
      (withOptions connId isTLS hasConnectCB ks).isTLS = isTLS := by
  obtain ⟨t, l, r, heq⟩ := withOptions_eq connId isTLS hasConnectCB ks
  rw [heq]
  exact ⟨⟨rfl, rfl, rfl, rfl, rfl, Nat.zero_le 1⟩, rfl, rfl⟩

lemma talks_run (connId : UInt32) (isTLS hasConnectCB : Bool) (ks : List OptionClass)
    (h : Run Step (withOptions connId isTLS hasConnectCB ks).onConnect tr)
    (hown : ∀ m o, .sendNegotiate m o ∉ events tr) :
    if begins isTLS tr then
      Speaking (withOptions connId isTLS hasConnectCB ks).options
        (final (withOptions connId isTLS hasConnectCB ks).onConnect tr)
    else Silent (withOptions connId isTLS hasConnectCB ks).options
      (final (withOptions connId isTLS hasConnectCB ks).onConnect tr) := by
  obtain ⟨hsilent, hhand, htls⟩ := silent_withOptions connId isTLS hasConnectCB ks
  rw [begins]
  cases isTLS with
  | true =>
      have hwaits : Silent (withOptions connId true hasConnectCB ks).options
          (withOptions connId true hasConnectCB ks).onConnect := by
        rw [onConnect, if_pos htls]
        exact ⟨hsilent.1, hsilent.2, hsilent.3, hsilent.4, hsilent.5, by rw [hhand]⟩
      simpa using hwaits.run h hown
  | false =>
      have hstart : Speaking (withOptions connId false hasConnectCB ks).options
          (withOptions connId false hasConnectCB ks).onConnect := by
        rw [onConnect, if_neg (by simp [htls])]
        exact hsilent.start hhand
      simpa using hstart.run h hown

/-- **What a session sends**: once its socket is secured, the offers of the options in the order
their map is walked through, and then the replies to the negotiations received, in order, which
are those of an orderly input. What a reply is depends on whether the option is registered, and
on nothing that has happened. -/
theorem sent_of_run (connId : UInt32) (isTLS hasConnectCB : Bool) (ks : List OptionClass)
    (walk : OptionTable)
    (hwalk : walk.rows.Perm (withOptions connId isTLS hasConnectCB ks).options.rows)
    (tr : List (Event × TelnetMudConnection))
    (h : Run Step ((withOptions connId isTLS hasConnectCB ks).walking walk).onConnect tr)
    (hown : ∀ m o, .sendNegotiate m o ∉ events tr) :
    (∃ offers : List Negotiation,
      offers.Perm (offered (withOptions connId isTLS hasConnectCB ks).options) ∧
      (final ((withOptions connId isTLS hasConnectCB ks).walking walk).onConnect tr).sent =
        if begins isTLS tr then
          offers ++ repliesTo (withOptions connId isTLS hasConnectCB ks).options (negotiations
            (final ((withOptions connId isTLS hasConnectCB ks).walking walk).onConnect
              tr).received)
        else []) ∧
    (NoSubnegotiation (text tr) → Orderly (text tr) →
      negotiations
          (final ((withOptions connId isTLS hasConnectCB ks).walking walk).onConnect tr).received =
        negotiations (decode (text tr)).1) := by
  have hclasses : SameClasses (withOptions connId isTLS hasConnectCB ks).options walk :=
    fun code => by rw [Table.find?_of_perm hwalk]
  -- another order of registration, which comes to the order of the walk
  obtain ⟨ks', -, heq⟩ := exists_withOptions_eq_walking hwalk
  have hoptions : (withOptions connId isTLS hasConnectCB ks').options = walk := by
    rw [heq]
    rfl
  rw [← heq] at h ⊢
  have htalks := talks_run connId isTLS hasConnectCB ks' h hown
  rw [hoptions] at htalks
  constructor
  · refine ⟨offered walk, offered_perm hclasses, ?_⟩
    rw [← repliesTo_of_sameClasses hclasses]
    split_ifs at htalks ⊢
    · exact htalks.sent
    · exact htalks.sent
  · intro hno hord
    have hfinal := ((understands_onConnect connId isTLS hasConnectCB ks').run h hno hord).1
    rw [negotiations_eq_pieces, negotiations_eq_pieces (decode (text tr)).1]
    exact congrArg _ hfinal.pieces_eq

/-- Two options that offer, and their map with the one registered last in front. -/
def offeringTwo : List OptionClass :=
  [{ opCode := 1, startWill := true }, { opCode := 3, startDo := true }]

def backwards : OptionTable :=
  ((offeringTwo.map TelnetOption.new).reverse).foldl Table.insert Table.empty

/-- The offers of both, and the reply to a request for an option that is not there. -/
theorem offer_and_reply_sent : ∃ tr : List (Event × TelnetMudConnection),
    events tr = [.handshake false, .read [255, 253], .read [7]] ∧
      Run Step ((withOptions 0 true true offeringTwo).walking backwards).onConnect tr ∧
      ∃ offers : List Negotiation, offers.Perm [(TelnetCode.WILL, 1), (TelnetCode.DO, 3)] ∧
        (final ((withOptions 0 true true offeringTwo).walking backwards).onConnect tr).sent =
          offers ++ [(TelnetCode.WONT, 7)] := by
  have hrun : Run Step ((withOptions 0 true true offeringTwo).walking backwards).onConnect
      [(.handshake false, _), (.read [255, 253], _), (.read [7], _)] :=
    .cons ⟨by decide, rfl⟩ (.cons (step_read (by decide) (by decide))
      (.cons (step_read (by decide) (by decide)) (.nil _)))
  refine ⟨_, rfl, hrun, ?_⟩
  obtain ⟨⟨offers, hoffers, hsent⟩, hnegotiations⟩ := sent_of_run 0 true true offeringTwo backwards
    (by decide) _ hrun fun m o hmem => by simp [events] at hmem
  refine ⟨offers, hoffers, ?_⟩
  rw [hsent, hnegotiations (by decide) (by decide)]
  exact congrArg (offers ++ ·) (by decide)

end TelnetMudConnection

end ForgeMush
