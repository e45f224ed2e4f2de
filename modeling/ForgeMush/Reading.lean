import ForgeMush.Commands
import ForgeMush.Negotiation
import ForgeMush.Progress

/-!
What a read comes to.

`onReceive` returns exactly where it enters no search, and has then handled the messages that it
cuts `inbox` into, one after the other. So what a connection makes of its input can be said in
terms of messages, and for an orderly stream in terms of its telnet reading.
-/

namespace ForgeMush

open Segments TelnetStream

namespace TelnetStream

instance (w : Bytes) : Decidable (EntersSearch w) := inferInstanceAs (Decidable (_ ∧ _ ∧ _))

/-- The messages that `onReceive` cuts its `inbox` into, and what it leaves. -/
def cut (w : Bytes) : List TelnetMessage × Bytes := codeReading (tokens w) (rest w)

lemma cut_cons {w v : Bytes} {t : Token} (ht : t.isData = false)
    (h : reading w = (t :: tokens v, rest v)) : cut w = (t.message :: (cut v).1, (cut v).2) := by
  have htokens : tokens w = t :: tokens v := by rw [tokens, h]
  have hrest : rest w = rest v := by rw [rest, h]
  rw [cut, htokens, hrest]
  cases t with
  | data b hb => cases ht
  | _ => rfl

lemma cut_of_reading_nil {w : Bytes} (h : reading w = ([], w)) : cut w = ([], w) := by
  rw [cut, tokens, rest, h]
  rfl

lemma cut_data {b : UInt8} (hb : b ≠ TelnetCode.IAC) (w : Bytes) :
    cut (b :: w) = ([.appData (b :: w)], []) := by
  have hbytes := bytes_reading w
  rw [cut, tokens, rest, reading_data hb]
  dsimp only
  rw [codeReading, hbytes]

end TelnetStream

/-- A callback that the program installs, or that a subclass overrides. -/
def Call.isCallback : Call → Bool
  | .onCommandCB _ => true
  | .onReady => true
  | .onConnectCB => true
  | _ => false

namespace TelnetMudConnection

variable {c d : TelnetMudConnection}

/-- `onReceiveMessage` of messages in turn. -/
def handle (c : TelnetMudConnection) (ms : List TelnetMessage) : TelnetMudConnection :=
  ms.foldl onReceiveMessage c

lemma sendNegotiate_with_inbox (c : TelnetMudConnection) (l : Bytes)
    (command option : TelnetCode) :
    sendNegotiate { c with inbox := l } command option =
      { c.sendNegotiate command option with inbox := l } := by
  rw [sendNegotiate, sendNegotiate, send_eq, send_eq]
  rfl

lemma onReceiveNegotiation_with_inbox (c : TelnetMudConnection) (l : Bytes)
    (command option : TelnetCode) :
    onReceiveNegotiation { c with inbox := l } command option =
      { c.onReceiveNegotiation command option with inbox := l } := by
  unfold onReceiveNegotiation
  cases hop : c.options.find? option with
  | none =>
      dsimp only
      split_ifs
      · exact sendNegotiate_with_inbox c l TelnetCode.DONT option
      · exact sendNegotiate_with_inbox c l TelnetCode.WONT option
      · rfl
  | some op =>
      simp only [onOption, hop, TelnetOption.negotiate]
      split_ifs
      · exact sendNegotiate_with_inbox
          { c with options := c.options.insert { op with remoteSide.negotiating := true } } l
          command op.opCode
      · exact sendNegotiate_with_inbox
          { c with options := c.options.insert { op with localSide.negotiating := true } } l
          command op.opCode
      · rfl

lemma onReceiveMessage_with_inbox (c : TelnetMudConnection) (l : Bytes) (msg : TelnetMessage) :
    onReceiveMessage { c with inbox := l } msg = { c.onReceiveMessage msg with inbox := l } := by
  cases msg with
  | appData data =>
      rw [onReceiveMessage_appData, onReceiveMessage_appData]
      rfl
  | command code => rfl
  | negotiation command option =>
      exact onReceiveNegotiation_with_inbox (c.record (.onReceiveMessage _)) l command option
  | subnegotiation option data =>
      unfold onReceiveMessage onReceiveSubnegotiation
      dsimp only [record]
      cases c.options.find? option <;> rfl

lemma handle_with_inbox (c : TelnetMudConnection) (l : Bytes) (ms : List TelnetMessage) :
    handle { c with inbox := l } ms = { c.handle ms with inbox := l } := by
  induction ms generalizing c with
  | nil => rfl
  | cons msg ms ih =>
      rw [handle, List.foldl_cons, onReceiveMessage_with_inbox]
      exact ih (c.onReceiveMessage msg)

lemma handle_cons (c : TelnetMudConnection) (msg : TelnetMessage) (ms : List TelnetMessage) :
    c.handle (msg :: ms) = (c.onReceiveMessage msg).handle ms := rfl

/-- `onReceive` does not come back from a search. -/
lemma not_onReceive_of_entersSearch (h : EntersSearch c.inbox) : ¬ OnReceive c d := by
  obtain ⟨e, hreach, he⟩ := reaches_search h
  obtain ⟨⟨w, hw⟩, hlen, -⟩ := h
  intro hd
  have hyields : OnReceive e d := hreach.yields.mp hd
  rw [← hw] at he hlen
  obtain _ | ⟨o, _ | ⟨x, _ | ⟨y, v⟩⟩⟩ := w
  · simp at hlen
  · simp at hlen
  · simp at hlen
  · exact not_onReceive_of_sub he d hyields

/-- What `onReceive` leaves when it returns. -/
def afterReceive (c : TelnetMudConnection) : TelnetMudConnection :=
  { c.handle (cut c.inbox).1 with inbox := (cut c.inbox).2 }

lemma afterReceive_next {msg : TelnetMessage} {v : Bytes}
    (h : cut c.inbox = (msg :: (cut v).1, (cut v).2)) :
    afterReceive { c.onReceiveMessage msg with inbox := v } = c.afterReceive := by
  rw [afterReceive, afterReceive, h, handle_with_inbox, handle_cons]

lemma onReceive_of_done (hcut : cut c.inbox = ([], c.inbox)) (hturn : c.outerTurn = .done (.ok c)) :
    OnReceive c c.afterReceive := by
  rw [afterReceive, hcut]
  exact (Loop.yields_done hturn).mpr rfl

lemma onReceive_of_next {msg : TelnetMessage} {n : ℕ} {v : Bytes} (hv : c.inbox.drop n = v)
    (hturn : c.outerTurn = .next (.outer ((c.onReceiveMessage msg).consume n)))
    (hcut : cut c.inbox = (msg :: (cut v).1, (cut v).2))
    (hrest : ∀ e : TelnetMudConnection, e.inbox = v → OnReceive e e.afterReceive) :
    OnReceive c c.afterReceive := by
  have hconsume : (c.onReceiveMessage msg).consume n =
      { c.onReceiveMessage msg with inbox := v } := by
    rw [consume, onReceiveMessage_inbox, hv]
  rw [hconsume] at hturn
  refine (Loop.yields_next hturn).mpr ?_
  rw [← afterReceive_next hcut]
  exact hrest _ rfl

lemma onReceive_afterReceive (h : ¬ EntersSearch c.inbox) : OnReceive c c.afterReceive := by
  generalize hw : c.inbox = w at h
  induction w using reading.induct generalizing c with
  | case1 => exact onReceive_of_done (by rw [hw]; rfl) (outerTurn_nil hw)
  | case2 => exact onReceive_of_done (by rw [hw]; rfl) (outerTurn_IAC hw)
  | case3 w ih =>
      rw [entersSearch_cons rfl (reading_escaped w)] at h
      exact onReceive_of_next (by rw [hw]; rfl) (outerTurn_escaped hw)
        (hw ▸ cut_cons (t := .escapedIAC) rfl (reading_escaped w)) fun e he => ih he h
  | case4 code hc hn =>
      refine onReceive_of_done (hw ▸ cut_of_reading_nil ?_) (outerTurn_unfinished hw hc hn)
      simp [reading, hc, hn]
  | case5 code hc hn option w ih =>
      rw [entersSearch_cons rfl (reading_negotiation hc hn option w)] at h
      exact onReceive_of_next (by rw [hw]; rfl) (outerTurn_negotiation hw hc hn)
        (hw ▸ cut_cons (t := .negotiation code option) rfl (reading_negotiation hc hn option w))
        fun e he => ih he h
  | case6 w _ _ =>
      refine onReceive_of_done (hw ▸ cut_of_reading_nil (reading_sub w)) (outerTurn_short hw ?_)
      by_contra hlen
      refine h ⟨?_, ?_, ?_⟩
      · rw [rest, reading_sub]
        exact ⟨w, rfl⟩
      · rw [rest, reading_sub]
        simp only [List.length_cons]
        omega
      · rw [tokens, reading_sub]
        exact fun t ht => absurd ht List.not_mem_nil
  | case7 code w hc hn hs ih =>
      rw [entersSearch_cons rfl (reading_command hc hn hs w)] at h
      exact onReceive_of_next (by rw [hw]; rfl) (outerTurn_command hw hc hn hs)
        (hw ▸ cut_cons (t := .command code) rfl (reading_command hc hn hs w)) fun e he => ih he h
  | case8 b w hb _ =>
      -- all of `inbox` is taken out before the message is handled, and nothing is left
      have hcut : cut c.inbox = (.appData (b :: w) :: (cut []).1, (cut []).2) := by
        rw [hw]
        exact cut_data hb w
      have hconsume : (c.consume (w.length + 1)).onReceiveMessage (.appData (b :: w)) =
          { c.onReceiveMessage (.appData (b :: w)) with inbox := [] } := by
        rw [consume, hw, ← onReceiveMessage_with_inbox]
        simp
      refine (Loop.yields_next (outerTurn_data hw hb)).mpr ?_
      rw [hconsume, ← afterReceive_next hcut]
      exact onReceive_of_done rfl (outerTurn_nil rfl)

/-- **What `onReceive` does**: it returns exactly where it enters no search, and leaves what
`afterReceive` says. -/
theorem onReceive_iff : OnReceive c d ↔ ¬ EntersSearch c.inbox ∧ d = c.afterReceive := by
  constructor
  · intro h
    have hno : ¬ EntersSearch c.inbox := fun hsearch => not_onReceive_of_entersSearch hsearch h
    exact ⟨hno, Except.ok.inj (Loop.Yields.unique h (onReceive_afterReceive hno))⟩
  · rintro ⟨hno, rfl⟩
    exact onReceive_afterReceive hno

lemma Read.eq {data : Bytes} (h : Read c data d) :
    d = { c.handle (cut (c.inbox ++ data)).1 with inbox := (cut (c.inbox ++ data)).2 } := by
  obtain ⟨-, rfl⟩ := onReceive_iff.mp h
  rw [afterReceive, handle_with_inbox]

lemma step_read {data : Bytes} (hreads : 0 < c.reads) (hno : ¬ EntersSearch (c.inbox ++ data)) :
    Step c (.read data)
      (afterReceive { c with reads := c.reads - 1, inbox := c.inbox ++ data }).receive :=
  ⟨hreads, _, onReceive_afterReceive hno, rfl⟩

/-! ### What the messages come to -/

/-- The callbacks made so far, but for those of the options. -/
def callbacks (c : TelnetMudConnection) : List Call := c.calls.filter Call.isCallback

lemma reply_of_sameClasses {t t' : OptionTable} (h : SameClasses t t') (m : Negotiation) :
    reply t' m.1 m.2 = reply t m.1 m.2 := by
  unfold reply
  cases hop : t.find? m.2 with
  | none =>
      have hnone : t'.find? m.2 = none := by simpa [hop] using h m.2
      rw [hnone]
  | some op =>
      obtain ⟨op', hop', -⟩ := h.find? hop
      rw [hop']

/-- The replies to some negotiations. -/
def repliesTo (t : OptionTable) (ms : List Negotiation) : List Negotiation :=
  ms.flatMap fun m => reply t m.1 m.2

lemma repliesTo_of_sameClasses {t t' : OptionTable} (h : SameClasses t t')
    (ms : List Negotiation) : repliesTo t' ms = repliesTo t ms :=
  congrArg (ms.flatMap ·) (funext fun m => reply_of_sameClasses h m)

lemma repliesTo_append (t : OptionTable) (ms ns : List Negotiation) :
    repliesTo t (ms ++ ns) = repliesTo t ms ++ repliesTo t ns := List.flatMap_append

/-- Callbacks, lines and readiness are as they were. -/
structure SameCourse (c d : TelnetMudConnection) : Prop where
  callbacks : d.callbacks = c.callbacks
  cmdbuff : d.cmdbuff = c.cmdbuff
  onCommandCB : d.onCommandCB = c.onCommandCB
  hasConnectCB : d.hasConnectCB = c.hasConnectCB
  started : d.started = c.started

lemma SameCourse.trans {e : TelnetMudConnection} (h : SameCourse c d) (h' : SameCourse d e) :
    SameCourse c e :=
  ⟨h'.1.trans h.1, h'.2.trans h.2, h'.3.trans h.3, h'.4.trans h.4, h'.5.trans h.5⟩

lemma sameCourse_record (c : TelnetMudConnection) {k : Call} (hk : k.isCallback = false) :
    SameCourse c (c.record k) := by
  refine ⟨?_, rfl, rfl, rfl, rfl⟩
  simp [TelnetMudConnection.callbacks, record, hk]

lemma sameCourse_send (c : TelnetMudConnection) : SameCourse c c.send := by
  rw [send_eq]
  exact ⟨rfl, rfl, rfl, rfl, rfl⟩

lemma sameCourse_sendNegotiate (c : TelnetMudConnection) (command option : TelnetCode) :
    SameCourse c (c.sendNegotiate command option) := by
  have hrecord := c.sameCourse_record (k := .sendNegotiate command option) rfl
  rw [sendNegotiate, send_eq]
  exact ⟨hrecord.callbacks, rfl, rfl, rfl, rfl⟩

lemma sameCourse_onReceiveNegotiation (c : TelnetMudConnection) (command option : TelnetCode) :
    SameCourse c (c.onReceiveNegotiation command option) :=
  onReceiveNegotiation_keeps (I := SameCourse c)
    (fun d m o hd => hd.trans (d.sameCourse_sendNegotiate m o))
    (fun _ _ hd => ⟨hd.1, hd.2, hd.3, hd.4, hd.5⟩) ⟨rfl, rfl, rfl, rfl, rfl⟩ command option

/-- The application data of some messages, and the negotiations among them. -/
def texts (ms : List TelnetMessage) : Bytes :=
  ms.flatMap fun
    | .appData data => data
    | _ => []

def negotiations (ms : List TelnetMessage) : List Negotiation :=
  ms.filterMap fun
    | .negotiation command option => some (command, option)
    | _ => none

lemma texts_append (ms ns : List TelnetMessage) : texts (ms ++ ns) = texts ms ++ texts ns :=
  List.flatMap_append

lemma negotiations_append (ms ns : List TelnetMessage) :
    negotiations (ms ++ ns) = negotiations ms ++ negotiations ns := List.filterMap_append

/-- All that the messages `ms` do between `c` and `d`: the lines that their text completes are
passed on, and what of them is a negotiation gets its reply. -/
structure Handles (c : TelnetMudConnection) (ms : List TelnetMessage) (d : TelnetMudConnection) :
    Prop where
  received : d.received = c.received ++ ms
  callbacks : d.callbacks = c.callbacks ++ passed c (segments isLF (c.cmdbuff ++ texts ms))
  cmdbuff : d.cmdbuff = remainder isLF (c.cmdbuff ++ texts ms)
  sent : d.sent = c.sent ++ repliesTo c.options (negotiations ms)
  classes : SameClasses c.options d.options
  onCommandCB : d.onCommandCB = c.onCommandCB
  hasConnectCB : d.hasConnectCB = c.hasConnectCB
  started : d.started = c.started

/-- No complete line waits in `cmdbuff`. -/
def NoLine (c : TelnetMudConnection) : Prop := ∀ b ∈ c.cmdbuff, isLF b = false

lemma NoLine.split_cmdbuff (hc : c.NoLine) :
    segments isLF c.cmdbuff = [] ∧ remainder isLF c.cmdbuff = c.cmdbuff := by
  rw [segments, remainder, split_of_forall_not hc]
  exact ⟨rfl, rfl⟩

lemma Handles.noLine {ms : List TelnetMessage} (h : Handles c ms d) : d.NoLine := by
  intro b hb
  rw [h.cmdbuff] at hb
  exact of_mem_remainder hb

lemma Handles.of_sameCourse {ms : List TelnetMessage} (hc : c.NoLine) (htext : texts ms = [])
    (h : SameCourse c d) (hreceived : d.received = c.received ++ ms)
    (hsent : d.sent = c.sent ++ repliesTo c.options (negotiations ms))
    (hclasses : SameClasses c.options d.options) : Handles c ms d := by
  obtain ⟨hsegments, hremainder⟩ := hc.split_cmdbuff
  refine ⟨hreceived, ?_, ?_, hsent, hclasses, h.onCommandCB, h.hasConnectCB, h.started⟩
  · rw [htext, List.append_nil, hsegments, h.callbacks]
    unfold passed
    split_ifs <;> simp
  · rw [htext, List.append_nil, hremainder, h.cmdbuff]

lemma Handles.nil (hc : c.NoLine) : Handles c [] c :=
  .of_sameCourse hc rfl ⟨rfl, rfl, rfl, rfl, rfl⟩ (List.append_nil _).symm
    (List.append_nil _).symm fun _ => rfl

lemma Handles.trans {e : TelnetMudConnection} {ms ns : List TelnetMessage} (h : Handles c ms d)
    (h' : Handles d ns e) : Handles c (ms ++ ns) e := by
  refine ⟨?_, ?_, ?_, ?_, h.classes.trans h'.classes, h'.onCommandCB.trans h.onCommandCB,
    h'.hasConnectCB.trans h.hasConnectCB, h'.started.trans h.started⟩
  · rw [h'.received, h.received, List.append_assoc]
  · rw [h'.callbacks, h.callbacks, h.cmdbuff, texts_append, ← List.append_assoc c.cmdbuff,
      segments_append (c.cmdbuff ++ texts ms)]
    unfold passed
    rw [h.onCommandCB]
    split_ifs <;> simp
  · rw [h'.cmdbuff, h.cmdbuff, texts_append, ← List.append_assoc c.cmdbuff,
      remainder_append (c.cmdbuff ++ texts ms)]
  · rw [h'.sent, h.sent, negotiations_append, repliesTo_append,
      repliesTo_of_sameClasses h.classes, List.append_assoc]

lemma isCallback_of_mem_passed {lines : List Bytes} {k : Call} (hk : k ∈ passed c lines) :
    k.isCallback = true ∧ k.negotiation? = none := by
  unfold passed at hk
  split_ifs at hk
  · obtain ⟨line, -, rfl⟩ := List.mem_map.mp hk
    exact ⟨rfl, rfl⟩
  · cases hk

lemma handles_appData (c : TelnetMudConnection) (data : Bytes) :
    Handles c [.appData data] (c.onReceiveMessage (.appData data)) := by
  have htexts : texts [.appData data] = data := List.append_nil data
  have hreceived := onReceiveMessage_received c (.appData data)
  rw [onReceiveMessage_appData] at hreceived ⊢
  refine ⟨hreceived, ?_, by rw [htexts], ?_, fun _ => rfl, rfl, rfl, rfl⟩
  · have hall : (passed c (segments isLF (c.cmdbuff ++ data))).filter Call.isCallback =
        passed c (segments isLF (c.cmdbuff ++ data)) :=
      List.filter_eq_self.mpr fun k hk => (isCallback_of_mem_passed hk).1
    rw [htexts, callbacks, List.filter_append, List.filter_append, hall]
    simp [callbacks, Call.isCallback]
  · have hnone : (passed c (segments isLF (c.cmdbuff ++ data))).filterMap
        Call.negotiation? = [] :=
      List.filterMap_eq_nil_iff.mpr fun k hk => (isCallback_of_mem_passed hk).2
    rw [sent, List.filterMap_append, List.filterMap_append, hnone]
    simp [sent, negotiations, repliesTo, Call.negotiation?]

lemma sent_record_of_none (c : TelnetMudConnection) {k : Call} (hk : k.negotiation? = none) :
    (c.record k).sent = c.sent := by
  rw [sent_record, hk]
  exact List.append_nil _

/-- **One message.** -/
lemma handles_onReceiveMessage (hc : c.NoLine) (msg : TelnetMessage) :
    Handles c [msg] (c.onReceiveMessage msg) := by
  have hrecord := c.sameCourse_record (k := .onReceiveMessage msg) rfl
  have hsent := c.sent_record_of_none (k := .onReceiveMessage msg) rfl
  have hreceived := onReceiveMessage_received c msg
  cases msg with
  | appData data => exact handles_appData c data
  | command code =>
      exact .of_sameCourse hc rfl hrecord hreceived (hsent.trans (List.append_nil _).symm)
        fun _ => rfl
  | negotiation command option =>
      refine .of_sameCourse hc rfl
        (hrecord.trans (sameCourse_onReceiveNegotiation _ command option)) hreceived ?_
        (sameClasses_onReceiveNegotiation _ command option)
      refine (sent_onReceiveNegotiation _ command option).trans ?_
      rw [hsent]
      exact congrArg _ (List.append_nil _).symm
  | subnegotiation option data =>
      set e := c.record (.onReceiveMessage (.subnegotiation option data)) with he
      have hgiven : c.onReceiveMessage (.subnegotiation option data) = e ∨
          c.onReceiveMessage (.subnegotiation option data) =
            e.record (.receiveSubnegotiate option data) := by
        rw [onReceiveMessage, ← he]
        dsimp only [onReceiveSubnegotiation]
        split
        · exact Or.inr rfl
        · exact Or.inl rfl
      have hnone := (List.append_nil c.sent).symm
      rcases hgiven with heq | heq <;> rw [heq] at hreceived ⊢
      · exact .of_sameCourse hc rfl hrecord hreceived (hsent.trans hnone) fun _ => rfl
      · exact .of_sameCourse hc rfl (hrecord.trans (sameCourse_record _ rfl)) hreceived
          (((sent_record_of_none _ rfl).trans hsent).trans hnone) fun _ => rfl

/-- **Messages in turn.** -/
lemma handles_handle (hc : c.NoLine) (ms : List TelnetMessage) : Handles c ms (c.handle ms) := by
  induction ms generalizing c with
  | nil => exact .nil hc
  | cons msg ms ih =>
      have hmsg := handles_onReceiveMessage hc msg
      exact hmsg.trans (ih hmsg.noLine)

/-- **A read** does what the messages that it completes do. -/
theorem Read.handles {data : Bytes} (hc : c.NoLine) (h : Read c data d) :
    Handles c (cut (c.inbox ++ data)).1 d ∧ d.inbox = (cut (c.inbox ++ data)).2 := by
  have hms := handles_handle hc (cut (c.inbox ++ data)).1
  rw [h.eq]
  exact ⟨⟨hms.1, hms.2, hms.3, hms.4, hms.5, hms.6, hms.7, hms.8⟩, rfl⟩

end TelnetMudConnection

end ForgeMush
