import ForgeMush.EventLoop
import ForgeMush.Segments

/-!
The command lines of a connection, from the first read on.

Every line that is complete is taken out of `cmdbuff`, but `onCommandCB` gets it only if it is
installed, which is done when the connection becomes ready. A line that is complete before
that is dropped.
-/

namespace ForgeMush

open Runs Segments

def isLF (b : UInt8) : Bool := b = TelnetCode.LF

lemma find_LF_of_not {l : Bytes} (h : ∀ b ∈ l, isLF b = false) :
    find l TelnetCode.LF = l.length := by
  refine List.findIdx_eq_length.mpr fun b hb => ?_
  have hne : b ≠ TelnetCode.LF := by simpa [isLF] using h b hb
  simpa [charValue_eq_LF_iff] using hne

lemma find_LF_append {u : Bytes} (hu : ∀ b ∈ u, isLF b = false) (v : Bytes) :
    find (u ++ TelnetCode.LF :: v) TelnetCode.LF = u.length := by
  induction u with
  | nil =>
      have hLF : charValue TelnetCode.LF = (TelnetCode.LF.toNat : ℤ) :=
        (charValue_eq_LF_iff _).mpr rfl
      simp [find, List.findIdx_cons, hLF]
  | cons b u ih =>
      have hne : ¬ charValue b = (TelnetCode.LF.toNat : ℤ) := by
        have := hu b List.mem_cons_self
        rw [charValue_eq_LF_iff]
        simpa [isLF] using this
      have hrest := ih fun a ha => hu a (List.mem_cons_of_mem _ ha)
      simp only [find] at hrest
      simp [find, List.findIdx_cons, hne, hrest]

/-- The line that a call passes to `onCommandCB`. -/
def Call.line? : Call → Option Bytes
  | .onCommandCB cmd => some cmd
  | _ => none

namespace TelnetMudConnection

/-- The lines passed to `onCommandCB` so far. -/
def commands (c : TelnetMudConnection) : List Bytes := c.calls.filterMap Call.line?

/-! ### One read -/

/-- The calls for some complete lines. -/
def passed (c : TelnetMudConnection) (lines : List Bytes) : List Call :=
  if c.onCommandCB then lines.map fun line => .onCommandCB (trim line) else []

lemma commands_passed (c : TelnetMudConnection) (lines : List Bytes) :
    (passed c lines).filterMap Call.line? = if c.onCommandCB then lines.map trim else [] := by
  unfold passed
  split_ifs
  · rw [List.filterMap_map, ← List.filterMap_eq_map]
    rfl
  · rfl

lemma commandTurn_done {c : TelnetMudConnection} (h : ∀ b ∈ c.cmdbuff, isLF b = false) :
    c.commandTurn = .done c := by
  unfold commandTurn
  dsimp only
  rw [if_pos (find_LF_of_not h)]
  split_ifs <;> rfl

lemma commandTurn_next {c : TelnetMudConnection} {u v : Bytes}
    (hc : c.cmdbuff = u ++ TelnetCode.LF :: v) (hu : ∀ b ∈ u, isLF b = false) :
    c.commandTurn = .next { c with
      cmdbuff := v, calls := c.calls ++ passed c [u ++ [TelnetCode.LF]] } := by
  have hfind : find c.cmdbuff TelnetCode.LF = u.length := by rw [hc, find_LF_append hu]
  have hlen : c.cmdbuff.length = u.length + 1 + v.length := by
    rw [hc]
    simp
    omega
  have hsplit : c.cmdbuff = (u ++ [TelnetCode.LF]) ++ v := by rw [hc]; simp
  have htake : c.cmdbuff.take (u.length + 1) = u ++ [TelnetCode.LF] := by
    rw [hsplit]
    exact List.take_left' (by simp)
  have hdrop : c.cmdbuff.drop (u.length + 1) = v := by
    rw [hsplit]
    exact List.drop_left' (by simp)
  unfold commandTurn passed
  dsimp only
  rw [hfind, htake, hdrop, if_pos (by omega), if_neg (by omega)]
  cases hcb : c.onCommandCB <;> simp [record]

/-- **The loop over the lines** takes out all that are complete. -/
lemma execute_commandTurn (c : TelnetMudConnection) :
    Loop.execute commandTurn (fun c => c.cmdbuff.length) commandTurn_shortens c = { c with
      cmdbuff := remainder isLF c.cmdbuff
      calls := c.calls ++ passed c (segments isLF c.cmdbuff) } := by
  induction hn : c.cmdbuff.length using Nat.strong_induction_on generalizing c with
  | _ n ih =>
      by_cases hLF : TelnetCode.LF ∈ c.cmdbuff
      · obtain ⟨u, v, hc, hnot⟩ := List.eq_append_cons_of_mem hLF
        have hu : ∀ b ∈ u, isLF b = false := by
          intro b hb
          have hne : b ≠ TelnetCode.LF := fun heq => hnot (heq ▸ hb)
          simpa [isLF] using hne
        have hturn := commandTurn_next hc hu
        have hlt : v.length < n := by
          rw [← hn, hc]
          simp
          omega
        have hcut : segments isLF c.cmdbuff = (u ++ [TelnetCode.LF]) :: segments isLF v ∧
            remainder isLF c.cmdbuff = remainder isLF v := by
          rw [hc, segments, remainder, split_first hu rfl v]
          exact ⟨rfl, rfl⟩
        rw [Loop.execute_next _ hturn, ih v.length hlt _ rfl, hcut.1, hcut.2]
        cases hcb : c.onCommandCB <;> simp [passed, hcb]
      · have hnone : ∀ b ∈ c.cmdbuff, isLF b = false := by
          intro b hb
          have hne : b ≠ TelnetCode.LF := fun heq => hLF (heq ▸ hb)
          simpa [isLF] using hne
        rw [Loop.execute_done _ (commandTurn_done hnone), segments, remainder,
          split_of_forall_not hnone]
        simp [passed]

/-! ### Messages, one after the other -/

/-- `onReceiveAppData` on the messages in turn: it returns from each of them. -/
def ReceivesAppData : TelnetMudConnection → List Bytes → TelnetMudConnection → Prop
  | c, [], d => d = c
  | c, data :: rest, d => ∃ e, Loop.Yields commandTurn { c with cmdbuff := c.cmdbuff ++ data } e ∧
      ReceivesAppData e rest d

/-- The connection after the text `data`. -/
def afterText (c : TelnetMudConnection) (data : Bytes) : TelnetMudConnection := { c with
  cmdbuff := remainder isLF (c.cmdbuff ++ data)
  calls := c.calls ++ passed c (segments isLF (c.cmdbuff ++ data)) }

lemma yields_commandTurn_iff (c d : TelnetMudConnection) (data : Bytes) :
    Loop.Yields commandTurn { c with cmdbuff := c.cmdbuff ++ data } d ↔ d = c.afterText data := by
  have hyields := Loop.yields_execute commandTurn_shortens
    { c with cmdbuff := c.cmdbuff ++ data }
  rw [execute_commandTurn] at hyields
  exact ⟨fun h => h.unique hyields, fun h => h ▸ hyields⟩

lemma afterText_afterText (c : TelnetMudConnection) (u v : Bytes) :
    (c.afterText u).afterText v = c.afterText (u ++ v) := by
  unfold afterText
  rw [← List.append_assoc c.cmdbuff u v, segments_append (c.cmdbuff ++ u) v,
    remainder_append (c.cmdbuff ++ u) v]
  cases hcb : c.onCommandCB <;> simp [passed, hcb]

/-- **Messages in turn** come to their text at once, where no complete line was waiting. -/
lemma receivesAppData_iff {c : TelnetMudConnection} (hc : c.afterText [] = c) (ds : List Bytes)
    (d : TelnetMudConnection) : ReceivesAppData c ds d ↔ d = c.afterText ds.flatten := by
  induction ds generalizing c with
  | nil => rw [ReceivesAppData, List.flatten_nil, hc]
  | cons data ds ih =>
      have hdata : (c.afterText data).afterText [] = c.afterText data := by
        rw [afterText_afterText, List.append_nil]
      simp only [ReceivesAppData, yields_commandTurn_iff, exists_eq_left]
      rw [ih hdata, afterText_afterText, List.flatten_cons]

lemma receivesAppData_foldl (c : TelnetMudConnection) (ds : List Bytes) :
    ReceivesAppData c ds (ds.foldl onReceiveAppData c) := by
  induction ds generalizing c with
  | nil => rfl
  | cons data ds ih => exact ⟨_, Loop.yields_execute commandTurn_shortens _, ih _⟩

/-- A connection as constructed, on which the callback is installed. -/
def listening (connId : UInt32) (isTLS hasConnectCB : Bool) (ks : List OptionClass) :
    TelnetMudConnection :=
  { withOptions connId isTLS hasConnectCB ks with onCommandCB := true }

/-- **Lines of text**: `onReceiveAppData` returns from each of the messages, in whatever way the
text is cut into them, and `onCommandCB` gets the complete lines of the text, trimmed and in
order. What follows the last of them stays in `cmdbuff`. -/
theorem appData_lines_passed (connId : UInt32) (isTLS hasConnectCB : Bool)
    (ks : List OptionClass) (ds : List Bytes) :
    ∃ d, (∀ d', ReceivesAppData (listening connId isTLS hasConnectCB ks) ds d' ↔ d' = d) ∧
      ds.foldl onReceiveAppData (listening connId isTLS hasConnectCB ks) = d ∧
      d.commands = (segments isLF ds.flatten).map trim ∧
      d.cmdbuff = remainder isLF ds.flatten := by
  obtain ⟨t, l, r, h⟩ := withOptions_eq connId isTLS hasConnectCB ks
  unfold listening
  rw [h]
  have hiff := receivesAppData_iff (c := { (new connId isTLS hasConnectCB) with
    options := t, hsLocal := l, hsRemote := r, onCommandCB := true })
    (by simp [afterText, passed, new, segments, remainder, split]) ds
  refine ⟨_, hiff, (hiff _).mp (receivesAppData_foldl _ ds), ?_, by simp [afterText, new]⟩
  simp [commands, afterText, commands_passed, new]

/-- What reading plain text does, when nothing was left in `inbox`. -/
def readPlain (c : TelnetMudConnection) (data : Bytes) : TelnetMudConnection :=
  if data = [] then c
  else { c with
    cmdbuff := remainder isLF (c.cmdbuff ++ data)
    calls := c.calls ++ [.onReceiveMessage (.appData data)] ++
      passed c (segments isLF (c.cmdbuff ++ data)) }

lemma onReceiveMessage_appData (c : TelnetMudConnection) (data : Bytes) :
    c.onReceiveMessage (.appData data) = { c with
      cmdbuff := remainder isLF (c.cmdbuff ++ data)
      calls := c.calls ++ [.onReceiveMessage (.appData data)] ++
        passed c (segments isLF (c.cmdbuff ++ data)) } := by
  simp only [onReceiveMessage, onReceiveAppData, execute_commandTurn]
  rfl

lemma read_plain {c : TelnetMudConnection} (hc : c.inbox = []) {data : Bytes}
    (hplain : TelnetCode.IAC ∉ data) : Read c data (c.readPlain data) := by
  unfold Read OnReceive readPlain
  cases data with
  | nil =>
      have hsame : { c with inbox := c.inbox ++ [] } = c := by rw [List.append_nil]
      rw [if_pos rfl, hsame]
      refine (Loop.yields_done ?_).mpr rfl
      simp [onReceiveTurn, outerTurn, hc]
  | cons b data =>
      have hb : b ≠ TelnetCode.IAC := fun heq => hplain (heq ▸ List.mem_cons_self)
      have hnext : onReceiveTurn (.outer { c with inbox := c.inbox ++ b :: data }) =
          .next (.outer (c.onReceiveMessage (.appData (b :: data)))) := by
        have hempty : ({ c with inbox := [] } : TelnetMudConnection) = c := by rw [← hc]
        simp [onReceiveTurn, outerTurn, hc, hb, find_IAC, consume, hempty]
      have hdone : onReceiveTurn (.outer (c.onReceiveMessage (.appData (b :: data)))) =
          .done (.ok (c.onReceiveMessage (.appData (b :: data)))) := by
        rw [onReceiveMessage_appData]
        simp [onReceiveTurn, outerTurn, hc]
      rw [Loop.yields_next hnext, if_neg (by simp), ← onReceiveMessage_appData]
      exact (Loop.yields_done hdone).mpr rfl

lemma eq_readPlain {c d : TelnetMudConnection} (hc : c.inbox = []) {data : Bytes}
    (hplain : TelnetCode.IAC ∉ data) (h : Read c data d) : d = c.readPlain data :=
  Except.ok.inj (Loop.Yields.unique h (read_plain hc hplain))

/-! ### A whole run -/

/-- The text that an event brings. -/
def Event.text : Event → Bytes
  | .read data => data
  | _ => []

def Event.Plain (e : Event) : Prop := TelnetCode.IAC ∉ e.text

instance (e : Event) : Decidable e.Plain := inferInstanceAs (Decidable (TelnetCode.IAC ∉ e.text))

/-- All text read in a run. -/
def text (tr : List (Event × TelnetMudConnection)) : Bytes := tr.flatMap fun x => x.1.text

/-- The text read before the connection is ready. -/
def early : TelnetMudConnection → List (Event × TelnetMudConnection) → Bytes
  | _, [] => []
  | c, (e, d) :: tr => if c.started then [] else e.text ++ early d tr

/-- The lines of all the text that were not complete when the connection became ready. -/
def laterLines (all early : Bytes) : List Bytes :=
  (segments isLF all).drop (segments isLF early).length

/-- Where the connection is after the text `u`, of which `v` came before it was ready. -/
structure Following (u v : Bytes) (c : TelnetMudConnection) : Prop where
  inbox : c.inbox = []
  cmdbuff : c.cmdbuff = remainder isLF u
  commands : c.commands = (laterLines u v).map trim
  early : (segments isLF v).length ≤ (segments isLF u).length
  waiting : c.started = false → v = u
  callback : c.onCommandCB = c.started
  hasConnectCB : c.hasConnectCB = true

lemma Following.of_eq {u v : Bytes} {c d : TelnetMudConnection} (h : Following u v c)
    (hi : d.inbox = c.inbox) (hb : d.cmdbuff = c.cmdbuff) (hc : d.commands = c.commands)
    (hs : d.started = c.started) (hcb : d.onCommandCB = c.onCommandCB)
    (hcon : d.hasConnectCB = c.hasConnectCB) : Following u v d :=
  ⟨hi.trans h.inbox, hb.trans h.cmdbuff, hc.trans h.commands, h.early, hs ▸ h.waiting,
    hcb.trans (h.callback.trans hs.symm), hcon.trans h.hasConnectCB⟩

lemma commands_record {c : TelnetMudConnection} {k : Call} (hk : k.line? = none) :
    (c.record k).commands = c.commands := by
  simp [commands, record, hk]

lemma Following.send {u v : Bytes} {c : TelnetMudConnection} (h : Following u v c) :
    Following u v c.send := by
  rw [send_eq]
  exact h.of_eq rfl rfl rfl rfl rfl rfl

lemma Following.finishReady {u v : Bytes} {c : TelnetMudConnection} (h : Following u v c) :
    Following u v c.finishReady := by
  unfold TelnetMudConnection.finishReady onReady
  dsimp only
  split_ifs with hstarted hcon
  · exact h
  · refine ⟨h.inbox, h.cmdbuff, ?_, h.early, (fun hf => by cases hf), rfl, h.hasConnectCB⟩
    refine Eq.trans ?_ h.commands
    simp [TelnetMudConnection.commands, record, Call.line?]
  · exact absurd h.hasConnectCB hcon

lemma keepsStart_following (u v : Bytes) : KeepsStart (Following u v) where
  send _ h := h.send
  sendNegotiate c command option h := by
    refine Following.send ?_
    exact h.of_eq rfl rfl (commands_record rfl) rfl rfl rfl
  options _ _ h := h.of_eq rfl rfl rfl rfl rfl rfl
  operations _ _ _ _ _ h := h.of_eq rfl rfl rfl rfl rfl rfl

lemma keepsReady_following (u v : Bytes) : KeepsReady (Following u v) where
  handshake _ _ _ h := h.of_eq rfl rfl (commands_record rfl) rfl rfl rfl
  holders _ _ _ h := h.of_eq rfl rfl rfl rfl rfl rfl
  finishReady _ h := h.finishReady

lemma Following.written {u v : Bytes} {c d : TelnetMudConnection} (h : Following u v c) {i len : ℕ}
    {failed : Bool} (hstep : Step c (.written i failed len) d) : Following u v d := by
  obtain ⟨buffer, -, -, -, rfl⟩ := hstep
  unfold sendHandler
  dsimp only
  split_ifs
  · exact Following.send (h.of_eq rfl rfl rfl rfl rfl rfl)
  · exact h.of_eq rfl rfl rfl rfl rfl rfl

lemma laterLines_append {u v : Bytes} (h : (segments isLF v).length ≤ (segments isLF u).length)
    (data : Bytes) :
    laterLines (u ++ data) v = laterLines u v ++ segments isLF (remainder isLF u ++ data) := by
  rw [laterLines, segments_append, List.drop_append_of_le_length h, laterLines]

lemma Following.readPlain {u v : Bytes} {c : TelnetMudConnection} (h : Following u v c)
    (data : Bytes) :
    Following (u ++ data) (if c.started then v else v ++ data) (c.readPlain data) := by
  by_cases hdata : data = []
  · subst hdata
    simpa [TelnetMudConnection.readPlain] using h
  · have hcommands : (c.readPlain data).commands = c.commands ++
        if c.started then (segments isLF (remainder isLF u ++ data)).map trim else [] := by
      rw [TelnetMudConnection.readPlain, if_neg hdata]
      simp only [TelnetMudConnection.commands, List.filterMap_append, commands_passed, h.callback,
        h.cmdbuff]
      simp [Call.line?]
    have hbuff : (c.readPlain data).cmdbuff = remainder isLF (u ++ data) := by
      rw [TelnetMudConnection.readPlain, if_neg hdata, remainder_append u data, ← h.cmdbuff]
    have hsame : (c.readPlain data).inbox = c.inbox ∧
        (c.readPlain data).started = c.started ∧
        (c.readPlain data).onCommandCB = c.onCommandCB ∧
        (c.readPlain data).hasConnectCB = c.hasConnectCB := by
      rw [TelnetMudConnection.readPlain, if_neg hdata]
      exact ⟨rfl, rfl, rfl, rfl⟩
    obtain ⟨hi, hs, hcb, hcon⟩ := hsame
    have hlen : (segments isLF u).length ≤ (segments isLF (u ++ data)).length := by
      rw [segments_append, List.length_append]
      omega
    cases hstarted : c.started with
    | true =>
        refine ⟨hi.trans h.inbox, hbuff, ?_, h.early.trans hlen, fun hf => ?_, ?_,
          hcon.trans h.hasConnectCB⟩
        · rw [hcommands, hstarted, if_pos rfl, if_pos rfl, laterLines_append h.early,
            List.map_append, h.commands]
        · rw [hs, hstarted] at hf
          cases hf
        · rw [hcb, hs, h.callback]
    | false =>
        have hvu : v = u := h.waiting hstarted
        subst hvu
        refine ⟨hi.trans h.inbox, hbuff, ?_, le_rfl, fun _ => rfl, ?_, hcon.trans h.hasConnectCB⟩
        · -- the lines of this read are dropped like those before
          rw [hcommands, hstarted, h.commands]
          simp [laterLines]
        · rw [hcb, hs, h.callback]

lemma Following.other {u v : Bytes} {c d : TelnetMudConnection} {e : Event} (h : Following u v c)
    (he : ∀ data, e ≠ .read data) (hstep : Step c e d) : Following u v d := by
  cases e with
  | sendNegotiate command option => exact hstep ▸ (keepsStart_following u v).sendNegotiate _ _ _ h
  | send => exact hstep ▸ h.send
  | processHandshake side code =>
      exact hstep ▸ (keepsReady_following u v).processHandshake h side code
  | written i failed len => exact h.written hstep
  | read data => exact absurd rfl (he data)
  | readError =>
      obtain ⟨-, rfl⟩ := hstep
      exact h.of_eq rfl rfl rfl rfl rfl rfl
  | handshake failed =>
      obtain ⟨-, rfl⟩ := hstep
      split
      · exact h.of_eq rfl rfl rfl rfl rfl rfl
      · exact (keepsStart_following u v).start (h.of_eq rfl rfl rfl rfl rfl rfl)
  | timer =>
      obtain ⟨-, rfl⟩ := hstep
      exact Following.finishReady (h.of_eq rfl rfl rfl rfl rfl rfl)

/-- **One event**: what it brings is read, and counts as early if it comes before readiness. -/
lemma Following.step {u v : Bytes} {c d : TelnetMudConnection} {e : Event} (h : Following u v c)
    (hplain : e.Plain) (hstep : Step c e d) :
    Following (u ++ e.text) (if c.started then v else v ++ e.text) d := by
  by_cases hread : ∃ data, e = .read data
  · obtain ⟨data, rfl⟩ := hread
    obtain ⟨-, e, hread, rfl⟩ := hstep
    have hin : Following u v { c with reads := c.reads - 1 } :=
      h.of_eq rfl rfl rfl rfl rfl rfl
    rw [eq_readPlain hin.inbox hplain hread]
    exact (hin.readPlain data).of_eq rfl rfl rfl rfl rfl rfl
  · have htext : e.text = [] := by
      cases e with
      | read data => exact absurd ⟨data, rfl⟩ hread
      | _ => rfl
    have hd := h.other (fun data heq => hread ⟨data, heq⟩) hstep
    simpa [htext] using hd

lemma early_of_started {c : TelnetMudConnection} (hc : c.started = true)
    (tr : List (Event × TelnetMudConnection)) : TelnetMudConnection.early c tr = [] := by
  cases tr with
  | nil => rfl
  | cons x tr => exact if_pos hc

lemma Following.run {u v : Bytes} {c : TelnetMudConnection}
    {tr : List (Event × TelnetMudConnection)} (h : Following u v c) (hrun : Run Step c tr)
    (hplain : ∀ e ∈ events tr, e.Plain) :
    Following (u ++ text tr) (v ++ TelnetMudConnection.early c tr) (final c tr) := by
  induction hrun generalizing u v with
  | nil c => simpa [text, TelnetMudConnection.early] using h
  | @cons c d e tr hstep _ ih =>
      have hd := ih (h.step (hplain e (by simp)) hstep) fun e' he' => hplain e' (by simp [he'])
      have hall : u ++ text ((e, d) :: tr) = u ++ e.text ++ text tr := by simp [text]
      have hearly : v ++ TelnetMudConnection.early c ((e, d) :: tr) =
          (if c.started then v else v ++ e.text) ++ TelnetMudConnection.early d tr := by
        cases hc : c.started with
        | true =>
            have hd := (started_step_iff hstep).mpr (Or.inl hc)
            simp [TelnetMudConnection.early, hc, early_of_started hd]
        | false => simp [TelnetMudConnection.early, hc]
      rw [hall, hearly]
      exact hd

lemma following_onConnect (connId : UInt32) (isTLS : Bool) (ks : List OptionClass) :
    Following [] [] (withOptions connId isTLS true ks).onConnect := by
  have hnew : Following [] [] (new connId isTLS true) :=
    ⟨rfl, rfl, rfl, le_rfl, fun _ => rfl, rfl, rfl⟩
  obtain ⟨t, l, r, h⟩ := withOptions_eq connId isTLS true ks
  rw [h]
  exact (keepsStart_following [] []).onConnect (hnew.of_eq rfl rfl rfl rfl rfl rfl)

/-- **Input lines**: in every run of a connection that reads plain text, `onCommandCB` gets,
trimmed, in order and once, the lines that become complete when the connection is ready. Every
complete line is out of `cmdbuff`, passed on or not. -/
theorem later_lines_passed (connId : UInt32) (isTLS : Bool) (ks : List OptionClass)
    (tr : List (Event × TelnetMudConnection))
    (h : Run Step (withOptions connId isTLS true ks).onConnect tr)
    (hplain : ∀ e ∈ events tr, e.Plain) :
    (final (withOptions connId isTLS true ks).onConnect tr).commands =
      (laterLines (text tr)
        (TelnetMudConnection.early (withOptions connId isTLS true ks).onConnect tr)).map trim ∧
    (final (withOptions connId isTLS true ks).onConnect tr).cmdbuff = remainder isLF (text tr) := by
  have hfinal := (following_onConnect connId isTLS ks).run h hplain
  exact ⟨hfinal.commands, hfinal.cmdbuff⟩

/-- The second line is begun before and ended after the connection is ready. -/
theorem later_line_passed : ∃ tr : List (Event × TelnetMudConnection),
    events tr = [.read [108, 10, 110], .timer, .read [111, 13, 10]] ∧
      Run Step (withOptions 0 false true []).onConnect tr ∧
      (final (withOptions 0 false true []).onConnect tr).commands = [[110, 111]] ∧
      (final (withOptions 0 false true []).onConnect tr).cmdbuff = [] := by
  have hrun : Run Step (withOptions 0 false true []).onConnect
      [(.read [108, 10, 110], _), (.timer, _), (.read [111, 13, 10], _)] :=
    .cons ⟨by decide, _, read_plain rfl (by decide), rfl⟩ (.cons ⟨by decide, rfl⟩
      (.cons ⟨by decide, _, read_plain rfl (by decide), rfl⟩ (.nil _)))
  refine ⟨_, rfl, hrun, ?_⟩
  obtain ⟨hcommands, hbuff⟩ := later_lines_passed 0 false [] _ hrun (by decide)
  rw [hcommands, hbuff]
  decide

/-- The client sends a line and then the timer fires. The line is not passed on. -/
theorem early_line_dropped : ∃ tr : List (Event × TelnetMudConnection),
    events tr = [.read [108, 10], .timer] ∧ (∀ e ∈ events tr, e.Plain) ∧
      Run Step (withOptions 0 false true []).onConnect tr ∧
      (final (withOptions 0 false true []).onConnect tr).started = true ∧
      (final (withOptions 0 false true []).onConnect tr).commands ≠
        (segments isLF (text tr)).map trim := by
  have hrun : Run Step (withOptions 0 false true []).onConnect
      [(.read [108, 10], _), (.timer, _)] :=
    .cons ⟨by decide, _, read_plain rfl (by decide), rfl⟩ (.cons ⟨by decide, rfl⟩ (.nil _))
  exact ⟨_, rfl, by decide, hrun, rfl, by decide⟩

end TelnetMudConnection

end ForgeMush
