import ForgeMush.EventLoop

/-!
What a connection answers to the negotiations it receives.

The dispatcher passes a negotiation on to `negotiate` of the option, which sends the same
command back, whatever the option supports.
-/

namespace ForgeMush

/-- The negotiation a call sends. -/
def Call.negotiation? : Call → Option Negotiation
  | .sendNegotiate command option => some (command, option)
  | _ => none

namespace TelnetMudConnection

/-- The negotiations sent so far. -/
def sent (c : TelnetMudConnection) : List Negotiation := c.calls.filterMap Call.negotiation?

/-- The negotiations sent between `c` and `d`. -/
def replies (c d : TelnetMudConnection) : List Negotiation := d.sent.drop c.sent.length

/-! ### Frames -/

@[simp] lemma sent_record (c : TelnetMudConnection) (k : Call) :
    (c.record k).sent = c.sent ++ k.negotiation?.toList := by
  rw [sent, record, List.filterMap_append]
  cases hk : k.negotiation? <;> simp [sent, hk]

@[simp] lemma sent_send (c : TelnetMudConnection) : c.send.sent = c.sent := by
  rw [send_eq]
  rfl

@[simp] lemma options_send (c : TelnetMudConnection) : c.send.options = c.options := by
  rw [send_eq]

@[simp] lemma sent_sendNegotiate (c : TelnetMudConnection) (command option : TelnetCode) :
    (c.sendNegotiate command option).sent = c.sent ++ [(command, option)] := by
  rw [sendNegotiate, sent_send]
  exact sent_record c _

@[simp] lemma options_sendNegotiate (c : TelnetMudConnection) (command option : TelnetCode) :
    (c.sendNegotiate command option).options = c.options := by
  rw [sendNegotiate, options_send]
  rfl

lemma processHandshake_frame (c : TelnetMudConnection) (side : Side) (code : TelnetCode) :
    (c.processHandshake side code).sent = c.sent ∧
      (c.processHandshake side code).options = c.options := by
  have hset : ∀ hs, ((c.record (.processHandshake side code)).setHolder hs side).sent = c.sent ∧
      ((c.record (.processHandshake side code)).setHolder hs side).options = c.options := by
    intro hs
    refine ⟨?_, by cases side <;> rfl⟩
    have hrec : (c.record (.processHandshake side code)).sent = c.sent := by
      simp [Call.negotiation?]
    cases side <;> exact hrec
  have hready : ∀ d : TelnetMudConnection,
      d.checkReady.sent = d.sent ∧ d.checkReady.options = d.options := by
    intro d
    have hon : ∀ e : TelnetMudConnection,
        e.onReady.sent = e.sent ∧ e.onReady.options = e.options := by
      intro e
      unfold onReady
      dsimp only
      split_ifs
      · refine ⟨?_, rfl⟩
        show ((e.record .onReady).record .onConnectCB).sent = e.sent
        simp [Call.negotiation?]
      · exact ⟨by simp [Call.negotiation?], rfl⟩
    unfold checkReady finishReady
    split_ifs <;> first | exact ⟨rfl, rfl⟩ | exact hon _
  unfold processHandshake
  dsimp only
  split_ifs
  · exact ⟨(hready _).1.trans (hset _).1, (hready _).2.trans (hset _).2⟩
  · exact hset _

lemma perform_frame (c : TelnetMudConnection) (k : Call) :
    (c.perform k).sent = c.sent ++ k.negotiation?.toList ∧ (c.perform k).options = c.options := by
  cases k with
  | sendNegotiate command option => exact ⟨by simp [perform, Call.negotiation?], by simp [perform]⟩
  | processHandshake side code =>
      obtain ⟨hsent, hoptions⟩ := c.processHandshake_frame side code
      exact ⟨by simpa [perform, Call.negotiation?] using hsent, hoptions⟩
  | _ => exact ⟨sent_record c _, rfl⟩

lemma foldl_perform_frame (c : TelnetMudConnection) (ks : List Call) :
    (ks.foldl perform c).sent = c.sent ++ ks.filterMap Call.negotiation? ∧
      (ks.foldl perform c).options = c.options := by
  induction ks generalizing c with
  | nil => simp
  | cons k ks ih =>
      obtain ⟨hsent, hoptions⟩ := c.perform_frame k
      obtain ⟨hsents, hoptionss⟩ := ih (c.perform k)
      refine ⟨?_, hoptionss.trans hoptions⟩
      rw [List.foldl_cons, hsents, hsent]
      cases hk : k.negotiation? <;> simp [hk]

lemma onOption_some {c : TelnetMudConnection} {code : TelnetCode} {op : TelnetOption}
    (h : c.options.find? code = some op)
    (method : TelnetOption → TelnetOption × List Call) :
    (c.onOption code method).sent = c.sent ++ (method op).2.filterMap Call.negotiation? ∧
      (c.onOption code method).options = c.options.insert (method op).1 := by
  rw [onOption, h]
  exact foldl_perform_frame { c with options := c.options.insert (method op).1 } _

lemma onOption_none {c : TelnetMudConnection} {code : TelnetCode}
    (h : c.options.find? code = none)
    (method : TelnetOption → TelnetOption × List Call) : c.onOption code method = c := by
  rw [onOption, h]

/-! ### Classes -/

/-- Every option is still of the class it was registered with. -/
def SameClasses (t t' : OptionTable) : Prop :=
  ∀ code, (t'.find? code).map TelnetOption.toOptionClass =
    (t.find? code).map TelnetOption.toOptionClass

lemma SameClasses.trans {t t' t'' : OptionTable} (h : SameClasses t t')
    (h' : SameClasses t' t'') : SameClasses t t'' := fun code => (h' code).trans (h code)

lemma SameClasses.find? {t t' : OptionTable} (h : SameClasses t t') {code : TelnetCode}
    {op : TelnetOption} (hop : t.find? code = some op) :
    ∃ op', t'.find? code = some op' ∧ op'.toOptionClass = op.toOptionClass := by
  have hmap := h code
  rw [hop] at hmap
  exact Option.map_eq_some_iff.mp hmap

lemma SameClasses.symm {t t' : OptionTable} (h : SameClasses t t') : SameClasses t' t :=
  fun code => (h code).symm

lemma sameClasses_insert {t : OptionTable} {code : TelnetCode} {op op' : TelnetOption}
    (hop : t.find? code = some op) (hclass : op'.toOptionClass = op.toOptionClass) :
    SameClasses t (t.insert op') := by
  have hcode : op.opCode = code := (Table.find?_eq_some_iff.mp hop).2
  have hcode' : op'.opCode = code := by rw [hclass, hcode]
  intro code'
  by_cases h : code = code'
  · subst h
    have hself : (t.insert op').find? code = some op' := by
      have := Table.find?_insert_self t op'
      rwa [hcode'] at this
    rw [hself, hop]
    simp [hclass]
  · rw [Table.find?_insert_of_ne t (by rwa [hcode'])]

lemma sameClasses_onOption (c : TelnetMudConnection) (code : TelnetCode)
    {method : TelnetOption → TelnetOption × List Call}
    (hm : ∀ op, (method op).1.toOptionClass = op.toOptionClass) :
    SameClasses c.options (c.onOption code method).options := by
  cases hop : c.options.find? code with
  | none => rw [onOption_none hop]; exact fun _ => rfl
  | some op =>
      rw [(onOption_some hop method).2]
      exact sameClasses_insert hop (hm op)

lemma find?_onOption {c : TelnetMudConnection} {code : TelnetCode} {op : TelnetOption}
    (hop : c.options.find? code = some op) {method : TelnetOption → TelnetOption × List Call}
    (hm : (method op).1.toOptionClass = op.toOptionClass) :
    (c.onOption code method).options.find? code = some (method op).1 := by
  have hcode : (method op).1.opCode = code := by
    rw [hm]
    exact (Table.find?_eq_some_iff.mp hop).2
  have hself := Table.find?_insert_self c.options (method op).1
  rw [(onOption_some hop method).2]
  rwa [hcode] at hself

lemma find?_onOption_of_ne (c : TelnetMudConnection) {code code' : TelnetCode}
    (hne : code' ≠ code) {method : TelnetOption → TelnetOption × List Call}
    (hm : ∀ op, (method op).1.toOptionClass = op.toOptionClass) :
    (c.onOption code' method).options.find? code = c.options.find? code := by
  cases hop : c.options.find? code' with
  | none => rw [onOption_none hop]
  | some op =>
      have hcode : (method op).1.opCode = code' := by
        rw [hm]
        exact (Table.find?_eq_some_iff.mp hop).2
      rw [(onOption_some hop method).2, Table.find?_insert_of_ne _ (by rwa [hcode])]

/-! ### Registration -/

lemma find?_withOptions {connId : UInt32} {isTLS hasConnectCB : Bool} {ks : List OptionClass}
    {code : TelnetCode} {op : TelnetOption}
    (h : (withOptions connId isTLS hasConnectCB ks).options.find? code = some op) :
    ∃ k ∈ ks, op = TelnetOption.new k := by
  have hrows : ∀ op ∈ (withOptions connId isTLS hasConnectCB ks).options.rows,
      ∃ k ∈ ks, op = TelnetOption.new k := by
    refine withOptions_invariant (I := fun c => ∀ op ∈ c.options.rows,
      ∃ k ∈ ks, op = TelnetOption.new k) (fun op hop => by cases hop) ?_
    intro c hc k hk op hop
    obtain ⟨l, r, hreg⟩ := registerOption_eq c (TelnetOption.new k)
    rw [hreg, Table.mem_insert] at hop
    rcases hop with rfl | ⟨hop, -⟩
    · exact ⟨k, hk, rfl⟩
    · exact hc op hop
  exact hrows op (Table.find?_eq_some_iff.mp h).1

/-! ### The dispatcher -/

/-- The replies of `onReceiveNegotiation`. -/
def reply (t : OptionTable) (command option : TelnetCode) : List Negotiation :=
  if command = TelnetCode.WILL ∨ command = TelnetCode.DO then
    match t.find? option with
    | some _ => [(command, option)]
    | none => [(if command = TelnetCode.WILL then TelnetCode.DONT else TelnetCode.WONT, option)]
  else []

lemma reply_request_some {t : OptionTable} {option : TelnetCode} {op : TelnetOption}
    (h : t.find? option = some op) (side : Side) :
    reply t side.request option = [(side.request, option)] := by
  rw [reply, if_pos (Side.exists_request.mp ⟨side, rfl⟩), h]

lemma reply_request_none {t : OptionTable} {option : TelnetCode} (h : t.find? option = none)
    (side : Side) : reply t side.request option = [(side.other.refusal, option)] := by
  rw [reply, if_pos (Side.exists_request.mp ⟨side, rfl⟩), h]
  cases side <;> rfl

lemma reply_refusal (t : OptionTable) (side : Side) (option : TelnetCode) :
    reply t side.refusal option = [] := by
  refine if_neg fun h => ?_
  obtain ⟨side', h'⟩ := Side.exists_request.mpr h
  exact Side.request_ne_refusal side' side h'.symm

lemma negotiation?_negotiate (op : TelnetOption) (command : TelnetCode) :
    (op.negotiate command).2.filterMap Call.negotiation? =
      if command = TelnetCode.WILL ∨ command = TelnetCode.DO then [(command, op.opCode)]
      else [] := by
  unfold TelnetOption.negotiate
  by_cases hwill : command = TelnetCode.WILL
  · simp [hwill, TelnetCode.WILL_ne_DO, Call.negotiation?]
  · by_cases hdo : command = TelnetCode.DO <;> simp [hdo, hwill, Call.negotiation?]

lemma sent_onReceiveNegotiation (c : TelnetMudConnection) (command option : TelnetCode) :
    (c.onReceiveNegotiation command option).sent =
      c.sent ++ reply c.options command option := by
  unfold onReceiveNegotiation reply
  cases hop : c.options.find? option with
  | some op =>
      have hcode : op.opCode = option := (Table.find?_eq_some_iff.mp hop).2
      dsimp only
      rw [(onOption_some hop _).1, negotiation?_negotiate, hcode]
  | none =>
      dsimp only
      by_cases hwill : command = TelnetCode.WILL
      · simp [hwill]
      · by_cases hdo : command = TelnetCode.DO <;> simp [hwill, hdo, TelnetCode.WILL_ne_DO.symm]

lemma replies_onReceiveNegotiation (c : TelnetMudConnection) (command option : TelnetCode) :
    replies c (c.onReceiveNegotiation command option) = reply c.options command option := by
  rw [replies, sent_onReceiveNegotiation, List.drop_left]

lemma options_onReceiveNegotiation {c : TelnetMudConnection} {option : TelnetCode}
    (h : c.options.find? option = none) (command : TelnetCode) :
    (c.onReceiveNegotiation command option).options = c.options := by
  unfold onReceiveNegotiation
  rw [h]
  dsimp only
  split_ifs <;> simp

lemma sameClasses_onReceiveNegotiation (c : TelnetMudConnection) (command option : TelnetCode) :
    SameClasses c.options (c.onReceiveNegotiation command option).options := by
  cases hop : c.options.find? option with
  | none => rw [options_onReceiveNegotiation hop]; exact fun _ => rfl
  | some op =>
      unfold onReceiveNegotiation
      rw [hop]
      exact sameClasses_onOption c option fun op => by simp

/-! ### What the answers should be -/

/-- An option is registered under `code` and supports the side. -/
def Supported (t : OptionTable) (side : Side) (code : TelnetCode) : Prop :=
  ∃ op, t.find? code = some op ∧ op.supports side = true

/-- The connection answers a negotiation as it should, going from `c` to `d`: it opens no
side it does not support, and declines such a side when the peer asks for it. The peer asks
for a side with the request of the side as it sees it. -/
structure Answers (c d : TelnetMudConnection) (command option : TelnetCode) : Prop where
  opens : ∀ (side : Side) (code : TelnetCode),
    (side.request, code) ∈ replies c d → Supported c.options side code
  declines : ∀ side : Side, command = side.other.request → ¬ Supported c.options side option →
    replies c d = [(side.refusal, option)] ∧ d.options = c.options
  refused : ∀ side : Side, command = side.refusal →
    ∀ r ∈ replies c d, r.1 ≠ TelnetCode.WILL ∧ r.1 ≠ TelnetCode.DO

/-- Every negotiation in turn is answered as it should be. -/
def AnswersAll : TelnetMudConnection → List Negotiation → Prop
  | _, [] => True
  | c, (command, option) :: rest =>
    Answers c (c.onReceiveNegotiation command option) command option ∧
      AnswersAll (c.onReceiveNegotiation command option) rest

/-- If the negotiation opens a side of a registered option, that option supports both. -/
def SupportsBoth (t : OptionTable) (m : Negotiation) : Prop :=
  m.1 = TelnetCode.WILL ∨ m.1 = TelnetCode.DO → ∀ op, t.find? m.2 = some op →
    op.supportLocal = true ∧ op.supportRemote = true

lemma SupportsBoth.of_sameClasses {t t' : OptionTable} (h : SameClasses t t')
    {m : Negotiation} (hm : SupportsBoth t m) : SupportsBoth t' m := by
  intro hcmd op' hop'
  obtain ⟨op, hop, hclass⟩ := h.symm.find? hop'
  have hboth := hm hcmd op hop
  rwa [hclass] at hboth

/-- The branch for options that are not registered is right. -/
lemma answers_of_none {c : TelnetMudConnection} {option : TelnetCode}
    (hop : c.options.find? option = none) (command : TelnetCode) :
    Answers c (c.onReceiveNegotiation command option) command option := by
  have hsame := options_onReceiveNegotiation hop command
  refine ⟨fun side code hmem => ?_, fun side hcmd _ => ⟨?_, hsame⟩, fun side hcmd r hmem => ?_⟩
  · rw [replies_onReceiveNegotiation] at hmem
    by_cases hreq : command = TelnetCode.WILL ∨ command = TelnetCode.DO
    · obtain ⟨side', rfl⟩ := Side.exists_request.mpr hreq
      rw [reply_request_none hop, List.mem_singleton] at hmem
      exact absurd (congrArg Prod.fst hmem) (Side.request_ne_refusal _ _)
    · rw [reply, if_neg hreq] at hmem
      cases hmem
  · rw [replies_onReceiveNegotiation, hcmd, reply_request_none hop, Side.other_other]
  · rw [replies_onReceiveNegotiation, hcmd, reply_refusal] at hmem
    cases hmem

lemma supported_iff {t : OptionTable} {code : TelnetCode} {op : TelnetOption}
    (h : t.find? code = some op) (side : Side) :
    Supported t side code ↔ op.supports side = true := by
  refine ⟨?_, fun hs => ⟨op, h, hs⟩⟩
  rintro ⟨op', hop', hs⟩
  rw [h] at hop'
  cases hop'
  exact hs

/-- The echo opens a side the peer asked the other half of, so both have to be supported. -/
lemma answers_request_iff {c : TelnetMudConnection} {option : TelnetCode} {op : TelnetOption}
    (hop : c.options.find? option = some op) (side : Side) :
    Answers c (c.onReceiveNegotiation side.request option) side.request option ↔
      op.supports side = true ∧ op.supports side.other = true := by
  have hreplies := replies_onReceiveNegotiation c side.request option
  rw [reply_request_some hop] at hreplies
  refine ⟨fun h => ?_, fun h => ?_⟩
  · have hopened : Supported c.options side option :=
      h.opens side option (by rw [hreplies]; exact List.mem_singleton_self _)
    refine ⟨(supported_iff hop side).mp hopened, ?_⟩
    by_contra hnot
    have hdeclined := (h.declines side.other (by rw [Side.other_other])
      (fun hs => hnot ((supported_iff hop _).mp hs))).1
    rw [hreplies] at hdeclined
    have hcommand : side.request = side.other.refusal := by simpa using hdeclined
    exact Side.request_ne_refusal _ _ hcommand
  · refine ⟨fun side' code hmem => ?_, fun side' hcmd hnot => ?_, fun side' hcmd => ?_⟩
    · rw [hreplies, List.mem_singleton] at hmem
      obtain ⟨hcmd, rfl⟩ := Prod.mk.injEq _ _ _ _ ▸ hmem
      rw [Side.request_inj.mp hcmd]
      exact (supported_iff hop side).mpr h.1
    · refine absurd ((supported_iff hop side').mpr ?_) hnot
      rw [Side.request_inj.mp hcmd, Side.other_other] at h
      exact h.2
    · exact absurd hcmd (Side.request_ne_refusal _ _)

lemma answers_iff (c : TelnetMudConnection) (command option : TelnetCode) :
    Answers c (c.onReceiveNegotiation command option) command option ↔
      SupportsBoth c.options (command, option) := by
  cases hop : c.options.find? option with
  | none =>
      refine ⟨fun _ _ op hsome => ?_, fun _ => answers_of_none hop command⟩
      rw [hop] at hsome
      cases hsome
  | some op =>
      by_cases hreq : command = TelnetCode.WILL ∨ command = TelnetCode.DO
      · have hsupports : SupportsBoth c.options (command, option) ↔
            op.supportLocal = true ∧ op.supportRemote = true := by
          simp [SupportsBoth, hreq, hop]
        obtain ⟨side, rfl⟩ := Side.exists_request.mpr hreq
        rw [hsupports, answers_request_iff hop]
        cases side
        · exact Iff.rfl
        · exact and_comm
      · refine ⟨fun _ h => absurd h hreq, fun _ => ?_⟩
        have hreplies : replies c (c.onReceiveNegotiation command option) = [] := by
          rw [replies_onReceiveNegotiation, reply, if_neg hreq]
        refine ⟨fun side code hmem => ?_, fun side hcmd _ => ?_, fun side _ r hmem => ?_⟩
        · rw [hreplies] at hmem
          cases hmem
        · exact absurd (Side.exists_request.mp ⟨side.other, hcmd⟩) hreq
        · rw [hreplies] at hmem
          cases hmem

/-- **Answers to negotiations**: a connection answers a sequence of them as it should exactly
when each WILL or DO among them that names a registered option names one that supports both
sides. -/
theorem answersAll_iff_supportsBoth (c : TelnetMudConnection) (msgs : List Negotiation) :
    AnswersAll c msgs ↔ ∀ m ∈ msgs, SupportsBoth c.options m := by
  induction msgs generalizing c with
  | nil => simp [AnswersAll]
  | cons m msgs ih =>
      obtain ⟨command, option⟩ := m
      have hclasses := sameClasses_onReceiveNegotiation c command option
      have htail : (∀ m ∈ msgs, SupportsBoth (c.onReceiveNegotiation command option).options m) ↔
          ∀ m ∈ msgs, SupportsBoth c.options m :=
        ⟨fun h m hm => (h m hm).of_sameClasses hclasses.symm,
          fun h m hm => (h m hm).of_sameClasses hclasses⟩
      rw [AnswersAll, answers_iff, ih, htail, List.forall_mem_cons]

/-- MXP is registered and supports neither side, yet a WILL is answered with a WILL. -/
theorem mxp_is_opened :
    ¬ AnswersAll (withOptions 0 false true [MXPOption]) [(TelnetCode.WILL, TelnetCode.MXP)] := by
  intro h
  obtain ⟨op, hop, hsupported⟩ := h.1.opens .localSide TelnetCode.MXP (by decide)
  have hmxp : (withOptions 0 false true [MXPOption]).options.find? TelnetCode.MXP =
      some (TelnetOption.new MXPOption) := rfl
  rw [hmxp] at hop
  cases hop
  cases hsupported

end TelnetMudConnection

end ForgeMush
