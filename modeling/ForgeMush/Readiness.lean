import ForgeMush.Peers
import Mathlib.Data.Finset.Basic

/-!
When a connection becomes ready: the handshakes it waits for and the answers that come.

Registration puts an option that supports the local side and starts the remote one into the
holder of the local side, and the other way round, while an answer takes the option out of
the holder of the side that was started. So an option is waited for in vain, or not at all,
unless it starts both sides.
-/

namespace ForgeMush

namespace TelnetMudConnection

/-! ### Handshakes -/

/-- `d` waits for the same handshakes as `c` and is ready if `c` is. -/
structure SameReadiness (c d : TelnetMudConnection) : Prop where
  holder : ∀ side, d.holder side = c.holder side
  special : d.hsSpecial = c.hsSpecial
  started : d.started = c.started

lemma SameReadiness.refl (c : TelnetMudConnection) : SameReadiness c c := ⟨fun _ => rfl, rfl, rfl⟩

lemma SameReadiness.trans {c d e : TelnetMudConnection} (h : SameReadiness c d)
    (h' : SameReadiness d e) : SameReadiness c e :=
  ⟨fun side => (h'.holder side).trans (h.holder side), h'.special.trans h.special,
    h'.started.trans h.started⟩

lemma sameReadiness_send (c : TelnetMudConnection) : SameReadiness c c.send := by
  rw [send_eq]
  exact ⟨fun side => by cases side <;> rfl, rfl, rfl⟩

lemma sameReadiness_perform (c : TelnetMudConnection) {k : Call}
    (hk : ∀ side code, k ≠ .processHandshake side code) : SameReadiness c (c.perform k) := by
  cases k with
  | sendNegotiate command option =>
      refine SameReadiness.trans ?_ (sameReadiness_send _)
      exact ⟨fun side => by cases side <;> rfl, rfl, rfl⟩
  | processHandshake side code => exact absurd rfl (hk side code)
  | _ => exact ⟨fun side => by cases side <;> rfl, rfl, rfl⟩

lemma sameReadiness_foldl_perform (c : TelnetMudConnection) {ks : List Call}
    (hks : ∀ k ∈ ks, ∀ side code, k ≠ .processHandshake side code) :
    SameReadiness c (ks.foldl perform c) := by
  induction ks generalizing c with
  | nil => exact .refl c
  | cons k ks ih =>
      exact (sameReadiness_perform c (hks k List.mem_cons_self)).trans
        (ih _ fun k hk => hks k (List.mem_cons_of_mem _ hk))

/-! ### Registration and start -/

lemma mem_holder_withOptions {connId : UInt32} {isTLS hasConnectCB : Bool}
    {ks : List OptionClass} {side : Side} {code : TelnetCode} :
    code ∈ (withOptions connId isTLS hasConnectCB ks).holder side ↔
      ∃ k ∈ ks, k.opCode = code ∧ (TelnetOption.new k).supports side = true ∧
        (TelnetOption.new k).starts side.other = true := by
  have hreg : ∀ (c : TelnetMudConnection) (op : TelnetOption),
      code ∈ (c.registerOption op).holder side ↔ code ∈ c.holder side ∨
        (op.opCode = code ∧ op.supports side = true ∧ op.starts side.other = true) := by
    intro c op
    unfold registerOption registerHandshake
    cases side <;> cases hl : op.supportLocal <;> cases hd : op.startDo <;>
      cases hr : op.supportRemote <;> cases hw : op.startWill <;>
        simp [holder, TelnetOption.supports, TelnetOption.starts, Side.other, hl, hd, hr, hw,
          or_comm, eq_comm]
  have hfold : ∀ (ks : List OptionClass) (c : TelnetMudConnection),
      code ∈ (ks.foldl (fun c k => c.registerOption (TelnetOption.new k)) c).holder side ↔
        code ∈ c.holder side ∨ ∃ k ∈ ks, k.opCode = code ∧
          (TelnetOption.new k).supports side = true ∧
            (TelnetOption.new k).starts side.other = true := by
    intro ks
    induction ks with
    | nil => simp
    | cons k ks ih =>
        intro c
        rw [List.foldl_cons, ih, hreg, List.exists_mem_cons_iff, or_assoc]
        rfl
  have hnew : code ∉ (new connId isTLS hasConnectCB).holder side := by
    cases side <;> exact Finset.notMem_empty code
  rw [withOptions, hfold]
  simp [hnew]

lemma readiness_withOptions (connId : UInt32) (isTLS hasConnectCB : Bool)
    (ks : List OptionClass) :
    (withOptions connId isTLS hasConnectCB ks).hsSpecial = ∅ ∧
      (withOptions connId isTLS hasConnectCB ks).started = false ∧
      (withOptions connId isTLS hasConnectCB ks).calls = [] := by
  obtain ⟨t, l, r, h⟩ := withOptions_eq connId isTLS hasConnectCB ks
  rw [h]
  exact ⟨rfl, rfl, rfl⟩

/-- **The order of the map does not matter**: whatever order the registered options are walked
through in, there are registrations of the same classes that come to it. -/
theorem exists_withOptions_eq_walking {connId : UInt32} {isTLS hasConnectCB : Bool}
    {ks : List OptionClass} {walk : OptionTable}
    (hwalk : walk.rows.Perm (withOptions connId isTLS hasConnectCB ks).options.rows) :
    ∃ ks' : List OptionClass, (∀ k, k ∈ ks' ↔ k ∈ ks) ∧
      withOptions connId isTLS hasConnectCB ks' =
        (withOptions connId isTLS hasConnectCB ks).walking walk := by
  have hrows : ∀ op ∈ walk.rows, ∃ k ∈ ks, op = TelnetOption.new k := fun op hop =>
    find?_withOptions (Table.find?_eq_some_iff.mpr ⟨hwalk.mem_iff.mp hop, rfl⟩)
  -- the options walked through, and then what is registered anyway
  have hmem : ∀ k, k ∈ walk.rows.map (·.toOptionClass) ++ ks ↔ k ∈ ks := by
    intro k
    rw [List.mem_append, List.mem_map, or_iff_right_iff_imp]
    rintro ⟨op, hop, rfl⟩
    obtain ⟨k, hk, rfl⟩ := hrows op hop
    exact hk
  refine ⟨_, hmem, ?_⟩
  have hnew : (walk.rows.map (·.toOptionClass)).map TelnetOption.new = walk.rows := by
    rw [List.map_map]
    refine (List.map_congr_left fun op hop => ?_).trans (List.map_id' _)
    obtain ⟨k, -, rfl⟩ := hrows op hop
    rfl
  have hoptions : (withOptions connId isTLS hasConnectCB
      (walk.rows.map (·.toOptionClass) ++ ks)).options = walk := by
    rw [options_withOptions, List.map_append, hnew]
    rw [options_withOptions] at hwalk
    exact Table.foldl_insert_append hwalk
  have hholder : ∀ side, (withOptions connId isTLS hasConnectCB
      (walk.rows.map (·.toOptionClass) ++ ks)).holder side =
        (withOptions connId isTLS hasConnectCB ks).holder side := fun side =>
    Finset.ext fun code => by simp only [mem_holder_withOptions, hmem]
  obtain ⟨t, l, r, h⟩ := withOptions_eq connId isTLS hasConnectCB ks
  obtain ⟨t', l', r', h'⟩ := withOptions_eq connId isTLS hasConnectCB
    (walk.rows.map (·.toOptionClass) ++ ks)
  rw [h, h'] at hholder
  rw [h'] at hoptions
  obtain rfl : t' = walk := hoptions
  obtain rfl : l' = l := hholder .localSide
  obtain rfl : r' = r := hholder .remoteSide
  rw [h, h', walking]

lemma onConnect_spec (c : TelnetMudConnection) (code : TelnetCode) :
    SameReadiness c (c.onOption code TelnetOption.onConnect) ∧
      (c.onOption code TelnetOption.onConnect).sent = c.sent ++ Peer.offersOf c.options code := by
  cases hop : c.options.find? code with
  | none =>
      rw [onOption_none hop]
      exact ⟨.refl c, by simp [Peer.offersOf, hop]⟩
  | some op =>
      refine ⟨?_, ?_⟩
      · rw [onOption, hop]
        refine SameReadiness.trans ?_ (sameReadiness_foldl_perform _ fun k hk => ?_)
        · exact ⟨fun side => by cases side <;> rfl, rfl, rfl⟩
        · rw [TelnetOption.onConnect_calls] at hk
          obtain ⟨m, -, rfl⟩ := List.mem_map.mp hk
          simp
      · rw [(onOption_some hop _).1, Peer.negotiation?_onConnect]
        simp [Peer.offersOf, hop]

/-- **The loop of `start` over the options.** -/
lemma foldl_onConnect (codes : List TelnetCode) (hnodup : codes.Nodup) (c : TelnetMudConnection) :
    SameReadiness c (codes.foldl (fun c k => c.onOption k TelnetOption.onConnect) c) ∧
      (codes.foldl (fun c k => c.onOption k TelnetOption.onConnect) c).sent =
        c.sent ++ codes.flatMap (Peer.offersOf c.options) ∧
      ∀ code, (codes.foldl (fun c k => c.onOption k TelnetOption.onConnect) c).options.find? code =
        if code ∈ codes then (c.options.find? code).map fun op => op.onConnect.1
        else c.options.find? code := by
  induction codes generalizing c with
  | nil => exact ⟨.refl c, by simp, by simp⟩
  | cons k codes ih =>
      obtain ⟨hk, hrest⟩ := List.nodup_cons.mp hnodup
      obtain ⟨hsame, hsent⟩ := onConnect_spec c k
      obtain ⟨hsame', hsent', hfind⟩ := ih hrest (c.onOption k TelnetOption.onConnect)
      have hclasses : SameClasses c.options (c.onOption k TelnetOption.onConnect).options :=
        sameClasses_onOption c k fun op => by simp
      refine ⟨hsame.trans hsame', ?_, fun code => ?_⟩
      · rw [List.foldl_cons, hsent', hsent, Peer.offersOf_of_sameClasses hclasses]
        simp
      · rw [List.foldl_cons, hfind]
        by_cases hcode : k = code
        · subst hcode
          rw [if_neg hk, if_pos List.mem_cons_self]
          cases hop : c.options.find? k with
          | none => rw [onOption_none hop, hop]; rfl
          | some op => exact find?_onOption hop (by simp)
        · rw [find?_onOption_of_ne c hcode fun op => by simp]
          simp [Ne.symm hcode]

lemma start_spec (c : TelnetMudConnection) :
    SameReadiness c c.start ∧
      c.start.sent = c.sent ++ c.options.keys.flatMap (Peer.offersOf c.options) ∧
      ∀ code, c.start.options.find? code =
        (c.options.find? code).map fun op => op.onConnect.1 := by
  have hsend : SameReadiness c c.send.receive := by
    refine (sameReadiness_send c).trans ?_
    exact ⟨fun side => by cases side <;> rfl, rfl, rfl⟩
  have hoptions : c.send.receive.options = c.options := options_send c
  have hsent : c.send.receive.sent = c.sent := sent_send c
  obtain ⟨hsame, hsents, hfind⟩ := foldl_onConnect c.send.receive.options.keys
    c.send.receive.options.distinct c.send.receive
  refine ⟨(hsend.trans hsame).trans ?_, ?_, fun code => ?_⟩
  · exact ⟨fun side => by cases side <;> rfl, rfl, rfl⟩
  · refine hsents.trans ?_
    rw [hoptions, hsent]
  · refine (hfind code).trans ?_
    rw [hoptions]
    by_cases hmem : code ∈ c.options.keys
    · rw [if_pos hmem]
    · rw [if_neg hmem, Table.find?_eq_none_iff.mpr hmem]
      rfl

/-! ### Answers -/

/-- The peer's answer to a request. -/
structure Answer where
  side : Side
  option : TelnetCode
  agreed : Bool

def Answer.request (a : Answer) : Negotiation := (a.side.request, a.option)

def Answer.command (a : Answer) : TelnetCode := a.side.other.command a.agreed

/-- An answer reaches `receiveNegotiate` of its option. -/
def answer (c : TelnetMudConnection) (a : Answer) : TelnetMudConnection :=
  c.onOption a.option fun op => op.receiveNegotiate a.command

def answerAll (c : TelnetMudConnection) (answers : List Answer) : TelnetMudConnection :=
  answers.foldl answer c

/-- The option has asked for the side and waits for the answer. -/
def Outstanding (c : TelnetMudConnection) (a : Answer) : Prop :=
  ∃ op, c.options.find? a.option = some op ∧ op.supports a.side = true ∧
    op.perspective a.side = { negotiating := true }

lemma receiveNegotiate_outstanding {op : TelnetOption} {side : Side}
    (hsupports : op.supports side = true) (hp : op.perspective side = { negotiating := true })
    (m : Bool) : op.receiveNegotiate (side.other.command m) =
      (op.setPerspective { enabled := m, negotiating := false, answered := true } side,
        (if m then [.enable side op.opCode] else []) ++ [.processHandshake side op.opCode]) := by
  obtain ⟨⟨code, w, d, l, r⟩, lp, rp⟩ := op
  cases side
  · obtain rfl : l = true := hsupports
    obtain rfl : lp = { negotiating := true } := hp
    cases m <;> rfl
  · obtain rfl : r = true := hsupports
    obtain rfl : rp = { negotiating := true } := hp
    cases m <;> rfl

lemma answer_spec {c : TelnetMudConnection} {a : Answer} (h : Outstanding c a)
    (hspecial : c.hsSpecial = ∅) :
    (answer c a).hsSpecial = ∅ ∧
      (∀ side, (answer c a).holder side =
        if side = a.side then (c.holder a.side).erase a.option else c.holder side) ∧
      ((answer c a).started = true ↔ c.started = true ∨ ∀ side, (answer c a).holder side = ∅) := by
  obtain ⟨op, hop, hsupports, hp⟩ := h
  have hcode : op.opCode = a.option := (Table.find?_eq_some_iff.mp hop).2
  have hreceive := receiveNegotiate_outstanding hsupports hp a.agreed
  let d : TelnetMudConnection := (if a.agreed then [Call.enable a.side op.opCode] else []).foldl
    perform { c with options := c.options.insert (op.receiveNegotiate a.command).1 }
  have hd : SameReadiness c d := by
    refine SameReadiness.trans ?_ (sameReadiness_foldl_perform _ fun k hk => ?_)
    · exact ⟨fun side => by cases side <;> rfl, rfl, rfl⟩
    · split_ifs at hk
      · rw [List.mem_singleton.mp hk]
        simp
      · cases hk
  have hanswer : answer c a = d.processHandshake a.side a.option := by
    have hcalls : (op.receiveNegotiate a.command).2 =
        (if a.agreed then [Call.enable a.side op.opCode] else []) ++
          [.processHandshake a.side a.option] := by
      rw [Answer.command, hreceive, hcode]
    rw [answer, onOption, hop]
    dsimp only
    rw [hcalls, List.foldl_append]
    rfl
  obtain ⟨hholder, hspec, hstarted⟩ := d.processHandshake_spec a.side a.option
  have hnone : d.hsSpecial = ∅ := hd.special.trans hspecial
  rw [hanswer]
  refine ⟨hspec.trans hnone, fun side => ?_, ?_⟩
  · rw [hholder, hd.holder, hd.holder]
  · rw [hstarted, hd.started]
    simp only [hnone, true_and]

lemma Outstanding.answer {c : TelnetMudConnection} {a b : Answer} (ha : Outstanding c a)
    (hb : Outstanding c b) (hne : a.request ≠ b.request) : Outstanding (answer c a) b := by
  obtain ⟨op, hop, hsupports, hp⟩ := ha
  obtain ⟨op', hop', hsupports', hp'⟩ := hb
  by_cases hoption : a.option = b.option
  · have hside : b.side ≠ a.side := by
      intro hs
      rw [Answer.request, Answer.request, hs, hoption] at hne
      exact hne rfl
    rw [← hoption, hop] at hop'
    cases hop'
    have hreceive := receiveNegotiate_outstanding hsupports hp a.agreed
    refine ⟨(op.receiveNegotiate a.command).1, ?_, ?_, ?_⟩
    · rw [← hoption]
      exact find?_onOption hop (by simp)
    · revert hsupports'
      cases b.side <;> simp [TelnetOption.supports]
    · rw [Answer.command, hreceive]
      exact (op.perspective_setPerspective_of_ne _ hside).trans hp'
  · refine ⟨op', ?_, hsupports', hp'⟩
    exact (find?_onOption_of_ne c hoption fun op => by simp).trans hop'

/-- Some answers have come to a connection that was waiting as `c`, and others are due. -/
structure Progress (c : TelnetMudConnection) (come due : List Answer) (d : TelnetMudConnection) :
    Prop where
  special : d.hsSpecial = ∅
  holder : ∀ side code, code ∈ d.holder side ↔ code ∈ c.holder side ∧
    ∀ a ∈ come, ¬ (a.side = side ∧ a.option = code)
  started : d.started = true ↔ come ≠ [] ∧ ∀ side, d.holder side = ∅
  outstanding : ∀ a ∈ due, Outstanding d a

lemma Progress.answer {c d : TelnetMudConnection} {come due : List Answer} {a : Answer}
    (h : Progress c come (a :: due) d) (hne : ∀ b ∈ due, a.request ≠ b.request) :
    Progress c (come ++ [a]) due (answer d a) := by
  have ha := h.outstanding a List.mem_cons_self
  obtain ⟨hspecial, hholder, hstarted⟩ := answer_spec ha h.special
  refine ⟨hspecial, fun side code => ?_, ?_, fun b hb => ?_⟩
  · rw [hholder]
    have hold := h.holder side code
    by_cases hside : side = a.side
    · subst hside
      rw [if_pos rfl, Finset.mem_erase, hold]
      simp only [List.mem_append, List.mem_singleton, or_imp, forall_and, forall_eq, true_and,
        ne_eq, eq_comm (a := code)]
      tauto
    · rw [if_neg hside, hold]
      simp only [List.mem_append, List.mem_singleton, or_imp, forall_and, forall_eq, Ne.symm hside,
        false_and, not_false_eq_true, and_true]
  · rw [hstarted]
    refine ⟨fun hor => ⟨by simp, ?_⟩, fun hand => Or.inr hand.2⟩
    rcases hor with hbefore | hempty
    · -- nothing was left to wait for, and an answer adds nothing
      have hall := (h.started.mp hbefore).2
      intro side
      rw [hholder, hall, hall]
      split_ifs <;> simp
    · exact hempty
  · exact ha.answer (h.outstanding b (List.mem_cons_of_mem _ hb)) (hne b hb)

/-- **Answers one after the other.** -/
lemma Progress.answerAll {c d : TelnetMudConnection} {come due : List Answer}
    (h : Progress c come due d) (hnodup : (due.map Answer.request).Nodup) (k : ℕ) :
    Progress c (come ++ due.take k) (due.drop k) (answerAll d (due.take k)) := by
  induction due generalizing come d k with
  | nil => simpa [TelnetMudConnection.answerAll] using h
  | cons a due ih =>
      cases k with
      | zero => simpa [TelnetMudConnection.answerAll] using h
      | succ k =>
          obtain ⟨hnot, hrest⟩ := List.nodup_cons.mp hnodup
          have hne : ∀ b ∈ due, a.request ≠ b.request := fun b hb heq =>
            hnot (heq ▸ List.mem_map_of_mem hb)
          have hnext := ih (h.answer hne) hrest k
          rw [List.append_assoc] at hnext
          exact hnext

/-! ### Readiness -/

/-- The connection is ready after the last of the answers, and not before. -/
def Timely (c : TelnetMudConnection) (answers : List Answer) : Prop :=
  ∀ k ≤ answers.length,
    (answerAll c (answers.take k)).started = true ↔ k = answers.length

/-- Each handshake waited for is among the answers. -/
def Covered (c : TelnetMudConnection) (answers : List Answer) : Prop :=
  ∀ side, ∀ code ∈ c.holder side, ∃ a ∈ answers, a.side = side ∧ a.option = code

lemma Progress.started_iff {c d : TelnetMudConnection} {come due : List Answer}
    (h : Progress c come due d) : d.started = true ↔ come ≠ [] ∧ Covered c come := by
  rw [h.started]
  refine and_congr_right fun _ => ?_
  refine forall_congr' fun side => ?_
  rw [Finset.eq_empty_iff_forall_notMem]
  refine forall_congr' fun code => ?_
  rw [h.holder]
  simp only [not_and, not_forall, not_not]
  simp only [exists_prop]

/-- Only the last answer can be the one that completes a cover. -/
lemma covered_take_iff {c : TelnetMudConnection} {init : List Answer} {x : Answer}
    (hnodup : ((init ++ [x]).map Answer.request).Nodup) :
    (∀ k ≤ (init ++ [x]).length, ((init ++ [x]).take k ≠ [] ∧ Covered c ((init ++ [x]).take k)) ↔
        k = (init ++ [x]).length) ↔
      Covered c (init ++ [x]) ∧ (init = [] ∨ x.option ∈ c.holder x.side) := by
  have hlen : (init ++ [x]).length = init.length + 1 := by simp
  have hfull : (init ++ [x]).take (init ++ [x]).length = init ++ [x] := List.take_length
  refine ⟨fun h => ?_, fun ⟨hcover, hlast⟩ k hk => ⟨fun ⟨hne, hck⟩ => ?_, fun hk' => ?_⟩⟩
  · have hcover : Covered c (init ++ [x]) := by
      have hall := ((h _ le_rfl).mpr rfl).2
      rwa [hfull] at hall
    refine ⟨hcover, ?_⟩
    by_contra hnot
    rw [not_or] at hnot
    have hinit : (init ++ [x]).take init.length = init := List.take_left
    have hearly := (h init.length (by omega)).mp
    rw [hinit] at hearly
    have hcovered : Covered c init := by
      intro side code hmem
      obtain ⟨a, ha, hside, hoption⟩ := hcover side code hmem
      rcases List.mem_append.mp ha with ha | ha
      · exact ⟨a, ha, hside, hoption⟩
      · rw [List.mem_singleton.mp ha] at hside hoption
        rw [← hside, ← hoption] at hmem
        exact absurd hmem hnot.2
    have := hearly ⟨hnot.1, hcovered⟩
    omega
  · by_contra hlt
    have htake : (init ++ [x]).take k = init.take k := by
      rw [List.take_append_of_le_length (by omega)]
    rw [htake] at hne hck
    rcases hlast with hnil | hmem
    · simp [hnil] at hne
    · -- the handshake of the last answer cannot have been covered before
      obtain ⟨a, ha, hside, hoption⟩ := hck x.side x.option hmem
      have hrequest : a.request = x.request := by
        rw [Answer.request, Answer.request, hside, hoption]
      rw [List.map_append, List.nodup_append] at hnodup
      exact hnodup.2.2 a.request (List.mem_map_of_mem (List.mem_of_mem_take ha)) x.request
        (by simp) hrequest
  · rw [hk', hfull]
    exact ⟨by simp, hcover⟩

/-- Registration makes the connection wait for a side of `code`. -/
def WaitsFor (a : Setup) (side : Side) (code : TelnetCode) : Prop :=
  ∃ k ∈ a.options.classes, k.opCode = code ∧ (TelnetOption.new k).supports side = true ∧
    (TelnetOption.new k).starts side.other = true

/-- An option is registered under `code` that starts the side. -/
def Starts (a : Setup) (side : Side) (code : TelnetCode) : Prop :=
  ∃ op, a.connection.options.find? code = some op ∧ op.starts side = true

lemma mem_offers_iff {op : TelnetOption} {side : Side} :
    (side.request, op.opCode) ∈ op.offers ↔ op.starts side = true := by
  have hne := TelnetCode.WILL_ne_DO
  unfold TelnetOption.offers
  cases side <;> cases hw : op.startWill <;> cases hd : op.startDo <;>
    simp [Side.request, TelnetOption.starts, hw, hd, hne, hne.symm]

lemma sent_start (a : Setup) : a.connection.start.sent =
    a.connection.options.keys.flatMap (Peer.offersOf a.connection.options) := by
  have hnone : a.connection.sent = [] := by
    rw [sent, Setup.connection, (readiness_withOptions _ _ _ _).2.2]
    rfl
  rw [(start_spec _).2.1, hnone, List.nil_append]

lemma mem_sent_start {a : Setup} {side : Side} {code : TelnetCode} :
    (side.request, code) ∈ a.connection.start.sent ↔ Starts a side code := by
  rw [sent_start, List.mem_flatMap]
  constructor
  · rintro ⟨code', -, hmem⟩
    obtain ⟨rfl, -⟩ := Peer.offersOf_request hmem
    cases hop : a.connection.options.find? code with
    | none => simp [Peer.offersOf, hop] at hmem
    | some op =>
        refine ⟨op, hop, ?_⟩
        have hcode : op.opCode = code := (Table.find?_eq_some_iff.mp hop).2
        rw [← mem_offers_iff, hcode]
        simpa [Peer.offersOf, hop] using hmem
  · rintro ⟨op, hop, hstarts⟩
    refine ⟨code, Table.mem_keys_of_find? hop, ?_⟩
    have hcode : op.opCode = code := (Table.find?_eq_some_iff.mp hop).2
    have hmem := mem_offers_iff.mpr hstarts
    rw [hcode] at hmem
    simpa [Peer.offersOf, hop] using hmem

lemma nodup_sent_start (a : Setup) : a.connection.start.sent.Nodup := by
  rw [sent_start, List.nodup_flatMap]
  refine ⟨fun code _ => ?_, a.connection.options.distinct.imp fun {x y} hne m hx hy => ?_⟩
  · have hoffers : ∀ op : TelnetOption, op.offers.Nodup := by
      intro op
      unfold TelnetOption.offers
      cases op.startWill <;> cases op.startDo <;> simp [TelnetCode.WILL_ne_DO]
    unfold Peer.offersOf
    cases a.connection.options.find? code with
    | none => exact List.nodup_nil
    | some op => exact hoffers op
  · exact hne ((Peer.offersOf_request hx).1.symm.trans (Peer.offersOf_request hy).1)

/-- When the connection has started, everything it has asked for is outstanding. -/
lemma progress_start {a : Setup} {answers : List Answer}
    (h : (answers.map Answer.request).Perm a.connection.start.sent) :
    Progress a.connection.start [] answers a.connection.start := by
  obtain ⟨hspecial, hstarted, -⟩ :=
    readiness_withOptions a.connId a.isTLS a.hasConnectCB a.options.classes
  obtain ⟨hsame, -, hfind⟩ := start_spec a.connection
  refine ⟨hsame.special.trans hspecial, by simp, ?_, fun x hx => ?_⟩
  · rw [hsame.started, Setup.connection, hstarted]
    simp
  · have hmem : (x.side.request, x.option) ∈ a.connection.start.sent :=
      h.mem_iff.mp (List.mem_map_of_mem (f := Answer.request) hx)
    obtain ⟨op, hop, hstarts⟩ := mem_sent_start.mp hmem
    obtain ⟨k, hk, rfl⟩ := find?_withOptions hop
    refine ⟨(TelnetOption.new k).onConnect.1, by rw [hfind, hop]; rfl, ?_, ?_⟩
    · have hsupports : (TelnetOption.new k).supports x.side = true := by
        revert hstarts
        cases x.side
        · exact (a.options.coherent k hk).startWill
        · exact (a.options.coherent k hk).startDo
      revert hsupports
      cases x.side <;> simp [TelnetOption.supports]
    · obtain ⟨code, w, d, l, r⟩ := k
      revert hstarts
      cases x.side <;> intro hstarts
      · obtain rfl : w = true := hstarts
        cases d <;> rfl
      · obtain rfl : d = true := hstarts
        cases w <;> rfl

lemma covered_start_iff {a : Setup} {answers : List Answer}
    (h : (answers.map Answer.request).Perm a.connection.start.sent) :
    Covered a.connection.start answers ↔
      ∀ side code, WaitsFor a side code → Starts a side code := by
  refine forall_congr' fun side => forall_congr' fun code => ?_
  have hholder : code ∈ a.connection.start.holder side ↔ WaitsFor a side code := by
    rw [(start_spec _).1.holder]
    exact mem_holder_withOptions
  rw [hholder]
  refine imp_congr_right fun _ => ?_
  rw [← mem_sent_start, ← h.mem_iff, List.mem_map]
  refine exists_congr fun x => and_congr_right fun _ => ?_
  rw [Answer.request, Prod.mk.injEq, Side.request_inj]

/-- **Readiness**: a connection becomes ready exactly when the last answer arrives, if and
only if each side that registration waits for is started, and the last answer is for such a
side or is the only one. -/
theorem timely_iff_waitsFor (a : Setup) (answers : List Answer)
    (h : (answers.map Answer.request).Perm a.connection.start.sent) :
    Timely a.connection.start answers ↔
      (∀ side code, WaitsFor a side code → Starts a side code) ∧
        (answers.length = 1 ∨ ∃ x, answers.getLast? = some x ∧ WaitsFor a x.side x.option) := by
  have hnodup : (answers.map Answer.request).Nodup := h.nodup_iff.mpr (nodup_sent_start a)
  have hstarted : ∀ k, (answerAll a.connection.start (answers.take k)).started = true ↔
      answers.take k ≠ [] ∧ Covered a.connection.start (answers.take k) := by
    intro k
    have hprogress := (progress_start h).answerAll hnodup k
    rw [List.nil_append] at hprogress
    exact hprogress.started_iff
  have htimely : Timely a.connection.start answers ↔ ∀ k ≤ answers.length,
      (answers.take k ≠ [] ∧ Covered a.connection.start (answers.take k)) ↔ k = answers.length :=
    forall_congr' fun k => forall_congr' fun _ => by rw [hstarted]
  rw [htimely, ← covered_start_iff h]
  rcases List.eq_nil_or_concat answers with rfl | ⟨init, x, rfl⟩
  · simp
  · rw [List.concat_eq_append] at hnodup ⊢
    rw [covered_take_iff hnodup]
    refine and_congr_right fun _ => ?_
    have hwaits : x.option ∈ a.connection.start.holder x.side ↔ WaitsFor a x.side x.option := by
      rw [(start_spec _).1.holder]
      exact mem_holder_withOptions
    simp [hwaits, List.length_eq_zero_iff]

/-- One option of the class `k`, on a plain connection. -/
def single (k : OptionClass) (hk : k.Coherent) : Setup where
  connId := 0
  isTLS := false
  hasConnectCB := true
  options := ⟨[k], by simpa using hk⟩

/-- An option that starts both sides is waited for as it should be. -/
theorem both_sides_timely :
    let a := single ⟨31, true, true, true, true⟩ ⟨by decide, by decide⟩
    Timely a.connection.start [⟨.localSide, 31, true⟩, ⟨.remoteSide, 31, false⟩] := by
  intro a
  have hstarts : ∀ side, Starts a side 31 := fun side => ⟨_, rfl, by cases side <;> rfl⟩
  refine (timely_iff_waitsFor a _ (List.Perm.refl _)).mpr ⟨?_, Or.inr ⟨_, rfl, ?_⟩⟩
  · rintro side code ⟨k, hk, rfl, -⟩
    rw [List.mem_singleton.mp hk]
    exact hstarts side
  · exact ⟨_, List.mem_singleton_self _, rfl, rfl, rfl⟩

/-- The only answer there is has come, and the connection is left to the timer. -/
theorem answered_option_left_to_timer :
    let a := single ⟨31, true, false, true, true⟩ ⟨by decide, by decide⟩
    ([⟨.localSide, 31, true⟩].map Answer.request).Perm a.connection.start.sent ∧
      ¬ Timely a.connection.start [⟨.localSide, 31, true⟩] := by
  intro a
  refine ⟨List.Perm.refl _, fun h => ?_⟩
  have hready : (answerAll a.connection.start [⟨.localSide, 31, true⟩]).started = true :=
    (h 1 le_rfl).mpr rfl
  have hwaiting : (answerAll a.connection.start [⟨.localSide, 31, true⟩]).started = false := by
    decide
  rw [hwaiting] at hready
  cases hready

end TelnetMudConnection

end ForgeMush
