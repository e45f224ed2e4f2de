import ForgeMush.Peers
import Mathlib.Data.Finset.Card

/-!
How many negotiations two connections send each other.

The dispatcher echoes every WILL and DO for an option it knows. One for an option that both
connections know is echoed back in turn, and so on for ever. One for any other option is
refused by the peer, which ends it, and an option opens with at most two of them.
-/

namespace ForgeMush

open Runs

namespace Peer

open TelnetMudConnection

/-- Peers that hand a negotiation to `onReceiveNegotiation`. -/
def dispatching : Duplex.Party Peer Negotiation where
  start := startTurn
  deliver := handle fun c m => c.onReceiveNegotiation m.1 m.2

/-- The option codes registered on either side. -/
def codes (a b : TelnetMudConnection) : Finset TelnetCode :=
  (a.options.keys ++ b.options.keys).toFinset

/-- At most four negotiations are sent for an option code, and every run comes to an end. -/
def NoLoop (a b : TelnetMudConnection) : Prop :=
  (∀ tr, Run (Duplex.Step dispatching) (joined a b) tr →
      (final (joined a b) tr).sent ≤ 4 * (codes a b).card) ∧
    ∃ n, ∀ tr, Run (Duplex.Step dispatching) (joined a b) tr → tr.length ≤ n

/-- An option that both connections have registered is started by neither of them. -/
def NoSharedStart (a b : OptionTable) : Prop :=
  ∀ code op op', a.find? code = some op → b.find? code = some op' →
    ∀ side, op.starts side = false ∧ op'.starts side = false

/-- The same of what `onConnect` sends. -/
def NoSharedOffer (a b : OptionTable) : Prop :=
  ∀ code, a.find? code ≠ none → b.find? code ≠ none →
    offersOf a code = [] ∧ offersOf b code = []

lemma offersOf_eq_nil_iff {t : OptionTable} {code : TelnetCode} {op : TelnetOption}
    (h : t.find? code = some op) : offersOf t code = [] ↔ ∀ side, op.starts side = false := by
  have hoffers : offersOf t code = op.offers := by simp [offersOf, h]
  have hstarts : (∀ side, op.starts side = false) ↔ op.startWill = false ∧ op.startDo = false :=
    ⟨fun hs => ⟨hs .localSide, hs .remoteSide⟩, fun hs side => by cases side <;> simp [hs,
      TelnetOption.starts]⟩
  rw [hoffers, hstarts, TelnetOption.offers]
  cases op.startWill <;> cases op.startDo <;> simp

lemma noSharedStart_iff {a b : OptionTable} : NoSharedStart a b ↔ NoSharedOffer a b := by
  refine ⟨fun h code ha hb => ?_, fun h code op op' hop hop' side => ?_⟩
  · obtain ⟨op, hop⟩ := Option.ne_none_iff_exists'.mp ha
    obtain ⟨op', hop'⟩ := Option.ne_none_iff_exists'.mp hb
    rw [offersOf_eq_nil_iff hop, offersOf_eq_nil_iff hop']
    exact ⟨fun side => (h code op op' hop hop' side).1, fun side => (h code op op' hop hop' side).2⟩
  · obtain ⟨hnil, hnil'⟩ := h code (by simp [hop]) (by simp [hop'])
    exact ⟨(offersOf_eq_nil_iff hop).mp hnil side, (offersOf_eq_nil_iff hop').mp hnil' side⟩

lemma NoSharedOffer.symm {a b : OptionTable} (h : NoSharedOffer a b) : NoSharedOffer b a :=
  fun code hb ha => (h code ha hb).symm

lemma NoSharedOffer.of_sameClasses {a a' b : OptionTable} (h : NoSharedOffer a b)
    (ha : SameClasses a a') : NoSharedOffer a' b := by
  intro code ha' hb
  rw [offersOf_of_sameClasses ha]
  refine h code (fun hnone => ha' ?_) hb
  simpa [hnone] using ha code

lemma find?_eq_none_of_sameClasses {t t' : OptionTable} (h : SameClasses t t')
    {code : TelnetCode} (hnone : t.find? code = none) : t'.find? code = none := by
  simpa [hnone] using h code

/-! ### Runs without a loop -/

def isRequest (m : Negotiation) : Bool := m.1 = TelnetCode.WILL || m.1 = TelnetCode.DO

/-- Nothing in the channel opens an option the receiver knows. -/
def Unknown (channel : List Negotiation) (t : OptionTable) : Prop :=
  ∀ m ∈ channel, isRequest m = true → t.find? m.2 = none

/-- What a peer has still to open. -/
def load (p : Peer) : ℕ := (p.toStart.flatMap (offersOf p.conn.options)).length

/-- What may still be sent: an opening command and its refusal, or the refusal alone. -/
def potential (s : Duplex.State Peer Negotiation) : ℕ :=
  2 * load s.left + 2 * load s.right + s.toRight.countP isRequest + s.toLeft.countP isRequest

/-- At most `n` negotiations will ever have been sent. -/
structure Ending (n : ℕ) (s : Duplex.State Peer Negotiation) : Prop where
  shared : NoSharedOffer s.left.conn.options s.right.conn.options
  toRight : Unknown s.toRight s.right.conn.options
  toLeft : Unknown s.toLeft s.left.conn.options
  bound : s.sent + potential s ≤ n

lemma Ending.swap {n : ℕ} {s : Duplex.State Peer Negotiation} (h : Ending n s) :
    Ending n s.swap := by
  refine ⟨h.shared.symm, h.toLeft, h.toRight, ?_⟩
  have := h.bound
  simp only [Duplex.State.swap, potential] at this ⊢
  omega

lemma isRequest_iff {m : Negotiation} :
    isRequest m = true ↔ m.1 = TelnetCode.WILL ∨ m.1 = TelnetCode.DO := by
  simp [isRequest]

lemma countP_offersOf (t : OptionTable) (code : TelnetCode) :
    (offersOf t code).countP isRequest = (offersOf t code).length :=
  List.countP_eq_length.mpr fun _ hm => isRequest_iff.mpr (offersOf_request hm).2

lemma Ending.start {n : ℕ} {s t : Duplex.State Peer Negotiation} (h : Ending n s)
    (hstep : Duplex.StartStep dispatching s t) : Ending n t := by
  obtain ⟨q, out, hq, rfl⟩ := hstep
  have hclass := startTurn_sameClasses hq
  obtain ⟨code, hts, -, rfl⟩ := startTurn_cases hq
  have hload : load s.left = (offersOf s.left.conn.options code).length + load q := by
    rw [load, hts, load, offersOf_of_sameClasses hclass]
    simp
  have hunknown : Unknown (offersOf s.left.conn.options code) s.right.conn.options := by
    intro m hm _
    obtain ⟨hcode, -⟩ := offersOf_request hm
    by_contra hknown
    rw [hcode] at hknown
    have hown : s.left.conn.options.find? code ≠ none := by
      intro hnone
      simp [offersOf, hnone] at hm
    rw [(h.shared code hown hknown).1] at hm
    cases hm
  refine ⟨h.shared.of_sameClasses hclass, ?_, ?_, ?_⟩
  · intro m hm
    rcases List.mem_append.mp hm with hm | hm
    · exact h.toRight m hm
    · exact hunknown m hm
  · exact fun m hm hreq => find?_eq_none_of_sameClasses hclass (h.toLeft m hm hreq)
  · have := h.bound
    simp only [potential, List.countP_append, countP_offersOf, hload] at this ⊢
    omega

lemma Ending.deliver {n : ℕ} {s t : Duplex.State Peer Negotiation} (h : Ending n s)
    (hstep : Duplex.DeliverStep dispatching s t) : Ending n t := by
  obtain ⟨-, ⟨command, option⟩, rest, hm, rfl⟩ := hstep
  have hclass := sameClasses_onReceiveNegotiation s.left.conn command option
  have hreply : (dispatching.deliver s.left (command, option)).2 =
      reply s.left.conn.options command option := replies_onReceiveNegotiation _ _ _
  have hload : load (dispatching.deliver s.left (command, option)).1 = load s.left := by
    show load ⟨s.left.toStart, _⟩ = load s.left
    rw [load, load, offersOf_of_sameClasses hclass]
  have hrest : Unknown rest s.left.conn.options := fun m hmem =>
    h.toLeft m (by rw [hm]; exact List.mem_cons_of_mem _ hmem)
  have hbound := h.bound
  -- a request is answered by a refusal and anything else by nothing
  have hout : Unknown (reply s.left.conn.options command option) s.right.conn.options ∧
      (reply s.left.conn.options command option).countP isRequest = 0 ∧
      (reply s.left.conn.options command option).length =
        [(command, option)].countP isRequest := by
    by_cases hreq : isRequest (command, option) = true
    · have hnone : s.left.conn.options.find? option = none :=
        h.toLeft _ (by rw [hm]; exact List.mem_cons_self) hreq
      obtain ⟨side, hside⟩ := Side.exists_request.mpr (isRequest_iff.mp hreq)
      have hrefusal : isRequest (side.other.refusal, option) = false := by
        cases side <;> rfl
      dsimp only at hside
      subst hside
      rw [reply_request_none hnone]
      refine ⟨fun m hmem hreq' => ?_, ?_, ?_⟩
      · rw [List.mem_singleton.mp hmem, hrefusal] at hreq'
        cases hreq'
      · simp [hrefusal]
      · simp [hreq]
    · have hnil : reply s.left.conn.options command option = [] :=
        if_neg fun hc => hreq (isRequest_iff.mpr hc)
      rw [hnil]
      refine ⟨fun m hmem => absurd hmem (List.not_mem_nil), rfl, ?_⟩
      simp [hreq]
  refine ⟨h.shared.of_sameClasses hclass, ?_, ?_, ?_⟩
  · intro m hmem
    rcases List.mem_append.mp hmem with hmem | hmem
    · exact h.toRight m hmem
    · exact hout.1 m (hreply ▸ hmem)
  · exact fun m hmem hreq => find?_eq_none_of_sameClasses hclass (hrest m hmem hreq)
  · have hcons : s.toLeft.countP isRequest =
        [(command, option)].countP isRequest + rest.countP isRequest := by
      rw [hm, ← List.countP_append]
      rfl
    obtain ⟨-, hcount, hlen⟩ := hout
    simp only [potential, hload, hreply, List.countP_append, hcount, hlen] at hbound ⊢
    omega

lemma Ending.step {n : ℕ} {s t : Duplex.State Peer Negotiation} {e : Duplex.Event}
    (h : Ending n s) (hstep : Duplex.Step dispatching s e t) : Ending n t :=
  Duplex.step_invariant (fun _ => Ending.swap) (fun _ _ => Ending.start)
    (fun _ _ => Ending.deliver) h hstep

/-- The options that `onConnect` opens, among those of a peer. -/
def opened (t : OptionTable) : List TelnetCode := t.keys.filter fun code => offersOf t code ≠ []

lemma load_of (c : TelnetMudConnection) : load (of c) ≤ 2 * (opened c.options).length := by
  have hle : ∀ code, (offersOf c.options code).length ≤ 2 := by
    intro code
    unfold offersOf TelnetOption.offers
    cases c.options.find? code with
    | none => simp
    | some op =>
        simp only [Option.map_some, Option.getD_some, List.length_append]
        split_ifs <;> simp
  have hsum : ∀ l : List TelnetCode, (l.flatMap (offersOf c.options)).length ≤
      2 * (l.filter fun code => offersOf c.options code ≠ []).length := by
    intro l
    induction l with
    | nil => simp
    | cons code l ih =>
        have hcode := hle code
        by_cases hnil : offersOf c.options code = []
        · simpa [hnil] using ih
        · simp only [List.flatMap_cons, List.length_append, List.filter_cons, hnil, ne_eq,
            not_false_eq_true, decide_true, if_true, List.length_cons] at ih ⊢
          omega
  exact hsum c.options.keys

lemma opened_le_codes {a b : TelnetMudConnection} (h : NoSharedOffer a.options b.options) :
    (opened a.options).length + (opened b.options).length ≤ (codes a b).card := by
  have hknown : ∀ {t : OptionTable} {code}, code ∈ opened t → t.find? code ≠ none := by
    intro t code hmem hnone
    exact Table.find?_eq_none_iff.mp hnone (List.mem_filter.mp hmem).1
  have hdisjoint : List.Disjoint (opened a.options) (opened b.options) := by
    intro code ha hb
    have hnil := (h code (hknown ha) (hknown hb)).1
    simpa [hnil] using (List.mem_filter.mp ha).2
  have hnodup : (opened a.options ++ opened b.options).Nodup :=
    (a.options.distinct.filter _).append (b.options.distinct.filter _) hdisjoint
  calc (opened a.options).length + (opened b.options).length
      = (opened a.options ++ opened b.options).toFinset.card := by
        rw [List.toFinset_card_of_nodup hnodup, List.length_append]
    _ ≤ (codes a b).card := by
        refine Finset.card_le_card fun code hmem => ?_
        simp only [codes, List.mem_toFinset, List.mem_append] at hmem ⊢
        exact hmem.imp (fun h => (List.mem_filter.mp h).1) fun h => (List.mem_filter.mp h).1

lemma ending_joined {a b : TelnetMudConnection} (h : NoSharedOffer a.options b.options) :
    Ending (4 * (codes a b).card) (joined a b) := by
  refine ⟨h, fun m hm => absurd hm List.not_mem_nil, fun m hm => absurd hm List.not_mem_nil, ?_⟩
  have ha := load_of a
  have hb := load_of b
  have hopened := opened_le_codes h
  simp only [joined, potential, List.countP_nil]
  omega

lemma noLoop_of_noSharedOffer {a b : TelnetMudConnection}
    (h : NoSharedOffer a.options b.options) : NoLoop a b := by
  have hsent : ∀ tr, Run (Duplex.Step dispatching) (joined a b) tr →
      (final (joined a b) tr).sent ≤ 4 * (codes a b).card := by
    intro tr hrun
    have hend := hrun.invariant (fun _ _ _ hs hstep => Ending.step hs hstep) (ending_joined h)
    have := hend.bound
    omega
  refine ⟨hsent, Duplex.due (fun p => p.toStart.length) (joined a b) + 4 * (codes a b).card, ?_⟩
  intro tr hrun
  have hlen := Duplex.run_length (turns_toStart _) hrun
  have := hsent tr hrun
  have hzero : (joined a b).sent = 0 := rfl
  omega

/-! ### Runs with a loop -/

/-- Both know the option, and a command that opens it is on its way or about to be sent. -/
structure Looping (code : TelnetCode) (s : Duplex.State Peer Negotiation) : Prop where
  left : s.left.conn.options.find? code ≠ none
  right : s.right.conn.options.find? code ≠ none
  live : ((code ∈ s.left.toStart ∧ offersOf s.left.conn.options code ≠ []) ∨
      ∃ m ∈ s.toRight, m.2 = code ∧ isRequest m = true) ∨
    ((code ∈ s.right.toStart ∧ offersOf s.right.conn.options code ≠ []) ∨
      ∃ m ∈ s.toLeft, m.2 = code ∧ isRequest m = true)

lemma Looping.swap {code : TelnetCode} {s : Duplex.State Peer Negotiation}
    (h : Looping code s) : Looping code s.swap := ⟨h.right, h.left, h.live.symm⟩

lemma find?_ne_none_of_sameClasses {t t' : OptionTable} (h : SameClasses t t')
    {code : TelnetCode} (hne : t.find? code ≠ none) : t'.find? code ≠ none :=
  fun hnone => hne (find?_eq_none_of_sameClasses h.symm hnone)

lemma Looping.start {code : TelnetCode} {s t : Duplex.State Peer Negotiation}
    (h : Looping code s) (hstep : Duplex.StartStep dispatching s t) : Looping code t := by
  obtain ⟨q, out, hq, rfl⟩ := hstep
  have hclass := startTurn_sameClasses hq
  obtain ⟨code', hts, -, rfl⟩ := startTurn_cases hq
  refine ⟨find?_ne_none_of_sameClasses hclass h.left, h.right, ?_⟩
  rcases h.live with (⟨hmem, hoffers⟩ | ⟨m, hmem, hm⟩) | hright
  · rw [hts] at hmem
    rcases List.mem_cons.mp hmem with rfl | hmem
    · obtain ⟨m, hm⟩ := List.exists_mem_of_ne_nil _ hoffers
      obtain ⟨hcode, hreq⟩ := offersOf_request hm
      exact Or.inl (Or.inr ⟨m, List.mem_append_right _ hm, hcode, isRequest_iff.mpr hreq⟩)
    · exact Or.inl (Or.inl ⟨hmem, by rwa [offersOf_of_sameClasses hclass]⟩)
  · exact Or.inl (Or.inr ⟨m, List.mem_append_left _ hmem, hm⟩)
  · exact Or.inr hright

lemma Looping.deliver {code : TelnetCode} {s t : Duplex.State Peer Negotiation}
    (h : Looping code s) (hstep : Duplex.DeliverStep dispatching s t) : Looping code t := by
  obtain ⟨-, ⟨command, option⟩, rest, hm, rfl⟩ := hstep
  have hclass := sameClasses_onReceiveNegotiation s.left.conn command option
  have hreply : (dispatching.deliver s.left (command, option)).2 =
      reply s.left.conn.options command option := replies_onReceiveNegotiation _ _ _
  refine ⟨find?_ne_none_of_sameClasses hclass h.left, h.right, ?_⟩
  rcases h.live with (⟨hmem, hoffers⟩ | ⟨m, hmem, hmsg⟩) | (hstart | ⟨m, hmem, hmsg⟩)
  · refine Or.inl (Or.inl ⟨hmem, ?_⟩)
    show offersOf (s.left.conn.onReceiveNegotiation command option).options code ≠ []
    rwa [offersOf_of_sameClasses hclass]
  · exact Or.inl (Or.inr ⟨m, List.mem_append_left _ hmem, hmsg⟩)
  · exact Or.inr (Or.inl hstart)
  · rw [hm] at hmem
    rcases List.mem_cons.mp hmem with rfl | hmem
    · -- the command itself is delivered, and comes back
      obtain ⟨rfl, hreq⟩ := hmsg
      obtain ⟨op, hop⟩ := Option.ne_none_iff_exists'.mp h.left
      obtain ⟨side, hside⟩ := Side.exists_request.mpr (isRequest_iff.mp hreq)
      dsimp only at hside hop
      subst hside
      refine Or.inl (Or.inr ⟨(side.request, option), List.mem_append_right _ ?_, rfl, hreq⟩)
      rw [hreply, reply_request_some hop]
      exact List.mem_singleton_self _
    · exact Or.inr (Or.inr ⟨m, hmem, hmsg⟩)

lemma Looping.not_quiet {code : TelnetCode} {s : Duplex.State Peer Negotiation}
    (h : Looping code s) : ¬ Duplex.Quiet dispatching s := by
  rintro ⟨⟨hleft, hright⟩, htoRight, htoLeft⟩
  have hl : s.left.toStart = [] := startTurn_eq_none.mp hleft
  have hr : s.right.toStart = [] := startTurn_eq_none.mp hright
  rcases h.live with (⟨hmem, -⟩ | ⟨m, hmem, -⟩) | (⟨hmem, -⟩ | ⟨m, hmem, -⟩)
  · simp [hl] at hmem
  · simp [htoRight] at hmem
  · simp [hr] at hmem
  · simp [htoLeft] at hmem

lemma not_noLoop_of_looping {a b : TelnetMudConnection} {code : TelnetCode}
    (h : Looping code (joined a b)) : ¬ NoLoop a b := by
  intro hno
  have hprogress : ∀ s, Looping code s →
      ∃ e t, Duplex.Step dispatching s e t ∧ Looping code t := by
    intro s hs
    obtain ⟨e, t, hstep⟩ := Duplex.exists_step hs.not_quiet
    exact ⟨e, t, hstep, Duplex.step_invariant (fun _ => Looping.swap) (fun _ _ => Looping.start)
      (fun _ _ => Looping.deliver) hs hstep⟩
  obtain ⟨tr, hrun, hlen⟩ := exists_run hprogress h
    (Duplex.due (fun p => p.toStart.length) (joined a b) + 4 * (codes a b).card + 1)
  have hlength := Duplex.run_length (turns_toStart _) hrun
  have hsent := hno.1 tr hrun
  omega

lemma looping_joined {a b : TelnetMudConnection} {code : TelnetCode}
    (ha : a.options.find? code ≠ none) (hb : b.options.find? code ≠ none)
    (h : offersOf a.options code ≠ [] ∨ offersOf b.options code ≠ []) :
    Looping code (joined a b) := by
  have hmem : ∀ {t : OptionTable}, t.find? code ≠ none → code ∈ t.keys := by
    intro t hne
    obtain ⟨op, hop⟩ := Option.ne_none_iff_exists'.mp hne
    exact Table.mem_keys_of_find? hop
  refine ⟨ha, hb, ?_⟩
  rcases h with h | h
  · exact Or.inl (Or.inl ⟨hmem ha, h⟩)
  · exact Or.inr (Or.inl ⟨hmem hb, h⟩)

/-- **Negotiation loops**: two connections are free of them exactly when neither starts an
option that both have registered. -/
theorem noLoop_iff_noSharedStart (a b : TelnetMudConnection) :
    NoLoop a b ↔ NoSharedStart a.options b.options := by
  rw [noSharedStart_iff]
  refine ⟨fun h code ha hb => ?_, noLoop_of_noSharedOffer⟩
  by_contra hstarts
  rw [not_and_or] at hstarts
  exact not_noLoop_of_looping (looping_joined ha hb hstarts) h

/-- One side opens an option with WILL, the other supports it, and neither ever stops. -/
theorem supported_option_loops :
    ¬ NoLoop (withOptions 0 false true [{ opCode := 31, startWill := true, supportLocal := true }])
      (withOptions 1 false true [{ opCode := 31, supportRemote := true }]) :=
  not_noLoop_of_looping <|
    show Looping 31 _ from looping_joined (by decide) (by decide) (Or.inl (by decide))

end Peer

end ForgeMush
