import ForgeMush.Handshake
import ForgeMush.Peers

/-!
Two peers that handle negotiations with `receiveNegotiate` agree on every option.

Each side of each option goes through a handshake of its own: what the peers do simulates
it, and the rest of the traffic between them does not touch it.
-/

namespace ForgeMush

open Runs

namespace Peer

open TelnetMudConnection

/-- Peers that hand a negotiation to `receiveNegotiate` of the option it names. -/
def agreeing : Duplex.Party Peer Negotiation where
  start := startTurn
  deliver := handle fun c m => c.onOption m.2 fun op => op.receiveNegotiate m.1

/-! ### One option -/

/-- A side of an option as one end of a handshake. -/
def half (begun : Bool) (op : TelnetOption) (side : Side) : Half where
  starts := op.starts side
  supports := op.supports side
  begun := begun
  negotiating := (op.perspective side).negotiating
  enabled := (op.perspective side).enabled

/-- The part a negotiation plays in the handshake of a side of `code`. -/
def signal (side : Side) (code : TelnetCode) (m : Negotiation) : Option Bool :=
  if m.2 = code then
    if m.1 = side.request then some true
    else if m.1 = side.refusal then some false
    else none
  else none

def signals (side : Side) (code : TelnetCode) (l : List Negotiation) : List Bool :=
  l.filterMap (signal side code)

/-- The negotiations among some calls. -/
def negotiations (ks : List Call) : List Negotiation := ks.filterMap Call.negotiation?

@[simp] lemma signal_request (side : Side) (code : TelnetCode) :
    signal side code (side.request, code) = some true := by
  simp [signal]

@[simp] lemma signal_refusal (side : Side) (code : TelnetCode) :
    signal side code (side.refusal, code) = some false := by
  simp [signal, (Side.request_ne_refusal side side).symm]

lemma signal_command (side : Side) (code : TelnetCode) (m : Bool) :
    signal side code (side.command m, code) = some m := by
  cases m <;> simp [Side.command]

lemma signal_other (side : Side) (code code' : TelnetCode) (m : Bool) :
    signal side code (side.other.command m, code') = none := by
  have hreq : side.other.command m ≠ side.request := by cases side <;> cases m <;> decide
  have href : side.other.command m ≠ side.refusal := by cases side <;> cases m <;> decide
  simp [signal, hreq, href]

lemma signal_of_ne (side : Side) {code : TelnetCode} {m : Negotiation} (h : m.2 ≠ code) :
    signal side code m = none := if_neg h

lemma eq_command_of_signal {side : Side} {code : TelnetCode} {m : Negotiation} {b : Bool}
    (h : signal side code m = some b) : m = (side.command b, code) := by
  unfold signal at h
  split_ifs at h with hcode hreq href
  · cases h
    exact Prod.ext hreq hcode
  · cases h
    exact Prod.ext href hcode

lemma signal_of_not_command {side : Side} {c : TelnetCode} (code : TelnetCode)
    (h : ∀ m, c ≠ side.command m) : signal side code (c, code) = none := by
  by_contra hsome
  obtain ⟨b, hb⟩ := Option.ne_none_iff_exists'.mp hsome
  exact h b (congrArg Prod.fst (eq_command_of_signal hb))

lemma receiveNegotiate_command (op : TelnetOption) (side : Side) (m : Bool) :
    op.receiveNegotiate (side.command m) =
      if m then op.receiveRequest side.other else op.receiveRefusal side.other := by
  cases side <;> cases m <;> rfl

lemma receiveNegotiate_of_ne (op : TelnetOption) {c : TelnetCode}
    (h : ∀ (side : Side) m, c ≠ side.command m) : op.receiveNegotiate c = (op, []) := by
  have hwill : c ≠ TelnetCode.WILL := h .localSide true
  have hdo : c ≠ TelnetCode.DO := h .remoteSide true
  have hwont : c ≠ TelnetCode.WONT := h .localSide false
  have hdont : c ≠ TelnetCode.DONT := h .remoteSide false
  simp [TelnetOption.receiveNegotiate, hwill, hdo, hwont, hdont]

lemma half_onConnect (op : TelnetOption) (side : Side) :
    half true op.onConnect.1 side =
      { half false op side with
        begun := true
        negotiating := op.starts side || (op.perspective side).negotiating } := by
  obtain ⟨⟨code, w, d, l, r⟩, lp, rp⟩ := op
  cases side <;> cases w <;> cases d <;> rfl

lemma signals_offers (op : TelnetOption) (side : Side) :
    signals side op.opCode op.offers = if op.starts side then [true] else [] := by
  have hwill : signal side op.opCode (TelnetCode.WILL, op.opCode) =
      if side = .localSide then some true else none := by
    cases side
    · exact signal_command .localSide op.opCode true
    · exact signal_other .remoteSide op.opCode op.opCode true
  have hdo : signal side op.opCode (TelnetCode.DO, op.opCode) =
      if side = .remoteSide then some true else none := by
    cases side
    · exact signal_other .localSide op.opCode op.opCode true
    · exact signal_command .remoteSide op.opCode true
  unfold signals TelnetOption.offers
  cases hw : op.startWill <;> cases hd : op.startDo <;> cases side <;>
    simp [hwill, hdo, TelnetOption.starts, hw, hd]

lemma half_receiveRequest (begun : Bool) (op : TelnetOption) (side : Side) :
    half begun (op.receiveRequest side).1 side = ((half begun op side).receive true).1 ∧
      negotiations (op.receiveRequest side).2 =
        ((half begun op side).receive true).2.map fun m => (side.command m, op.opCode) := by
  obtain ⟨⟨code, w, d, l, r⟩, ⟨le, ln, la⟩, ⟨re, rn, ra⟩⟩ := op
  cases side
  · cases l <;> cases le <;> cases ln <;> cases la <;> exact ⟨rfl, rfl⟩
  · cases r <;> cases re <;> cases rn <;> cases ra <;> exact ⟨rfl, rfl⟩

lemma half_receiveRefusal (begun : Bool) (op : TelnetOption) (side : Side) :
    half begun (op.receiveRefusal side).1 side = ((half begun op side).receive false).1 ∧
      negotiations (op.receiveRefusal side).2 = [] := by
  obtain ⟨⟨code, w, d, l, r⟩, ⟨le, ln, la⟩, ⟨re, rn, ra⟩⟩ := op
  cases side
  · cases le <;> cases ln <;> cases la <;> exact ⟨rfl, rfl⟩
  · cases re <;> cases rn <;> cases ra <;> exact ⟨rfl, rfl⟩

lemma half_other (begun : Bool) (op : TelnetOption) (side : Side) :
    half begun (op.receiveRequest side).1 side.other = half begun op side.other ∧
      half begun (op.receiveRefusal side).1 side.other = half begun op side.other := by
  obtain ⟨⟨code, w, d, l, r⟩, ⟨le, ln, la⟩, ⟨re, rn, ra⟩⟩ := op
  cases side
  · cases l <;> cases le <;> cases ln <;> cases la <;> exact ⟨rfl, rfl⟩
  · cases r <;> cases re <;> cases rn <;> cases ra <;> exact ⟨rfl, rfl⟩

lemma signals_map_command (side : Side) (code : TelnetCode) (l : List Bool) :
    signals side code (l.map fun m => (side.command m, code)) = l := by
  simp [signals, signal_command]

lemma signals_map_other (side : Side) (code code' : TelnetCode) (l : List Bool) :
    signals side code (l.map fun m => (side.other.command m, code')) = [] := by
  simp [signals, signal_other]

/-- **A message of the handshake** does what the handshake does with it. -/
lemma half_receive (begun : Bool) (op : TelnetOption) (side : Side) (m : Bool) :
    half begun (op.receiveNegotiate (side.other.command m)).1 side =
        ((half begun op side).receive m).1 ∧
      signals side op.opCode (negotiations (op.receiveNegotiate (side.other.command m)).2) =
        ((half begun op side).receive m).2 := by
  rw [receiveNegotiate_command, Side.other_other]
  cases m with
  | true =>
      obtain ⟨hhalf, hout⟩ := half_receiveRequest begun op side
      refine ⟨hhalf, ?_⟩
      rw [if_pos rfl, hout, signals_map_command]
  | false =>
      obtain ⟨hhalf, hout⟩ := half_receiveRefusal begun op side
      refine ⟨hhalf, ?_⟩
      rw [if_neg Bool.false_ne_true, hout]
      rfl

/-- **Any other message** leaves the handshake alone. -/
lemma half_receive_of_ne (begun : Bool) (op : TelnetOption) (side : Side) {c : TelnetCode}
    (h : ∀ m, c ≠ side.other.command m) :
    half begun (op.receiveNegotiate c).1 side = half begun op side ∧
      signals side op.opCode (negotiations (op.receiveNegotiate c).2) = [] := by
  by_cases hown : ∃ m, c = side.command m
  · obtain ⟨m, rfl⟩ := hown
    obtain ⟨hrequest, hrefusal⟩ := half_other begun op side.other
    rw [Side.other_other] at hrequest hrefusal
    rw [receiveNegotiate_command]
    cases m with
    | true =>
        refine ⟨hrequest, ?_⟩
        rw [if_pos rfl, (half_receiveRequest begun op side.other).2, signals_map_other]
    | false =>
        refine ⟨hrefusal, ?_⟩
        rw [if_neg Bool.false_ne_true, (half_receiveRefusal begun op side.other).2]
        rfl
  · have hnone : op.receiveNegotiate c = (op, []) := by
      refine receiveNegotiate_of_ne op fun side' m heq => ?_
      by_cases hside : side' = side
      · exact hown ⟨m, hside ▸ heq⟩
      · have hother : side' = side.other := by
          cases side' <;> cases side <;> first | rfl | exact absurd rfl hside
        exact h m (hother ▸ heq)
    rw [hnone]
    exact ⟨rfl, rfl⟩

lemma option_of_mem_negotiations {op : TelnetOption} {c : TelnetCode} {m : Negotiation}
    (h : m ∈ negotiations (op.receiveNegotiate c).2) : m.2 = op.opCode := by
  by_cases hown : ∃ (side : Side) (m : Bool), c = side.command m
  · obtain ⟨side, b, rfl⟩ := hown
    rw [receiveNegotiate_command] at h
    cases b with
    | true =>
        rw [if_pos rfl, (half_receiveRequest true op side.other).2] at h
        obtain ⟨b, -, rfl⟩ := List.mem_map.mp h
        rfl
    | false =>
        rw [if_neg Bool.false_ne_true, (half_receiveRefusal true op side.other).2] at h
        cases h
  · rw [receiveNegotiate_of_ne op fun side m heq => hown ⟨side, m, heq⟩] at h
    cases h

/-! ### The simulation -/

/-- The peers, as far as a side of `code` at the left one goes. -/
structure Projects (code : TelnetCode) (side : Side) (s : Duplex.State Peer Negotiation)
    (h : Duplex.State Half Bool) : Prop where
  left : ∃ op, s.left.conn.options.find? code = some op ∧
    h.left = half (decide (code ∉ s.left.toStart)) op side
  right : ∃ op, s.right.conn.options.find? code = some op ∧
    h.right = half (decide (code ∉ s.right.toStart)) op side.other
  toRight : h.toRight = signals side code s.toRight
  toLeft : h.toLeft = signals side.other code s.toLeft

lemma Projects.swap {code : TelnetCode} {side : Side} {s : Duplex.State Peer Negotiation}
    {h : Duplex.State Half Bool} (hp : Projects code side s h) :
    Projects code side.other s.swap h.swap := by
  refine ⟨hp.right, ?_, hp.toLeft, ?_⟩
  · rw [Side.other_other]
    exact hp.left
  · rw [Side.other_other]
    exact hp.toRight

lemma signals_append (side : Side) (code : TelnetCode) (l l' : List Negotiation) :
    signals side code (l ++ l') = signals side code l ++ signals side code l' :=
  List.filterMap_append

lemma signals_eq_nil {side : Side} {code : TelnetCode} {l : List Negotiation}
    (h : ∀ m ∈ l, m.2 ≠ code) : signals side code l = [] := by
  refine List.eq_nil_iff_forall_not_mem.mpr fun b hb => ?_
  obtain ⟨m, hm, hsignal⟩ := List.mem_filterMap.mp hb
  rw [signal_of_ne side (h m hm)] at hsignal
  cases hsignal

lemma Projects.start {code : TelnetCode} {side : Side} {s t : Duplex.State Peer Negotiation}
    {h : Duplex.State Half Bool} (hp : Projects code side s h) (hnodup : s.left.toStart.Nodup)
    (hstep : Duplex.StartStep agreeing s t) :
    ∃ k, (k = h ∨ Duplex.StartStep Half.party h k) ∧ Projects code side t k := by
  obtain ⟨q, out, hq, rfl⟩ := hstep
  obtain ⟨code', hts, hconn, rfl⟩ := startTurn_cases hq
  obtain ⟨op, hop, hleft⟩ := hp.left
  by_cases hcode : code' = code
  · subst hcode
    rw [hts] at hnodup
    have hq' : code' ∉ q.toStart := (List.nodup_cons.mp hnodup).1
    have hbegun : h.left = half false op side := by
      rw [hleft, hts]
      simp
    have hopCode : op.opCode = code' := (Table.find?_eq_some_iff.mp hop).2
    have hout : signals side code' (offersOf s.left.conn.options code') =
        if op.starts side then [true] else [] := by
      rw [← signals_offers, hopCode]
      simp [offersOf, hop]
    refine ⟨{ h with
      left := half true op.onConnect.1 side
      toRight := h.toRight ++ if op.starts side then [true] else []
      sent := h.sent + (if op.starts side then [true] else []).length }, Or.inr ?_, ?_⟩
    · refine ⟨half true op.onConnect.1 side, if op.starts side then [true] else [], ?_, rfl⟩
      rw [hbegun, half_onConnect]
      rfl
    · refine ⟨⟨op.onConnect.1, ?_, ?_⟩, hp.right, ?_, hp.toLeft⟩
      · rw [hconn]
        exact find?_onOption hop (by simp)
      · simp [hq']
      · rw [signals_append, hout, ← hp.toRight]
  · refine ⟨h, Or.inl rfl, ⟨op, ?_, ?_⟩, hp.right, ?_, hp.toLeft⟩
    · rw [hconn, find?_onOption_of_ne _ hcode fun op => by simp]
      exact hop
    · rw [hleft, hts]
      simp [Ne.symm hcode]
    · have hnil : signals side code (offersOf s.left.conn.options code') = [] :=
        signals_eq_nil fun m hm => (offersOf_request hm).1 ▸ hcode
      rw [signals_append, hnil, List.append_nil, hp.toRight]

lemma agreeing_deliver_some {p : Peer} {c code : TelnetCode} {op : TelnetOption}
    (hop : p.conn.options.find? code = some op) :
    (agreeing.deliver p (c, code)).2 = negotiations (op.receiveNegotiate c).2 := by
  show replies p.conn (p.conn.onOption code _) = _
  rw [replies, (onOption_some hop _).1, List.drop_left]
  rfl

lemma agreeing_deliver_none {p : Peer} {c code : TelnetCode}
    (hop : p.conn.options.find? code = none) : (agreeing.deliver p (c, code)).2 = [] := by
  show replies p.conn (p.conn.onOption code _) = _
  rw [onOption_none hop]
  simp [replies]

lemma signals_deliver_of_ne (p : Peer) (c : TelnetCode) (side : Side) {code code' : TelnetCode}
    (hcode : code' ≠ code) : signals side code (agreeing.deliver p (c, code')).2 = [] := by
  refine signals_eq_nil fun m hm => ?_
  cases hop : p.conn.options.find? code' with
  | none =>
      rw [agreeing_deliver_none hop] at hm
      cases hm
  | some op =>
      rw [agreeing_deliver_some hop] at hm
      rw [option_of_mem_negotiations hm, (Table.find?_eq_some_iff.mp hop).2]
      exact hcode

lemma Projects.deliver {code : TelnetCode} {side : Side} {s t : Duplex.State Peer Negotiation}
    {h : Duplex.State Half Bool} (hp : Projects code side s h)
    (hstep : Duplex.DeliverStep agreeing s t) :
    ∃ k, (k = h ∨ Duplex.DeliverStep Half.party h k) ∧ Projects code side t k := by
  obtain ⟨hstarted, ⟨c, code'⟩, rest, hm, rfl⟩ := hstep
  have hdone : s.left.toStart = [] := startTurn_eq_none.mp hstarted
  obtain ⟨op, hop, hleft⟩ := hp.left
  have hhalf : h.left = half true op side := by
    rw [hleft, hdone]
    rfl
  have hclass : ∀ op : TelnetOption,
      (op.receiveNegotiate c).1.toOptionClass = op.toOptionClass := fun op => by simp
  have hdecide : ∀ op : TelnetOption,
      half (decide (code ∉ s.left.toStart)) op side = half true op side := by
    intro op
    rw [hdone]
    rfl
  have htoLeft : h.toLeft =
      (signal side.other code (c, code')).toList ++ signals side.other code rest := by
    rw [hp.toLeft, hm, signals, List.filterMap_cons]
    cases signal side.other code (c, code') <;> rfl
  by_cases hcode : code' = code
  · subst hcode
    have hopCode : op.opCode = code' := (Table.find?_eq_some_iff.mp hop).2
    have hout := agreeing_deliver_some (c := c) hop
    have hfind : (s.left.conn.onOption code' fun op => op.receiveNegotiate c).options.find? code' =
        some (op.receiveNegotiate c).1 := find?_onOption hop (hclass op)
    by_cases hmine : ∃ m, c = side.other.command m
    · obtain ⟨m, rfl⟩ := hmine
      obtain ⟨hreceive, hsignals⟩ := half_receive true op side m
      rw [hopCode] at hsignals
      rw [signal_command] at htoLeft
      refine ⟨{ h with
        left := (h.left.receive m).1
        toRight := h.toRight ++ (h.left.receive m).2
        toLeft := signals side.other code' rest
        sent := h.sent + (h.left.receive m).2.length }, Or.inr ?_, ?_⟩
      · refine ⟨Half.start_eq_none_of_begun (by rw [hhalf]; rfl), m, _, htoLeft, rfl⟩
      · refine ⟨⟨_, hfind, ?_⟩, hp.right, ?_, rfl⟩
        · show (h.left.receive m).1 = half (decide (code' ∉ s.left.toStart)) _ side
          rw [hdecide, hreceive, hhalf]
        · rw [signals_append, hout, hsignals, hp.toRight, hhalf]
    · have hne : ∀ m, c ≠ side.other.command m := fun m heq => hmine ⟨m, heq⟩
      obtain ⟨hreceive, hsignals⟩ := half_receive_of_ne true op side hne
      rw [hopCode] at hsignals
      have hnone := signal_of_not_command code' hne
      refine ⟨h, Or.inl rfl, ⟨_, hfind, ?_⟩, hp.right, ?_, ?_⟩
      · show h.left = half (decide (code' ∉ s.left.toStart)) _ side
        rw [hdecide, hreceive, hhalf]
      · rw [signals_append, hout, hsignals, List.append_nil, hp.toRight]
      · rw [htoLeft, hnone]
        rfl
  · have hnone : signal side.other code (c, code') = none := signal_of_ne _ hcode
    have hnil := signals_deliver_of_ne s.left c side hcode
    refine ⟨h, Or.inl rfl, ⟨op, ?_, hleft⟩, hp.right, ?_, ?_⟩
    · exact (find?_onOption_of_ne _ hcode hclass).trans hop
    · rw [signals_append, hnil, List.append_nil, hp.toRight]
    · rw [htoLeft, hnone]
      rfl

/-- Every side of the option is at some stage of its handshake. -/
structure Simulated (code : TelnetCode) (s : Duplex.State Peer Negotiation) : Prop where
  left : s.left.toStart.Nodup
  right : s.right.toStart.Nodup
  stage : ∀ side, ∃ h, Projects code side s h ∧ Half.Stage h

lemma Simulated.swap {code : TelnetCode} {s : Duplex.State Peer Negotiation}
    (h : Simulated code s) : Simulated code s.swap := by
  refine ⟨h.right, h.left, fun side => ?_⟩
  obtain ⟨k, hp, hk⟩ := h.stage side.other
  refine ⟨k.swap, ?_, .swap hk⟩
  have := hp.swap
  rwa [Side.other_other] at this

lemma Simulated.start {code : TelnetCode} {s t : Duplex.State Peer Negotiation}
    (h : Simulated code s) (hstep : Duplex.StartStep agreeing s t) : Simulated code t := by
  refine ⟨?_, ?_, fun side => ?_⟩
  · obtain ⟨q, out, hq, rfl⟩ := hstep
    obtain ⟨code', hts, -, -⟩ := startTurn_cases hq
    have := h.left
    rw [hts] at this
    exact (List.nodup_cons.mp this).2
  · obtain ⟨q, out, -, rfl⟩ := hstep
    exact h.right
  · obtain ⟨k, hp, hk⟩ := h.stage side
    obtain ⟨k', rfl | hk', hp'⟩ := hp.start h.left hstep
    · exact ⟨k', hp', hk⟩
    · exact ⟨k', hp', hk.start.1 k' hk'⟩

lemma Simulated.deliver {code : TelnetCode} {s t : Duplex.State Peer Negotiation}
    (h : Simulated code s) (hstep : Duplex.DeliverStep agreeing s t) : Simulated code t := by
  refine ⟨?_, ?_, fun side => ?_⟩
  · obtain ⟨-, m, rest, -, rfl⟩ := hstep
    exact h.left
  · obtain ⟨-, m, rest, -, rfl⟩ := hstep
    exact h.right
  · obtain ⟨k, hp, hk⟩ := h.stage side
    obtain ⟨k', rfl | hk', hp'⟩ := hp.deliver hstep
    · exact ⟨k', hp', hk⟩
    · exact ⟨k', hp', hk.deliver.1 k' hk'⟩

/-- **Simulation**: the peers take every side of an option through its handshake. -/
theorem Simulated.step {code : TelnetCode} {s t : Duplex.State Peer Negotiation}
    {e : Duplex.Event} (h : Simulated code s) (hstep : Duplex.Step agreeing s e t) :
    Simulated code t :=
  Duplex.step_invariant (fun _ => Simulated.swap) (fun _ _ => Simulated.start)
    (fun _ _ => Simulated.deliver) h hstep

/-! ### Agreement -/

/-- Nothing is being negotiated, and each side is open at both ends if both support it and
one of them starts it, and else at neither. -/
structure AgreeOn (op op' : TelnetOption) : Prop where
  settled : ∀ side : Side, (op.perspective side).negotiating = false ∧
    (op'.perspective side.other).negotiating = false
  near : ∀ side : Side, (op.perspective side).enabled =
    (op.supports side && op'.supports side.other && (op.starts side || op'.starts side.other))
  far : ∀ side : Side, (op'.perspective side.other).enabled =
    (op.supports side && op'.supports side.other && (op.starts side || op'.starts side.other))

lemma silent_half {k : OptionClass} (hk : k.Coherent) (side : Side) :
    (half false (TelnetOption.new k) side).Silent := by
  refine ⟨?_, ?_, ?_, fun h => by cases h⟩ <;> cases side
  · exact hk.startWill
  · exact hk.startDo
  all_goals rfl

lemma simulated_joined {a b : Setup} {code : TelnetCode} {op op' : TelnetOption}
    (hop : a.connection.options.find? code = some op)
    (hop' : b.connection.options.find? code = some op') :
    Simulated code (joined a.connection b.connection) := by
  obtain ⟨k, hk, rfl⟩ := find?_withOptions hop
  obtain ⟨k', hk', rfl⟩ := find?_withOptions hop'
  have hmem : code ∈ a.connection.options.keys := Table.mem_keys_of_find? hop
  have hmem' : code ∈ b.connection.options.keys := Table.mem_keys_of_find? hop'
  refine ⟨a.connection.options.distinct, b.connection.options.distinct, fun side => ?_⟩
  refine ⟨⟨half false (TelnetOption.new k) side, half false (TelnetOption.new k') side.other,
    [], [], 0⟩, ⟨⟨_, hop, ?_⟩, ⟨_, hop', ?_⟩, rfl, rfl⟩, .idle ?_ ?_ rfl rfl⟩
  · simp [joined, of, hmem]
  · simp [joined, of, hmem']
  · exact silent_half (a.options.coherent k hk) side
  · exact silent_half (b.options.coherent k' hk') side.other

lemma sameClasses_step {s t : Duplex.State Peer Negotiation} {e : Duplex.Event}
    (h : Duplex.Step agreeing s e t) :
    SameClasses s.left.conn.options t.left.conn.options ∧
      SameClasses s.right.conn.options t.right.conn.options := by
  refine Duplex.step_relation (R := fun s t : Duplex.State Peer Negotiation =>
    SameClasses s.left.conn.options t.left.conn.options ∧
      SameClasses s.right.conn.options t.right.conn.options) (fun _ _ => And.symm) ?_ ?_ h
  · rintro s t ⟨q, out, hq, rfl⟩
    exact ⟨startTurn_sameClasses hq, fun _ => rfl⟩
  · rintro s t ⟨-, m, rest, -, rfl⟩
    exact ⟨sameClasses_onOption _ _ fun op => by simp, fun _ => rfl⟩

/-- **Option agreement**: whenever both peers have run `onConnect` for all their options and
no message is in flight, they agree on every option that both have registered. -/
theorem options_agree (a b : Setup) (tr : List (Duplex.Event × Duplex.State Peer Negotiation))
    (h : Run (Duplex.Step agreeing) (joined a.connection b.connection) tr)
    (hquiet : Duplex.Quiet agreeing (final (joined a.connection b.connection) tr))
    (code : TelnetCode) (k k' : TelnetOption)
    (hk : a.connection.options.find? code = some k)
    (hk' : b.connection.options.find? code = some k') :
    ∃ op op', (final (joined a.connection b.connection) tr).left.conn.options.find? code =
        some op ∧ op.toOptionClass = k.toOptionClass ∧
      (final (joined a.connection b.connection) tr).right.conn.options.find? code =
        some op' ∧ op'.toOptionClass = k'.toOptionClass ∧ AgreeOn op op' := by
  have hsim := h.invariant (fun _ _ _ hs hstep => Simulated.step hs hstep)
    (simulated_joined hk hk')
  have hclasses := h.invariant (I := fun s =>
    SameClasses a.connection.options s.left.conn.options ∧
      SameClasses b.connection.options s.right.conn.options)
    (fun _ _ _ hs hstep => ⟨hs.1.trans (sameClasses_step hstep).1,
      hs.2.trans (sameClasses_step hstep).2⟩) ⟨fun _ => rfl, fun _ => rfl⟩
  obtain ⟨op, hop, hclass⟩ := hclasses.1.find? hk
  obtain ⟨op', hop', hclass'⟩ := hclasses.2.find? hk'
  obtain ⟨⟨hleft, hright⟩, htoRight, htoLeft⟩ := hquiet
  have hagreed : ∀ side : Side, Half.Agreed (half true op side) (half true op' side.other) := by
    intro side
    obtain ⟨s, hp, hstage⟩ := hsim.stage side
    obtain ⟨opl, hopl, hsl⟩ := hp.left
    obtain ⟨opr, hopr, hsr⟩ := hp.right
    rw [hop] at hopl
    rw [hop'] at hopr
    cases hopl
    cases hopr
    rw [startTurn_eq_none.mp hleft] at hsl
    rw [startTurn_eq_none.mp hright] at hsr
    have hto : s.toRight = [] := by rw [hp.toRight, htoRight]; rfl
    have hfrom : s.toLeft = [] := by rw [hp.toLeft, htoLeft]; rfl
    have := hstage.agreed (by rw [hsl]; rfl) (by rw [hsr]; rfl) hto hfrom
    rw [hsl, hsr] at this
    exact this
  exact ⟨op, op', hop, hclass, hop', hclass', fun side => (hagreed side).1,
    fun side => (hagreed side).2.1, fun side => (hagreed side).2.2⟩

def offering : Setup where
  connId := 0
  isTLS := false
  hasConnectCB := true
  options := ⟨[{ opCode := 31, startWill := true, supportLocal := true }],
    by simpa using ⟨by decide, by decide⟩⟩

def accepting : Setup where
  connId := 1
  isTLS := false
  hasConnectCB := true
  options := ⟨[{ opCode := 31, supportRemote := true }],
    by simpa using ⟨by decide, by decide⟩⟩

/-- A WILL that is answered with a DO. -/
theorem offered_option_agreed :
    ∃ (tr : List (Duplex.Event × Duplex.State Peer Negotiation)) (op op' : TelnetOption),
      Run (Duplex.Step agreeing) (joined offering.connection accepting.connection) tr ∧
      (final (joined offering.connection accepting.connection) tr).sent = 2 ∧
      (final (joined offering.connection accepting.connection) tr).left.conn.options.find? 31 =
        some op ∧ AgreeOn op op' := by
  have hexec : Duplex.exec agreeing (joined offering.connection accepting.connection)
      [.start .left, .start .right, .deliver .right, .deliver .left] = some _ := rfl
  have hrun := Duplex.run_of_exec hexec
  obtain ⟨op, op', hop, -, -, -, hagree⟩ := options_agree offering accepting _ hrun
    ⟨⟨rfl, rfl⟩, rfl, rfl⟩ 31 _ _ rfl rfl
  exact ⟨_, op, op', hrun, rfl, hop, hagree⟩

end Peer

end ForgeMush
