import ForgeMush.Muting

/-!
Whether the negotiation between two connections ends on the wire.

The dispatcher sends every request for an option that it knows back, so that a request for one that
both connections know goes to and fro for ever. But a connection that offers two things at once is
mute after the first of them, and with it the loop ends. So there is a loop exactly where neither
connection offers more than one thing and one of the two offers what the other knows.
-/

namespace ForgeMush

open Runs TelnetStream

namespace TelnetMudConnection

variable {c d : TelnetMudConnection} {t : OptionTable}

/-! ### A connection that offers two things -/

/-- It has not made its offers yet, or it is mute after the first of them. -/
def Brief (t : OptionTable) (c : TelnetMudConnection) : Prop :=
  Conserved c ∧ ((Silent t c ∧ OneByOne 0 c.output) ∨ ∃ w : Bytes, w.length ≤ 3 ∧ Muting w c.output)

lemma Brief.wire (h : Brief t c) : c.wire.length ≤ 3 := by
  rcases h with ⟨-, ⟨-, hone⟩ | ⟨w, hw, hmuting⟩⟩
  · exact hone.wire.trans (Nat.zero_le 3)
  · have hle := hmuting.wire.length_le
    rw [List.length_append] at hle
    exact (Nat.le_of_add_right_le hle).trans hw

/-- When the offers are made there is one in `outbox` that is too many. -/
lemma brief_of_speaking (hoffers : 2 ≤ (offered t).length) (h : Speaking t c) (hc : Conserved c)
    (hone : OneByOne 0 c.output) : Brief t c := by
  have hwire : c.wire = [] := List.length_eq_zero_iff.mp (Nat.le_zero.mp hone.wire)
  have houtbox : c.outbox.length = 3 * c.sent.length := by
    rw [← length_enqueued, ← hc.bytes, hwire, List.nil_append]
  have hsent : 2 ≤ c.sent.length := by
    rw [h.sent, List.length_append]
    exact hoffers.trans (Nat.le_add_right _ _)
  have hthree := hone.length_writes_le hc
  refine ⟨hc, Or.inr ⟨_, ?_, hone.muting (by omega)⟩⟩
  rwa [hwire, List.nil_append]

lemma Silent.writes (h : Silent t c) (hc : Conserved c) (hone : OneByOne 0 c.output) :
    c.writes = [] := by
  by_contra hne
  obtain ⟨buffer, hbuffer⟩ := List.exists_mem_of_ne_nil _ hne
  have hfront := (hc.front buffer hbuffer).length_le
  have hthree := (hone.single buffer hbuffer).1
  have hbytes := congrArg List.length hc.bytes
  rw [length_enqueued, h.sent, List.length_append, List.length_nil] at hbytes
  omega

lemma Brief.step (hoffers : 2 ≤ (offered t).length) (h : Brief t c) {e : Event}
    (he : ∀ m o, e ≠ .sendNegotiate m o) (hstep : Step c e d) : Brief t d := by
  rcases h with ⟨hc, ⟨hsilent, hone⟩ | ⟨w, hw, hmuting⟩⟩
  · obtain ⟨hd, hone'⟩ := hone.step hc hstep
    have hnone : e.isWritten = false := by
      cases e with
      | written i failed len =>
          obtain ⟨buffer, hbuffer, -⟩ := written_cases hc.one hstep
          rw [hsilent.writes hc hone] at hbuffer
          cases hbuffer
      | _ => rfl
    rw [hnone, if_neg Bool.false_ne_true] at hone'
    have htalk := hsilent.step he hstep
    split_ifs at htalk
    · exact brief_of_speaking hoffers htalk hd hone'
    · exact ⟨hd, Or.inl ⟨htalk, hone'⟩⟩
  · obtain ⟨hd, hmuting'⟩ := Muting.step ⟨hc, hmuting⟩ hstep
    exact ⟨hd, Or.inr ⟨w, hw, hmuting'⟩⟩

lemma talks_onConnect (connId : UInt32) (isTLS hasConnectCB : Bool) (ks : List OptionClass) :
    if isTLS then
      Silent (withOptions connId isTLS hasConnectCB ks).options
        (withOptions connId isTLS hasConnectCB ks).onConnect
    else Speaking (withOptions connId isTLS hasConnectCB ks).options
      (withOptions connId isTLS hasConnectCB ks).onConnect := by
  have htalks := talks_run connId isTLS hasConnectCB ks (.nil _) fun m o => List.not_mem_nil
  cases isTLS with
  | true => exact htalks
  | false => exact htalks

lemma brief_onConnect {connId : UInt32} {isTLS hasConnectCB : Bool} {ks : List OptionClass}
    (hoffers : 2 ≤ (offered (withOptions connId isTLS hasConnectCB ks).options).length) :
    Brief (withOptions connId isTLS hasConnectCB ks).options
      (withOptions connId isTLS hasConnectCB ks).onConnect := by
  obtain ⟨hc, hone⟩ := oneByOne_of_run (.nil (withOptions connId isTLS hasConnectCB ks).onConnect)
  have htalks := talks_onConnect connId isTLS hasConnectCB ks
  split_ifs at htalks
  · exact ⟨hc, Or.inl ⟨htalks, hone⟩⟩
  · exact brief_of_speaking hoffers htalks hc hone

/-! ### A connection that keeps up -/

/-- It waits for a read, with nothing unread, and `ms` is what it has to write. -/
structure Ready (t : OptionTable) (ms : List Negotiation) (c : TelnetMudConnection) : Prop where
  speaking : Speaking t c
  conserved : Conserved c
  oneByOne : ∃ k, OneByOne k c.output
  noStall : NoStall c
  outbox : c.outbox = wireBytes ms
  inbox : c.inbox = []
  reads : 0 < c.reads

lemma Ready.writes {m : Negotiation} (h : Ready t [m] c) : c.writes = [wireBytes [m]] := by
  obtain ⟨k, hone⟩ := h.oneByOne
  have hone' := h.conserved.one
  have houtbox := h.outbox
  rcases hw : c.writes with _ | ⟨buffer, _ | ⟨_, _⟩⟩
  · refine absurd hw (h.noStall.1 fun hnil => ?_)
    rw [hnil] at houtbox
    cases houtbox
  · have hmem : buffer ∈ c.writes := by
      rw [hw]
      exact List.mem_singleton_self _
    have hfront := h.conserved.front buffer hmem
    rw [houtbox] at hfront
    rw [hfront.eq_of_length (hone.single buffer hmem).1]
  · simp [hw] at hone'

lemma Ready.exists_written {m : Negotiation} (h : Ready t [m] c) :
    ∃ d, Step c (.written 0 false 3) d ∧ d.wire = c.wire ++ wireBytes [m] ∧ d.sent = c.sent ∧
      Ready t [] d := by
  have hdrains : Drains c (.written 0 false 3) := by
    rw [Drains, h.outbox]
    exact le_rfl
  have hstep : Step c (.written 0 false 3) (sendHandler { c with
      writes := c.writes.eraseIdx 0, wire := c.wire ++ (wireBytes [m]).take 3 } 3) :=
    ⟨wireBytes [m], by rw [h.writes]; rfl, le_rfl, fun _ => Nat.succ_pos 2, rfl⟩
  have hspeaking := h.speaking.step (fun _ _ heq => Event.noConfusion heq) hstep
  obtain ⟨k, hone⟩ := h.oneByOne
  obtain ⟨hconserved, hone'⟩ := hone.step h.conserved hstep
  have hstall := NoStall.written h.conserved hdrains hstep
  have hsent := (sameTalk_step rfl hstep).sent
  rw [sendHandler_of_le (by exact hdrains)] at hstep hspeaking hconserved hone' hstall hsent
  exact ⟨_, hstep, rfl, hsent, hspeaking, hconserved, ⟨_, hone'⟩, hstall, rfl, h.inbox, h.reads⟩

lemma cut_wireBytes_single {m : Negotiation} (hm : TelnetCode.isNegotiation m.1 = true) :
    cut (wireBytes [m]) = ([.negotiation m.1 m.2], []) ∧ ¬ EntersSearch (wireBytes [m]) := by
  have hreading : reading (wireBytes [m]) = ([.negotiation m.1 m.2], []) :=
    reading_wireBytes (by simpa using hm)
  constructor
  · simp [cut, tokens, rest, hreading, codeReading, Token.message]
  · intro hsearch
    have hfive := hsearch.2.1
    rw [rest, hreading] at hfive
    simp at hfive

lemma Ready.exists_read (h : Ready t [] c) {m : Negotiation}
    (hm : TelnetCode.isNegotiation m.1 = true) :
    ∃ d, Step c (.read (wireBytes [m])) d ∧ d.wire = c.wire ∧
      d.sent = c.sent ++ reply t m.1 m.2 ∧ Ready t (reply t m.1 m.2) d := by
  obtain ⟨hcut, hno⟩ := cut_wireBytes_single hm
  rw [← List.nil_append (wireBytes [m]), ← h.inbox] at hno
  obtain ⟨d, hstep⟩ : ∃ d, Step c (.read (wireBytes [m])) d := ⟨_, step_read h.reads hno⟩
  obtain ⟨-, e, hread, rfl⟩ := id hstep
  obtain ⟨hms, hinbox⟩ := hread.handles (c := { c with reads := c.reads - 1 }) h.speaking.noLine
  dsimp only at hms hinbox
  rw [h.inbox, List.nil_append, hcut] at hms hinbox
  have hwire : e.wire = c.wire :=
    (Link.keepsReading_wire _).read (c := { c with reads := c.reads - 1 }) rfl hread
  have hsent : e.receive.sent = c.sent ++ reply t m.1 m.2 := by
    refine hms.sent.trans ?_
    rw [repliesTo_of_sameClasses h.speaking.classes]
    exact congrArg (c.sent ++ ·) (List.append_nil _)
  obtain ⟨k, hone⟩ := h.oneByOne
  obtain ⟨hconserved, hone'⟩ := hone.step h.conserved hstep
  refine ⟨_, hstep, hwire, hsent, h.speaking.step (fun _ _ heq => Event.noConfusion heq) hstep,
    hconserved, ⟨_, hone'⟩, keepsAll_noStall.step (by simp) h.noStall hstep, ?_, hinbox,
    Nat.succ_pos _⟩
  have hout := Link.written_append_outbox h.conserved hconserved (w := [])
    ((List.append_nil c.wire).symm ▸ hwire) hsent
  rwa [h.outbox] at hout

/-- The read loop begins, and the offers are what has to be written. -/
lemma ready_start (h : Silent t c) (hhand : c.handshakes = 0) (hc : Conserved c)
    (hone : OneByOne 0 c.output) (hstall : NoStall c) (hinbox : c.inbox = []) :
    Ready t (offered t) c.start ∧ c.start.wire = c.wire ∧ c.start.sent = offered t := by
  have hspeaking := h.start hhand
  have hconserved := keepsAll_conserved.toKeepsStart.start hc
  have hwire := Link.wire_start c
  have hsent : c.start.sent = offered t := by
    rw [hspeaking.sent, c.start_frame.1, h.received]
    exact List.append_nil _
  have hnone : c.wire = [] := List.length_eq_zero_iff.mp (Nat.le_zero.mp hone.wire)
  have hbytes := hconserved.bytes
  rw [enqueued_eq_wireBytes, hsent, hwire, hnone, List.nil_append] at hbytes
  have hown : c.Operations 0 0 c.waits c.lost c.started := ⟨hhand, h.reads, rfl, rfl, rfl⟩
  refine ⟨⟨hspeaking, hconserved, ⟨0, ?_⟩, keepsAll_noStall.toKeepsStart.start hstall, hbytes,
    c.start_frame.2.2.1.trans hinbox, ?_⟩, hwire, hsent⟩
  · exact ((keepsAll_oneByOne 0).toKeepsStart.start ⟨hc, hone⟩).2
  · rw [hown.start.reads]
    exact Nat.one_pos

end TelnetMudConnection

namespace Link

open TelnetMudConnection

variable {t u : OptionTable} {s s' : Link} {b c : TelnetMudConnection}

/-! ### Few bytes from one of two -/

/-- A step that nothing but the connections has a part in. -/
def OwnStep (s : Link) (x : Duplex.End × Event) (s' : Link) : Prop :=
  Step s x s' ∧ ∀ m o, x.2 ≠ .sendNegotiate m o

lemma view_step {I : TelnetMudConnection → Prop} {x : Duplex.End × Event} (hstep : OwnStep s x s')
    (hI : ∀ c k d, (∀ m o, k ≠ .sendNegotiate m o) → I c → TelnetMudConnection.Step c k d → I d)
    (e : Duplex.End) (h : I (s.view e).left) : I (s'.view e).left := by
  obtain ⟨e', k⟩ := x
  obtain ⟨⟨d, w, hd, -, -, heq⟩, hk⟩ := hstep
  have hleft : (s'.view e').left = d := by rw [heq]
  have hright : (s'.view e').right = (s.view e').right := by rw [heq]
  have hown : I (s.view e').left → I (s'.view e').left := fun h => hleft ▸ hI _ _ _ hk h hd
  cases e with
  | left =>
      cases e' with
      | left => exact hown h
      | right =>
          show I (s'.view .right).right
          rw [hright]
          exact h
  | right =>
      cases e' with
      | left =>
          show I (s'.view .left).right
          rw [hright]
          exact h
      | right => exact hown h

/-- Each connection has enqueued as much as it may after what has come to it from the other. -/
structure Metered (t u : OptionTable) (s : Link) : Prop where
  left : ∃ m, Frugal t m s.left ∧
    m + s.toLeft.length ≤ 3 * (offered t).length + s.right.wire.length
  right : ∃ m, Frugal u m s.right ∧
    m + s.toRight.length ≤ 3 * (offered u).length + s.left.wire.length

lemma Metered.swap (h : Metered t u s) : Metered u t s.swap := ⟨h.right, h.left⟩

lemma Metered.leftStep (h : Metered t u s) {k : Event} (hstep : LeftStep s k s')
    (hk : ∀ m o, k ≠ .sendNegotiate m o) : Metered t u s' := by
  obtain ⟨d, w, hd, hwire, hway, heq⟩ := hstep
  obtain ⟨m, hleft, hm⟩ := h.left
  obtain ⟨m', hright, hm'⟩ := h.right
  have hcost : k.cost = k.text.length := by
    cases k with
    | sendNegotiate m o => exact absurd rfl (hk m o)
    | _ => rfl
  have hlen := congrArg List.length hway
  rw [List.length_append] at hlen
  rw [heq]
  refine ⟨⟨_, hleft.step hd, ?_⟩, ⟨m', hright, ?_⟩⟩
  · dsimp only
    omega
  · dsimp only
    rw [hwire, List.length_append, List.length_append]
    omega

lemma Metered.step (h : Metered t u s) {x : Duplex.End × Event} (hstep : OwnStep s x s') :
    Metered t u s' := by
  obtain ⟨e, k⟩ := x
  cases e with
  | left => exact h.leftStep hstep.1 hstep.2
  | right => exact (h.swap.leftStep hstep.1 hstep.2).swap

lemma metered_connected (hb : Fresh b) (hc : Fresh c) :
    Metered b.options c.options (connected b c) := by
  obtain ⟨i, tls, cb, ks, rfl⟩ := hb
  obtain ⟨i', tls', cb', ks', rfl⟩ := hc
  exact ⟨⟨_, frugal_onConnect i tls cb ks, Nat.le_add_right _ _⟩,
    ⟨_, frugal_onConnect i' tls' cb' ks', Nat.le_add_right _ _⟩⟩

lemma ownStep_run {tr : List ((Duplex.End × Event) × Link)} (h : Run Step s tr)
    (hown : Undisturbed tr) : Run OwnStep s tr :=
  h.restrict_events fun x hx m o heq => hown x.1 m o (by rw [← heq]; exact hx)

lemma Metered.bound (h : Metered t u s) (hc : Conserved s.right) (hwire : s.left.wire.length ≤ 3) :
    s.left.enqueued.length + s.right.enqueued.length ≤
      6 * (offered t).length + 6 * (offered u).length + 6 := by
  obtain ⟨m, hleft, hm⟩ := h.left
  obtain ⟨m', hright, hm'⟩ := h.right
  have hbound := hleft.bound
  have hbound' := hright.bound
  have hbytes := congrArg List.length hc.bytes
  rw [length_enqueued, List.length_append] at hbytes
  rw [length_enqueued, length_enqueued]
  omega

/-- **Two offers are too many for a loop**: where one of two connections offers two things or more,
they enqueue no more than six bytes for each offer, and six. -/
lemma bounded_of_offers (hb : Fresh b) (hc : Fresh c)
    (hoffers : 2 ≤ (offered b.options).length ∨ 2 ≤ (offered c.options).length)
    {tr : List ((Duplex.End × Event) × Link)} (h : Run Step (connected b c) tr)
    (hown : Undisturbed tr) :
    (final (connected b c) tr).left.enqueued.length +
      (final (connected b c) tr).right.enqueued.length ≤
        6 * (offered b.options).length + 6 * (offered c.options).length + 6 := by
  have hrun := ownStep_run h hown
  have hmetered := hrun.invariant (fun _ _ _ hm hstep => hm.step hstep) (metered_connected hb hc)
  have hconserved : ∀ e, Conserved ((connected b c).view e).left →
      Conserved ((final (connected b c) tr).view e).left := fun e =>
    hrun.invariant (I := fun s => Conserved (s.view e).left) fun _ _ _ hs hstep =>
      view_step hstep (fun _ _ _ _ hc hstep => hc.step hstep) e hs
  have hbrief : ∀ e (t : OptionTable), 2 ≤ (offered t).length →
      Brief t ((connected b c).view e).left → Brief t ((final (connected b c) tr).view e).left :=
    fun e t ht => hrun.invariant (I := fun s => Brief t (s.view e).left) fun _ _ _ hs hstep =>
      view_step hstep (fun _ _ _ hk hs hstep => hs.step ht hk hstep) e hs
  have hnew : ∀ {b}, Fresh b → Conserved b.onConnect := fun hb =>
    keepsAll_conserved.toKeepsStart.onConnect hb.silent.2.2.1
  rcases hoffers with htwo | htwo
  · have hfew := hbrief .left _ htwo (by
      obtain ⟨i, tls, cb, ks, rfl⟩ := hb
      exact brief_onConnect htwo)
    exact hmetered.bound (hconserved .right (hnew hc)) hfew.wire
  · have hfew := hbrief .right _ htwo (by
      obtain ⟨i, tls, cb, ks, rfl⟩ := hc
      exact brief_onConnect htwo)
    have hbound := hmetered.swap.bound (hconserved .left (hnew hb)) hfew.wire
    dsimp only [swap] at hbound
    omega

/-! ### A loop -/

lemma ownStep_left {k : Event} {d : TelnetMudConnection} (w way : Bytes)
    (hd : TelnetMudConnection.Step s.left k d) (hk : ∀ m o, k ≠ .sendNegotiate m o)
    (hwire : d.wire = s.left.wire ++ w) (hway : s.toLeft = k.text ++ way) :
    OwnStep s (.left, k) ⟨d, s.right, s.toRight ++ w, way⟩ :=
  ⟨step_left w way hd hwire hway, hk⟩

lemma leads_swap (h : Leads OwnStep s s') : Leads OwnStep s.swap s'.swap := by
  obtain ⟨tr, hrun, rfl⟩ := h
  induction hrun with
  | nil s => exact .refl s.swap
  | @cons s s' x tr hstep _ ih =>
      obtain ⟨e, k⟩ := x
      cases e with
      | left => exact (Leads.single (e := (.right, k)) hstep).trans ih
      | right => exact (Leads.single (e := (.left, k)) hstep).trans ih

lemma exists_flush {ms : List Negotiation} (h : Ready t ms s.left) (hms : ms.length ≤ 1) :
    ∃ d, Leads OwnStep s ⟨d, s.right, s.toRight ++ wireBytes ms, s.toLeft⟩ ∧
      d.sent = s.left.sent ∧ Ready t [] d := by
  rcases ms with _ | ⟨m, _ | ⟨_, _⟩⟩
  · refine ⟨s.left, ?_, rfl, h⟩
    rw [show wireBytes [] = [] from rfl, List.append_nil]
    exact .refl s
  · obtain ⟨d, hstep, hwire, hsent, hready⟩ := h.exists_written
    exact ⟨d, .single (ownStep_left _ _ hstep (fun _ _ heq => Event.noConfusion heq) hwire rfl),
      hsent, hready⟩
  · exact absurd hms (by simp)

lemma Fresh.noStall (hb : Fresh b) : OneByOne 0 b.output ∧ NoStall b := by
  obtain ⟨connId, isTLS, hasConnectCB, ks, rfl⟩ := hb
  obtain ⟨ho, hw, hf, -, -⟩ := withOptions_output connId isTLS hasConnectCB ks
  exact ⟨oneByOne_withOptions connId isTLS hasConnectCB ks, by simp [NoStall, ho, hw, hf]⟩

lemma exists_start (hb : Fresh b) (hs : s.left = b.onConnect) :
    ∃ d, Leads OwnStep s ⟨d, s.right, s.toRight, s.toLeft⟩ ∧ d.sent = offered b.options ∧
      Ready b.options (offered b.options) d := by
  obtain ⟨hsilent, hhand, hc, hinbox, -⟩ := hb.silent
  obtain ⟨hone, hstall⟩ := hb.noStall
  by_cases htls : b.isTLS = true
  · -- the handshake is outstanding, and comes to its end
    have hin : Silent b.options { b with conn := .securePeer, handshakes := 0 } :=
      ⟨hsilent.1, hsilent.2, hsilent.3, hsilent.4, hsilent.5, Nat.zero_le 1⟩
    obtain ⟨hready, hwire, hsent⟩ := ready_start hin rfl
      ⟨hc.one, hc.front, hc.writing, hc.bytes⟩ hone hstall hinbox
    rw [onConnect, if_pos htls, hhand] at hs
    have hstep : TelnetMudConnection.Step s.left (.handshake false) (start
        { b with conn := .securePeer, handshakes := 0 }) := by
      rw [hs]
      exact ⟨Nat.one_pos, rfl⟩
    have hown := ownStep_left [] s.toLeft hstep (fun _ _ heq => Event.noConfusion heq)
      (by rw [hwire, List.append_nil, hs]) rfl
    rw [List.append_nil] at hown
    exact ⟨_, .single hown, hsent, hready⟩
  · obtain ⟨hready, -, hsent⟩ := ready_start hsilent hhand hc hone hstall hinbox
    rw [onConnect, if_neg htls, onPlainConnect] at hs
    rw [← hs] at hready hsent
    exact ⟨s.left, .refl s, hsent, hready⟩

/-- Both connections keep up; `A` and `B` are on their way, with a request for an option that both
know among them; and they have sent `n` more than what is on its way. -/
structure Echoing (t u : OptionTable) (code : TelnetCode) (n : ℕ) (A B : List Negotiation)
    (s : Link) : Prop where
  left : Ready t [] s.left
  right : Ready u [] s.right
  toRight : s.toRight = wireBytes A
  toLeft : s.toLeft = wireBytes B
  properRight : Proper A
  properLeft : Proper B
  knownLeft : t.find? code ≠ none
  knownRight : u.find? code ≠ none
  live : ∃ m ∈ A ++ B, m.2 = code ∧ Peer.isRequest m = true
  sent : n + A.length + B.length ≤ s.left.sent.length + s.right.sent.length

variable {code : TelnetCode} {n : ℕ} {A B : List Negotiation}

lemma Echoing.swap (h : Echoing t u code n A B s) : Echoing u t code n B A s.swap := by
  have hsent := h.sent
  refine ⟨h.right, h.left, h.toLeft, h.toRight, h.properLeft, h.properRight, h.knownRight,
    h.knownLeft, ?_, ?_⟩
  · obtain ⟨m, hm, hcode⟩ := h.live
    exact ⟨m, List.mem_append.mpr (List.mem_append.mp hm).symm, hcode⟩
  · show n + B.length + A.length ≤ s.right.sent.length + s.left.sent.length
    omega

lemma Echoing.deliver {m : Negotiation} (h : Echoing t u code n A (m :: B) s) :
    ∃ s', Leads OwnStep s s' ∧ Echoing t u code (n + 1) (A ++ reply t m.1 m.2) B s' := by
  obtain ⟨hm, hproper⟩ := List.forall_mem_cons.mp h.properLeft
  have hreplies : repliesTo t [m] = reply t m.1 m.2 := List.append_nil _
  have hfew := length_repliesTo_le t [m]
  have hreply := proper_repliesTo t [m]
  rw [hreplies] at hfew hreply
  obtain ⟨d, hread, hwire, hsent, hready⟩ := h.left.exists_read hm
  have hstep := ownStep_left [] (wireBytes B) hread (fun _ _ heq => Event.noConfusion heq)
    (hwire.trans (List.append_nil _).symm) (h.toLeft.trans rfl)
  rw [List.append_nil] at hstep
  obtain ⟨d', hleads, hsent', hready'⟩ :=
    exists_flush (s := ⟨d, s.right, s.toRight, wireBytes B⟩) hready hfew
  have hcount := h.sent
  refine ⟨_, (Leads.single hstep).trans hleads, hready', h.right, ?_, rfl,
    h.properRight.append hreply, hproper, h.knownLeft, h.knownRight, ?_, ?_⟩
  · rw [wireBytes_append, ← h.toRight]
  · obtain ⟨m', hm', rfl, hrequest⟩ := h.live
    rcases List.mem_append.mp hm' with hm' | hm'
    · exact ⟨m', by simp [hm'], rfl, hrequest⟩
    · rcases List.mem_cons.mp hm' with rfl | hm'
      · -- the request itself is read, and comes back
        obtain ⟨op, hop⟩ := Option.ne_none_iff_exists'.mp h.knownLeft
        have hback : reply t m'.1 m'.2 = [m'] := by
          rw [reply, if_pos (Peer.isRequest_iff.mp hrequest), hop]
        exact ⟨m', by simp [hback], rfl, hrequest⟩
      · exact ⟨m', by simp [hm'], rfl, hrequest⟩
  · dsimp only
    rw [hsent', hsent, List.length_append, List.length_append]
    rw [List.length_cons] at hcount
    omega

/-- **One more negotiation is sent**, whichever connection has something to read. -/
lemma Echoing.step (h : Echoing t u code n A B s) :
    ∃ s' A' B', Leads OwnStep s s' ∧ Echoing t u code (n + 1) A' B' s' := by
  cases B with
  | cons m B =>
      obtain ⟨s', hleads, hs'⟩ := h.deliver
      exact ⟨s', _, _, hleads, hs'⟩
  | nil =>
      cases A with
      | cons m A =>
          obtain ⟨s', hleads, hs'⟩ := h.swap.deliver
          exact ⟨s'.swap, _, _, leads_swap hleads, hs'.swap⟩
      | nil =>
          obtain ⟨m, hm, -⟩ := h.live
          exact absurd hm List.not_mem_nil

lemma Echoing.run (h : Echoing t u code n A B s) (k : ℕ) :
    ∃ s' A' B', Leads OwnStep s s' ∧ Echoing t u code (n + k) A' B' s' := by
  induction k with
  | zero => exact ⟨s, A, B, .refl s, h⟩
  | succ k ih =>
      obtain ⟨s', A', B', hleads, hs'⟩ := ih
      obtain ⟨s'', A'', B'', hleads', hs''⟩ := hs'.step
      exact ⟨s'', A'', B'', hleads.trans hleads', hs''⟩

lemma echoing_connected (hb : Fresh b) (hc : Fresh c) (hone : (offered b.options).length ≤ 1)
    (hone' : (offered c.options).length ≤ 1) (hknown : b.options.find? code ≠ none)
    (hknown' : c.options.find? code ≠ none)
    (hlive : ∃ m ∈ offered b.options ++ offered c.options, m.2 = code ∧
      Peer.isRequest m = true) :
    ∃ s, Leads OwnStep (connected b c) s ∧
      Echoing b.options c.options code 0 (offered b.options) (offered c.options) s := by
  obtain ⟨d, hstart, hsent, hready⟩ := exists_start (s := connected b c) hb rfl
  obtain ⟨d', hflush, hsent', hready'⟩ :=
    exists_flush (s := ⟨d, c.onConnect, [], []⟩) hready hone
  obtain ⟨e, hstart', hsents, hreadys⟩ :=
    exists_start (s := ⟨c.onConnect, d', [], wireBytes (offered b.options)⟩) hc rfl
  obtain ⟨e', hflush', hsents', hreadys'⟩ :=
    exists_flush (s := ⟨e, d', [], wireBytes (offered b.options)⟩) hreadys hone'
  refine ⟨⟨d', e', wireBytes (offered b.options), wireBytes (offered c.options)⟩,
    (hstart.trans hflush).trans (leads_swap (hstart'.trans hflush')), hready', hreadys', rfl, rfl,
    proper_offered _, proper_offered _, hknown, hknown', hlive, ?_⟩
  show 0 + _ + _ ≤ d'.sent.length + e'.sent.length
  rw [hsent', hsents', hsents]
  dsimp only
  rw [hsent]
  omega

lemma exists_request_offered (hknown : t.find? code ≠ none) (hoffers : Peer.offersOf t code ≠ []) :
    ∃ m ∈ offered t, m.2 = code ∧ Peer.isRequest m = true := by
  obtain ⟨op, hop⟩ := Option.ne_none_iff_exists'.mp hknown
  obtain ⟨m, hm⟩ := List.exists_mem_of_ne_nil _ hoffers
  obtain ⟨hcode, hrequest⟩ := Peer.offersOf_request hm
  exact ⟨m, List.mem_flatMap.mpr ⟨code, Table.mem_keys_of_find? hop, hm⟩, hcode,
    Peer.isRequest_iff.mpr hrequest⟩

/-- **The loop**: where neither connection offers more than one thing, and an option that both have
registered is started, there are runs with as much enqueued as one likes. -/
lemma exists_run_unbounded (hb : Fresh b) (hc : Fresh c)
    (hshared : ¬ Peer.NoSharedStart b.options c.options)
    (hone : (offered b.options).length ≤ 1) (hone' : (offered c.options).length ≤ 1) (n : ℕ) :
    ∃ tr, Run Step (connected b c) tr ∧ Undisturbed tr ∧
      n < (final (connected b c) tr).left.enqueued.length +
        (final (connected b c) tr).right.enqueued.length := by
  rw [Peer.noSharedStart_iff, Peer.NoSharedOffer] at hshared
  push Not at hshared
  obtain ⟨code, hknown, hknown', hstarted⟩ := hshared
  have hlive : ∃ m ∈ offered b.options ++ offered c.options, m.2 = code ∧
      Peer.isRequest m = true := by
    by_cases hnil : Peer.offersOf b.options code = []
    · obtain ⟨m, hm, hcode⟩ := exists_request_offered hknown' (hstarted hnil)
      exact ⟨m, List.mem_append_right _ hm, hcode⟩
    · obtain ⟨m, hm, hcode⟩ := exists_request_offered hknown hnil
      exact ⟨m, List.mem_append_left _ hm, hcode⟩
  obtain ⟨s, hleads, hs⟩ := echoing_connected hb hc hone hone' hknown hknown' hlive
  obtain ⟨s', A, B, hleads', hs'⟩ := hs.run (n + 1)
  obtain ⟨tr, hrun, rfl⟩ := hleads.trans hleads'
  obtain ⟨hrun', hevents⟩ := hrun.unrestrict
  refine ⟨tr, hrun', fun x m o hmem => hevents _ hmem m o rfl, ?_⟩
  have hsent := hs'.sent
  rw [length_enqueued, length_enqueued]
  omega

/-- There is a bound on what two connections enqueue, in all runs in which they send only what they
offer and reply. -/
def Terminates (b c : TelnetMudConnection) : Prop :=
  ∃ n, ∀ tr, Run Step (connected b c) tr → Undisturbed tr →
    (final (connected b c) tr).left.enqueued.length +
      (final (connected b c) tr).right.enqueued.length ≤ n

/-- **Whether negotiation ends on the wire**: it does exactly if neither connection starts an
option that both have registered, or one of them offers two things or more. -/
theorem terminates_iff {b c : TelnetMudConnection} (hb : Fresh b) (hc : Fresh c) :
    Terminates b c ↔ Peer.NoSharedStart b.options c.options ∨ 2 ≤ (offered b.options).length ∨
      2 ≤ (offered c.options).length := by
  constructor
  · rintro ⟨n, hn⟩
    by_contra hloop
    rw [not_or, not_or, not_le, not_le] at hloop
    obtain ⟨hshared, hone, hone'⟩ := hloop
    obtain ⟨tr, hrun, hown, hlong⟩ := exists_run_unbounded hb hc hshared
      (Nat.le_of_lt_succ hone) (Nat.le_of_lt_succ hone') n
    exact absurd (hn tr hrun hown) (not_le.mpr hlong)
  · rintro (hshared | hoffers)
    · refine ⟨12 * (Peer.codes b c).card, fun tr h hown => ?_⟩
      have hsent := sent_le_codes hb hc hshared h hown
      rw [length_enqueued, length_enqueued]
      omega
    · exact ⟨_, fun tr h hown => bounded_of_offers hb hc hoffers h hown⟩

def starting (startDo : Bool) : TelnetMudConnection :=
  withOptions 0 false true [{ opCode := 31, startWill := true, startDo := startDo }]

def knowing : TelnetMudConnection := withOptions 1 false true [{ opCode := 31 }]

/-- There is a loop, and it ends if the one that starts it offers another thing. -/
theorem second_offer_terminates :
    ¬ Terminates (starting false) knowing ∧ Terminates (starting true) knowing := by
  have hstarting : ∀ startDo, Fresh (starting startDo) := fun startDo => ⟨_, _, _, _, rfl⟩
  have hknowing : Fresh knowing := ⟨_, _, _, _, rfl⟩
  constructor
  · rw [terminates_iff (hstarting false) hknowing]
    rintro (hshared | htwo | htwo)
    · exact absurd (hshared 31 _ _ rfl rfl .localSide).1 (by decide)
    · exact absurd htwo (by decide)
    · exact absurd htwo (by decide)
  · exact (terminates_iff (hstarting true) hknowing).mpr (Or.inr (Or.inl (by decide)))

end Link

end ForgeMush
