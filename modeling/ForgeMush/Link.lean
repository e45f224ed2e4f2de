import ForgeMush.Amplification
import ForgeMush.Echo
import ForgeMush.RoundTrip

/-!
Two connections joined byte by byte.

What the writes of one put on the wire is on its way until the reads of the other take it, in
pieces of any size. Underneath is the negotiation of two peers, message by message: the bytes on
their way, with what the ends hold of them, are those of the messages in flight.
-/

namespace ForgeMush

open Runs TelnetStream TelnetMudConnection

/-! ### Bytes of negotiations -/

lemma wireBytes_append (ms ns : List Negotiation) :
    wireBytes (ms ++ ns) = wireBytes ms ++ wireBytes ns := List.flatMap_append

lemma enqueued_eq_wireBytes (c : TelnetMudConnection) : c.enqueued = wireBytes c.sent := by
  unfold enqueued sent
  induction c.calls with
  | nil => rfl
  | cons k ks ih =>
      rw [List.flatMap_cons, ih]
      cases k with
      | sendNegotiate command option => rfl
      | _ => rfl

/-- All are WILL, WONT, DO or DONT. -/
def Proper (ms : List Negotiation) : Prop := ∀ m ∈ ms, TelnetCode.isNegotiation m.1 = true

lemma Proper.append {ms ns : List Negotiation} (hms : Proper ms) (hns : Proper ns) :
    Proper (ms ++ ns) := List.forall_mem_append.mpr ⟨hms, hns⟩

lemma not_entersSearch_of_waits {w : Bytes} (hreading : reading w = ([], w))
    (hlen : w.length < 3) : ¬ EntersSearch w := by
  intro hsearch
  have hfive := hsearch.2.1
  rw [rest, hreading] at hfive
  dsimp only at hfive
  omega

/-- **Reading a part of it**: the negotiations that are complete, and then the rest. No search is
entered. -/
lemma cut_part_wireBytes {ms : List Negotiation} (hms : Proper ms) {w v : Bytes}
    (h : w ++ v = wireBytes ms) :
    ∃ ns rs, ms = ns ++ rs ∧ (cut w).1 = ns.map (fun m => .negotiation m.1 m.2) ∧
      (cut w).2 ++ v = wireBytes rs ∧ ¬ EntersSearch w := by
  induction ms generalizing w with
  | nil =>
      obtain ⟨rfl, rfl⟩ := List.append_eq_nil_iff.mp h
      exact ⟨[], [], rfl, rfl, rfl, not_entersSearch_nil⟩
  | cons m ms ih =>
      obtain ⟨hm, hrest⟩ := List.forall_mem_cons.mp hms
      have hIAC : m.1 ≠ TelnetCode.IAC := by
        intro heq
        rw [heq] at hm
        cases hm
      have hcons : wireBytes (m :: ms) = TelnetCode.IAC :: m.1 :: m.2 :: wireBytes ms := rfl
      -- the whole of `w` waits where it ends inside the first negotiation
      have hwaits : reading w = ([], w) → w.length < 3 →
          ∃ ns rs, m :: ms = ns ++ rs ∧ (cut w).1 = ns.map (fun m => .negotiation m.1 m.2) ∧
            (cut w).2 ++ v = wireBytes rs ∧ ¬ EntersSearch w := by
        intro hreading hlen
        rw [cut_of_reading_nil hreading]
        exact ⟨[], m :: ms, rfl, rfl, h, not_entersSearch_of_waits hreading hlen⟩
      have hbytes := h
      rw [hcons] at hbytes
      rcases w with _ | ⟨b, _ | ⟨code, _ | ⟨option, w⟩⟩⟩
      · exact hwaits rfl (by decide)
      · obtain ⟨rfl, -⟩ := List.cons_eq_cons.mp hbytes
        exact hwaits (by simp [reading]) (by decide)
      · obtain ⟨rfl, htail⟩ := List.cons_eq_cons.mp hbytes
        obtain ⟨rfl, -⟩ := List.cons_eq_cons.mp htail
        exact hwaits (by simp [reading, hIAC, hm]) (by simp)
      · obtain ⟨rfl, htail⟩ := List.cons_eq_cons.mp hbytes
        obtain ⟨rfl, htail'⟩ := List.cons_eq_cons.mp htail
        obtain ⟨rfl, hlast⟩ := List.cons_eq_cons.mp htail'
        have hreading := reading_negotiation hIAC hm m.2 w
        have hcut := cut_cons (t := .negotiation m.1 m.2) rfl hreading
        obtain ⟨ns, rs, rfl, hns, hleft, hno⟩ := ih hrest hlast
        refine ⟨m :: ns, rs, rfl, ?_, ?_, ?_⟩
        · rw [hcut, hns]
          rfl
        · rw [hcut]
          exact hleft
        · rwa [entersSearch_cons (t := .negotiation m.1 m.2) rfl hreading]

/-! ### The system -/

/-- Two connections and the bytes on their way between them. -/
structure Link where
  left : TelnetMudConnection
  right : TelnetMudConnection
  toRight : Bytes := []
  toLeft : Bytes := []

namespace Link

def swap (s : Link) : Link := ⟨s.right, s.left, s.toLeft, s.toRight⟩

def view (s : Link) : Duplex.End → Link
  | .left => s
  | .right => s.swap

/-- An event of the connection on the left: it reads from the front of what is on its way to it,
and what it writes goes behind what is on its way to the other. -/
def LeftStep (s : Link) (e : Event) (t : Link) : Prop :=
  ∃ d w, TelnetMudConnection.Step s.left e d ∧ d.wire = s.left.wire ++ w ∧
    s.toLeft = e.text ++ t.toLeft ∧
    t = { s with left := d, toRight := s.toRight ++ w, toLeft := t.toLeft }

def Step (s : Link) (e : Duplex.End × Event) (t : Link) : Prop :=
  LeftStep (s.view e.1) e.2 (t.view e.1)

/-- Two connections that have been connected with each other. -/
def connected (a b : TelnetMudConnection) : Link where
  left := a.onConnect
  right := b.onConnect

/-- Nothing but the connections themselves sends negotiations. -/
def Undisturbed (tr : List ((Duplex.End × Event) × Link)) : Prop :=
  ∀ x m o, (x, .sendNegotiate m o) ∉ events tr

end Link

/-! ### The peers underneath -/

namespace Peer

variable {s : Duplex.State Peer Negotiation}

lemma leads_start {codes : List TelnetCode} (h : s.left.toStart = codes) :
    ∃ p : Peer, p.toStart = [] ∧ SameClasses s.left.conn.options p.conn.options ∧
      Leads (Duplex.Step dispatching) s { s with
        left := p
        toRight := s.toRight ++ codes.flatMap (offersOf s.left.conn.options)
        sent := s.sent + (codes.flatMap (offersOf s.left.conn.options)).length } := by
  induction codes generalizing s with
  | nil => exact ⟨s.left, h, fun _ => rfl, by simpa using Leads.refl s⟩
  | cons code codes ih =>
      obtain ⟨⟨q, out⟩, hturn⟩ : ∃ x, s.left.startTurn = some x := by
        refine Option.ne_none_iff_exists'.mp fun hnone => ?_
        rw [startTurn_eq_none.mp hnone] at h
        cases h
      obtain ⟨code', hts, -, rfl⟩ := startTurn_cases hturn
      obtain ⟨rfl, rfl⟩ := List.cons_eq_cons.mp (h.symm.trans hts)
      have hclasses := startTurn_sameClasses hturn
      have hstep : Duplex.Step dispatching s (.start .left) { s with
          left := q
          toRight := s.toRight ++ offersOf s.left.conn.options code
          sent := s.sent + (offersOf s.left.conn.options code).length } :=
        ⟨q, _, hturn, rfl⟩
      obtain ⟨p, hp, hsame, hleads⟩ := ih (s := { s with
          left := q
          toRight := s.toRight ++ offersOf s.left.conn.options code
          sent := s.sent + (offersOf s.left.conn.options code).length }) rfl
      refine ⟨p, hp, hclasses.trans hsame, (Leads.single hstep).trans ?_⟩
      dsimp only at hleads
      rw [offersOf_of_sameClasses hclasses] at hleads
      rwa [List.flatMap_cons, List.length_append, ← List.append_assoc, ← Nat.add_assoc]

lemma leads_deliver {ns rs : List Negotiation} (h : s.left.toStart = [])
    (hto : s.toLeft = ns ++ rs) :
    ∃ p : Peer, p.toStart = [] ∧ SameClasses s.left.conn.options p.conn.options ∧
      Leads (Duplex.Step dispatching) s { s with
        left := p
        toRight := s.toRight ++ repliesTo s.left.conn.options ns
        toLeft := rs
        sent := s.sent + (repliesTo s.left.conn.options ns).length } := by
  induction ns generalizing s with
  | nil =>
      have hrs : s.toLeft = rs := hto
      exact ⟨s.left, h, fun _ => rfl, by simpa [repliesTo, ← hrs] using Leads.refl s⟩
  | cons m ns ih =>
      set q : Peer := ⟨s.left.toStart, s.left.conn.onReceiveNegotiation m.1 m.2⟩
      have hclasses : SameClasses s.left.conn.options q.conn.options :=
        sameClasses_onReceiveNegotiation s.left.conn m.1 m.2
      have hreplies := replies_onReceiveNegotiation s.left.conn m.1 m.2
      have hstep : Duplex.Step dispatching s (.deliver .left) { s with
          left := q
          toRight := s.toRight ++ reply s.left.conn.options m.1 m.2
          toLeft := ns ++ rs
          sent := s.sent + (reply s.left.conn.options m.1 m.2).length } := by
        rw [← hreplies]
        exact ⟨startTurn_eq_none.mpr h, m, ns ++ rs, hto, rfl⟩
      obtain ⟨p, hp, hsame, hleads⟩ := ih (s := { s with
          left := q
          toRight := s.toRight ++ reply s.left.conn.options m.1 m.2
          toLeft := ns ++ rs
          sent := s.sent + (reply s.left.conn.options m.1 m.2).length }) h rfl
      refine ⟨p, hp, hclasses.trans hsame, (Leads.single hstep).trans ?_⟩
      have hcons : repliesTo s.left.conn.options (m :: ns) =
          reply s.left.conn.options m.1 m.2 ++ repliesTo s.left.conn.options ns :=
        List.flatMap_cons
      dsimp only at hleads
      rw [repliesTo_of_sameClasses hclasses] at hleads
      rwa [hcons, List.length_append, ← List.append_assoc, ← Nat.add_assoc]

end Peer

namespace Link

/-! ### The relation -/

/-- The connection `c` is where the peer `p` is, its options being `t` at first. -/
inductive Ends (t : OptionTable) (c : TelnetMudConnection) (p : Peer) : Prop
  | silent (h : Silent t c) (hoptions : p.conn.options = t) (hturns : p.toStart = t.keys)
  | speaking (h : Speaking t c) (hclasses : SameClasses t p.conn.options)
      (hturns : p.toStart = [])

/-- The bytes between two connections, with what they hold of them, are those of the messages
between two peers that are where the connections are. -/
structure Shows (t u : OptionTable) (s : Link) (a : Duplex.State Peer Negotiation) : Prop where
  left : Ends t s.left a.left
  right : Ends u s.right a.right
  conservedLeft : Conserved s.left
  conservedRight : Conserved s.right
  toRight : s.right.inbox ++ s.toRight ++ s.left.outbox = wireBytes a.toRight
  toLeft : s.left.inbox ++ s.toLeft ++ s.right.outbox = wireBytes a.toLeft
  properRight : Proper a.toRight
  properLeft : Proper a.toLeft
  sent : s.left.sent.length + s.right.sent.length = a.sent

lemma Shows.swap {t u : OptionTable} {s : Link} {a : Duplex.State Peer Negotiation}
    (h : Shows t u s a) : Shows u t s.swap a.swap :=
  ⟨h.right, h.left, h.conservedRight, h.conservedLeft, h.toLeft, h.toRight, h.properLeft,
    h.properRight, (Nat.add_comm _ _).trans h.sent⟩

lemma proper_repliesTo (t : OptionTable) (ms : List Negotiation) : Proper (repliesTo t ms) := by
  intro m hm
  obtain ⟨m', -, hm⟩ := List.mem_flatMap.mp hm
  unfold reply at hm
  by_cases hreq : m'.1 = TelnetCode.WILL ∨ m'.1 = TelnetCode.DO
  · rw [if_pos hreq] at hm
    cases hop : t.find? m'.2 with
    | some op =>
        rw [hop] at hm
        obtain rfl := List.mem_singleton.mp hm
        rcases hreq with hreq | hreq <;> rw [hreq] <;> rfl
    | none =>
        rw [hop] at hm
        obtain rfl := List.mem_singleton.mp hm
        rcases hreq with hreq | hreq <;> rw [hreq] <;> rfl
  · rw [if_neg hreq] at hm
    cases hm

lemma proper_offered (t : OptionTable) : Proper (offered t) := by
  intro m hm
  obtain ⟨code, -, hm⟩ := List.mem_flatMap.mp hm
  rcases (Peer.offersOf_request hm).2 with h | h <;> rw [h] <;> rfl

lemma written_append_outbox {c d : TelnetMudConnection} (hc : Conserved c) (hd : Conserved d)
    {w : Bytes} {new : List Negotiation} (hwire : d.wire = c.wire ++ w)
    (hsent : d.sent = c.sent ++ new) : w ++ d.outbox = c.outbox ++ wireBytes new := by
  have hall : c.wire ++ (w ++ d.outbox) = c.wire ++ (c.outbox ++ wireBytes new) := calc
    c.wire ++ (w ++ d.outbox) = d.wire ++ d.outbox := by rw [hwire, List.append_assoc]
    _ = c.enqueued ++ wireBytes new := by
        rw [hd.bytes, enqueued_eq_wireBytes, enqueued_eq_wireBytes, hsent, wireBytes_append]
    _ = c.wire ++ (c.outbox ++ wireBytes new) := by rw [← hc.bytes, List.append_assoc]
  exact List.append_cancel_left hall

variable {t u : OptionTable} {s s' : Link} {a : Duplex.State Peer Negotiation} {e : Event}

/-- The connection on the left does something to its output, which stays in order. -/
def Moves (s s' : Link) : Prop :=
  ∃ w, s'.left.wire = s.left.wire ++ w ∧ Conserved s'.left ∧ s'.right = s.right ∧
    s'.toRight = s.toRight ++ w

lemma LeftStep.moves (hstep : LeftStep s e s') (hc : Conserved s.left) : Moves s s' := by
  obtain ⟨d, w, hd, hwire, -, heq⟩ := hstep
  have hleft : s'.left = d := by rw [heq]
  rw [Moves, hleft]
  exact ⟨w, hwire, hc.step hd, by rw [heq], by rw [heq]⟩

lemma Shows.advance (h : Shows t u s a) (hmoves : Moves s s') {p : Peer}
    (new ns : List Negotiation) {rs : List Negotiation} (hends : Ends t s'.left p)
    (hsent : s'.left.sent = s.left.sent ++ new) (hnew : Proper new) (hto : a.toLeft = ns ++ rs)
    (hin : s'.left.inbox ++ s'.toLeft ++ s.right.outbox = wireBytes rs) :
    Shows t u s' { a with
      left := p, toRight := a.toRight ++ new, toLeft := rs, sent := a.sent + new.length } := by
  obtain ⟨w, hwire, hconserved, hright, hway⟩ := hmoves
  have hproper := h.properLeft
  rw [hto] at hproper
  refine ⟨hends, hright ▸ h.right, hconserved, hright ▸ h.conservedRight, ?_, hright ▸ hin,
    h.properRight.append hnew, fun m hm => hproper m (List.mem_append_right _ hm), ?_⟩
  · have hbytes := written_append_outbox h.conservedLeft hconserved hwire hsent
    calc s'.right.inbox ++ s'.toRight ++ s'.left.outbox
        = s.right.inbox ++ s.toRight ++ (w ++ s'.left.outbox) := by
          rw [hright, hway]
          simp only [List.append_assoc]
      _ = (s.right.inbox ++ s.toRight ++ s.left.outbox) ++ wireBytes new := by
          rw [hbytes]
          simp only [List.append_assoc]
      _ = wireBytes (a.toRight ++ new) := by rw [h.toRight, wireBytes_append]
  · have := h.sent
    rw [hright, hsent, List.length_append]
    dsimp only
    omega

lemma Shows.unread (h : Shows t u s a) (hstep : LeftStep s e s') (he : ∀ data, e ≠ .read data) :
    s'.left.inbox ++ s'.toLeft ++ s.right.outbox = wireBytes a.toLeft := by
  have htext : e.text = [] := by
    cases e with
    | read data => exact absurd rfl (he data)
    | _ => rfl
  obtain ⟨d, w, hd, -, hway, heq⟩ := hstep
  have hinbox : d.inbox = s.left.inbox := (keepsApart_inbox _).step he rfl hd
  have hleft : s'.left = d := by rw [heq]
  rw [htext, List.nil_append] at hway
  rw [hleft, hinbox, ← hway, h.toLeft]

lemma Shows.quiet (h : Shows t u s a) (hstep : LeftStep s e s') (he : ∀ data, e ≠ .read data)
    (hends : Ends t s'.left a.left) (hsent : s'.left.sent = s.left.sent) : Shows t u s' a := by
  have hdone := h.advance (hstep.moves h.conservedLeft) [] [] hends
    (by rw [hsent, List.append_nil]) (fun m hm => absurd hm List.not_mem_nil) rfl
    (h.unread hstep he)
  simpa using hdone

lemma Shows.read (h : Shows t u s a) {data : Bytes} (hstep : LeftStep s (.read data) s')
    (hspeaks : Speaking t s.left) (hclasses : SameClasses t a.left.conn.options)
    (hturns : a.left.toStart = []) :
    ∃ a', Leads (Duplex.Step Peer.dispatching) a a' ∧ Shows t u s' a' := by
  obtain ⟨d, w, hd, -, hway, heq⟩ := id hstep
  have hleft : s'.left = d := by rw [heq]
  have hspeaks' : Speaking t d := hspeaks.step (fun _ _ heq => Event.noConfusion heq) hd
  obtain ⟨-, e, hread, rfl⟩ := hd
  obtain ⟨hms, hinbox⟩ := hread.handles (c := { s.left with reads := s.left.reads - 1 })
    hspeaks.noLine
  dsimp only at hms hinbox
  -- what has been read is a part of what is on its way
  have hpart : (s.left.inbox ++ data) ++ (s'.toLeft ++ s.right.outbox) = wireBytes a.toLeft := by
    rw [← h.toLeft, hway]
    simp only [List.append_assoc]
    rfl
  obtain ⟨ns, rs, hto, hcut, hrest, -⟩ := cut_part_wireBytes h.properLeft hpart
  obtain ⟨p, hp, hsame, hleads⟩ := Peer.leads_deliver hturns hto
  refine ⟨_, hleads, h.advance (hstep.moves h.conservedLeft) _ ns
    (.speaking (hleft ▸ hspeaks') (hclasses.trans hsame) hp) ?_ (proper_repliesTo _ _) hto ?_⟩
  · have hnegotiations : negotiations (cut (s.left.inbox ++ data)).1 = ns := by
      rw [hcut]
      simp [negotiations, List.filterMap_map]
    rw [hleft]
    refine hms.sent.trans ?_
    rw [hnegotiations, repliesTo_of_sameClasses hclasses,
      ← repliesTo_of_sameClasses hspeaks.classes]
    rfl
  · have hleftover : e.receive.inbox = (cut (s.left.inbox ++ data)).2 := hinbox
    rw [hleft, hleftover, List.append_assoc]
    exact hrest

/-- **A step of the connection on the left** is followed by the peer on the left. -/
lemma Shows.leftStep (h : Shows t u s a) (hstep : LeftStep s e s')
    (he : ∀ m o, e ≠ .sendNegotiate m o) :
    ∃ a', Leads (Duplex.Step Peer.dispatching) a a' ∧ Shows t u s' a' := by
  by_cases hread : ∃ data, e = .read data
  · obtain ⟨data, rfl⟩ := hread
    cases h.left with
    | silent hsilent hoptions hturns =>
        obtain ⟨-, -, ⟨hpos, -⟩, -⟩ := hstep
        exact absurd hsilent.reads hpos.ne'
    | speaking hspeaks hclasses hturns => exact h.read hstep hspeaks hclasses hturns
  · have hnoread : ∀ data, e ≠ .read data := fun data heq => hread ⟨data, heq⟩
    obtain ⟨d, w, hd, -, -, heq⟩ := id hstep
    have hleft : s'.left = d := by rw [heq]
    have hreceived : d.received = s.left.received := (keepsApart_received _).step hnoread rfl hd
    cases h.left with
    | silent hsilent hoptions hturns =>
        have hd' := hsilent.step he hd
        by_cases hsecures : e.secures = true
        · rw [if_pos hsecures] at hd'
          obtain ⟨p, hp, hsame, hleads⟩ := Peer.leads_start hturns
          rw [hoptions] at hsame hleads
          refine ⟨_, hleads, h.advance (hstep.moves h.conservedLeft) _ []
            (.speaking (hleft ▸ hd') hsame hp) ?_ (proper_offered t) rfl
            (h.unread hstep hnoread)⟩
          rw [hleft, hd'.sent, hreceived, hsilent.received, hsilent.sent]
          exact List.append_nil _
        · rw [if_neg hsecures] at hd'
          refine ⟨a, .refl a, h.quiet hstep hnoread (.silent (hleft ▸ hd') hoptions hturns) ?_⟩
          rw [hleft, hd'.sent, hsilent.sent]
    | speaking hspeaks hclasses hturns =>
        have hd' := hspeaks.step he hd
        refine ⟨a, .refl a, h.quiet hstep hnoread (.speaking (hleft ▸ hd') hclasses hturns) ?_⟩
        rw [hleft, hd'.sent, hreceived, hspeaks.sent]

/-! ### Runs -/

/-- A connection as constructed, with its options registered. -/
def Fresh (c : TelnetMudConnection) : Prop :=
  ∃ connId isTLS hasConnectCB ks, c = withOptions connId isTLS hasConnectCB ks

lemma Fresh.silent {c : TelnetMudConnection} (hc : Fresh c) :
    Silent c.options c ∧ c.handshakes = 0 ∧ Conserved c ∧ c.inbox = [] ∧ c.outbox = [] := by
  obtain ⟨connId, isTLS, hasConnectCB, ks, rfl⟩ := hc
  obtain ⟨hsilent, hhand, -⟩ := silent_withOptions connId isTLS hasConnectCB ks
  obtain ⟨hout, -⟩ := withOptions_output connId isTLS hasConnectCB ks
  refine ⟨hsilent, hhand, conserved_withOptions connId isTLS hasConnectCB ks, ?_, hout⟩
  obtain ⟨t, l, r, heq⟩ := withOptions_eq connId isTLS hasConnectCB ks
  rw [heq]
  rfl

/-- `start` puts nothing on the wire: that is for the event loop. -/
lemma wire_start (c : TelnetMudConnection) : c.start.wire = c.wire := by
  refine start_keeps (I := fun d => d.wire = c.wire) ?_ ?_ (fun _ _ hd => hd)
    (fun _ _ _ hd => hd) rfl
  · intro d hd
    rwa [send_eq]
  · intro d m o hd
    rwa [sendNegotiate, send_eq]

lemma wire_onConnect (c : TelnetMudConnection) : c.onConnect.wire = c.wire := by
  unfold onConnect
  split_ifs
  · rfl
  · exact wire_start c

lemma Shows.connect (h : Shows t u s a) (hsilent : Silent t s.left) (hhand : s.left.handshakes = 0)
    (hoptions : a.left.conn.options = t) (hturns : a.left.toStart = t.keys) :
    ∃ a', Leads (Duplex.Step Peer.dispatching) a a' ∧ a'.right = a.right ∧
      Shows t u { s with left := s.left.onConnect } a' := by
  have hmoves : Moves s { s with left := s.left.onConnect } :=
    ⟨[], by rw [wire_onConnect, List.append_nil],
      keepsAll_conserved.toKeepsStart.onConnect h.conservedLeft, rfl, (List.append_nil _).symm⟩
  have hinbox : s.left.onConnect.inbox = s.left.inbox :=
    (keepsApart_inbox _).toKeepsStart.onConnect rfl
  have hin : s.left.onConnect.inbox ++ s.toLeft ++ s.right.outbox = wireBytes a.toLeft := by
    rw [hinbox, h.toLeft]
  by_cases htls : s.left.isTLS = true
  · have hwaits : Silent t s.left.onConnect := by
      rw [onConnect, if_pos htls]
      exact ⟨hsilent.1, hsilent.2, hsilent.3, hsilent.4, hsilent.5, by rw [hhand]⟩
    refine ⟨a, .refl a, rfl, ?_⟩
    have hdone := h.advance hmoves (p := a.left) [] [] (.silent hwaits hoptions hturns) ?_
      (fun m hm => absurd hm List.not_mem_nil) rfl hin
    · simpa using hdone
    · rw [List.append_nil]
      exact hwaits.sent.trans hsilent.sent.symm
  · have hstart : Speaking t s.left.onConnect := by
      rw [onConnect, if_neg htls]
      exact hsilent.start hhand
    obtain ⟨p, hp, hsame, hleads⟩ := Peer.leads_start hturns
    rw [hoptions] at hsame hleads
    refine ⟨_, hleads, rfl, h.advance hmoves _ [] (.speaking hstart hsame hp) ?_
      (proper_offered t) rfl hin⟩
    have hreceived : s.left.onConnect.received = s.left.received :=
      (keepsApart_received _).toKeepsStart.onConnect rfl
    show s.left.onConnect.sent = _
    rw [hstart.sent, hreceived, hsilent.received, hsilent.sent]
    exact List.append_nil _

lemma shows_connected {b c : TelnetMudConnection} (hb : Fresh b) (hc : Fresh c) :
    ∃ a, Leads (Duplex.Step Peer.dispatching) (Peer.joined b c) a ∧
      Shows b.options c.options (connected b c) a := by
  obtain ⟨hbs, hbh, hbc, hbi, hbo⟩ := hb.silent
  obtain ⟨hcs, hch, hcc, hci, hco⟩ := hc.silent
  have hjoined : Shows b.options c.options ⟨b, c, [], []⟩ (Peer.joined b c) :=
    ⟨.silent hbs rfl rfl, .silent hcs rfl rfl, hbc, hcc, by simp [hci, hbo, Peer.joined, wireBytes],
      by simp [hbi, hco, Peer.joined, wireBytes], nofun, nofun,
      by simp [hbs.sent, hcs.sent, Peer.joined]⟩
  obtain ⟨a, hleads, hright, hshows⟩ := hjoined.connect hbs hbh rfl rfl
  obtain ⟨a', hleads', -, hshows'⟩ := hshows.swap.connect hcs hch
    (by rw [Duplex.State.swap, hright]; rfl) (by rw [Duplex.State.swap, hright]; rfl)
  exact ⟨a'.swap, hleads.trans (Duplex.leads_swap hleads'), hshows'.swap⟩

/-- **A step of either connection** is followed by its peer. -/
lemma Shows.step (h : Shows t u s a) {x : Duplex.End × Event} (hstep : Step s x s')
    (he : ∀ m o, x.2 ≠ .sendNegotiate m o) :
    ∃ a', Leads (Duplex.Step Peer.dispatching) a a' ∧ Shows t u s' a' := by
  obtain ⟨e, x⟩ := x
  cases e with
  | left => exact h.leftStep hstep he
  | right =>
      obtain ⟨a', hleads, hshows⟩ := h.swap.leftStep hstep he
      exact ⟨a'.swap, Duplex.leads_swap hleads, hshows.swap⟩

lemma keepsReading_wire (l : Bytes) : KeepsReading fun c => c.wire = l where
  record _ _ _ h := h
  cmdbuff _ _ h := h
  options _ _ h := h
  sendNegotiate c m o h := by rwa [sendNegotiate, send_eq]
  message _ _ h := h
  inbox _ _ h := h

lemma Shows.exists_read (h : Shows t u s a) (hreads : 0 < s.left.reads) {data way : Bytes}
    (hway : s.toLeft = data ++ way) : ∃ s', LeftStep s (.read data) s' := by
  have hpart : (s.left.inbox ++ data) ++ (way ++ s.right.outbox) = wireBytes a.toLeft := by
    rw [← h.toLeft, hway]
    simp only [List.append_assoc]
  obtain ⟨-, -, -, -, -, hno⟩ := cut_part_wireBytes h.properLeft hpart
  obtain ⟨hpos, e, hread, hd⟩ := step_read hreads hno
  have hwire : e.wire = s.left.wire :=
    (keepsReading_wire _).read (c := { s.left with reads := s.left.reads - 1 }) rfl hread
  exact ⟨⟨e.receive, s.right, s.toRight, way⟩, e.receive, [], ⟨hpos, e, hread, rfl⟩,
    by rw [List.append_nil]; exact hwire, hway, by rw [List.append_nil]⟩

lemma shows_run {b c : TelnetMudConnection} (hb : Fresh b) (hc : Fresh c)
    {tr : List ((Duplex.End × Event) × Link)} (h : Run Step (connected b c) tr)
    (hown : Undisturbed tr) :
    ∃ a, Leads (Duplex.Step Peer.dispatching) (Peer.joined b c) a ∧
      Shows b.options c.options (final (connected b c) tr) a := by
  obtain ⟨a, hleads, hshows⟩ := shows_connected hb hc
  have hrun := h.restrict_events (P := fun x => ∀ m o, x.2 ≠ .sendNegotiate m o)
    fun x hx m o heq => hown x.1 m o (by rw [← heq]; exact hx)
  obtain ⟨a', hleads', hshows'⟩ := hrun.refine (R := Shows b.options c.options)
    (fun _ _ _ _ hs hstep => hs.step hstep.1 hstep.2) hshows
  exact ⟨a', hleads.trans hleads', hshows'⟩

lemma step_left {d : TelnetMudConnection} (w way : Bytes)
    (hd : TelnetMudConnection.Step s.left e d) (hwire : d.wire = s.left.wire ++ w)
    (hway : s.toLeft = e.text ++ way) : Step s (.left, e) ⟨d, s.right, s.toRight ++ w, way⟩ :=
  ⟨d, w, hd, hwire, hway, rfl⟩

lemma step_right {d : TelnetMudConnection} (w way : Bytes)
    (hd : TelnetMudConnection.Step s.right e d) (hwire : d.wire = s.right.wire ++ w)
    (hway : s.toRight = e.text ++ way) : Step s (.right, e) ⟨s.left, d, way, s.toLeft ++ w⟩ :=
  ⟨d, w, hd, hwire, hway, rfl⟩

/-- A connection that offers an option, and one that knows none. -/
def offering : TelnetMudConnection := withOptions 0 false true [{ opCode := 1, startWill := true }]

def unknowing : TelnetMudConnection := withOptions 1 false true []

lemma fresh_offering : Fresh offering := ⟨_, _, _, _, rfl⟩

lemma fresh_unknowing : Fresh unknowing := ⟨_, _, _, _, rfl⟩

lemma exists_run_offer : ∃ tr : List ((Duplex.End × Event) × Link),
    Undisturbed tr ∧ Run Step (connected offering unknowing) tr ∧
      (final (connected offering unknowing) tr).right.outbox = [255, 254, 1] := by
  refine ⟨[((_, .written 0 false 3), ⟨_, _, _, _⟩), ((_, .read [255]), ⟨_, _, _, _⟩),
    ((_, .read [251, 1]), ⟨_, _, _, _⟩)], fun x m o h => by simp at h, .cons (step_left
    [255, 251, 1] [] ⟨[255, 251, 1], rfl, by decide, by decide, rfl⟩ rfl rfl)
    (.cons (step_right [] [251, 1] (step_read (by decide) (by decide)) rfl rfl)
      (.cons (step_right [] [] (step_read (by decide) (by decide)) rfl rfl)
        (.nil _))), ?_⟩
  decide

/-- **Refinement**: whatever two connections joined byte by byte do, however their writes and reads
cut the bytes, two peers that negotiate message by message can do as well, and the bytes are those
of their messages. -/
theorem run_refines {b c : TelnetMudConnection} (hb : Fresh b) (hc : Fresh c)
    (tr : List ((Duplex.End × Event) × Link)) (h : Run Step (connected b c) tr)
    (hown : Undisturbed tr) :
    ∃ a, Leads (Duplex.Step Peer.dispatching) (Peer.joined b c) a ∧
      (final (connected b c) tr).right.inbox ++ (final (connected b c) tr).toRight ++
        (final (connected b c) tr).left.outbox = wireBytes a.toRight ∧
      (final (connected b c) tr).left.inbox ++ (final (connected b c) tr).toLeft ++
        (final (connected b c) tr).right.outbox = wireBytes a.toLeft ∧
      (final (connected b c) tr).left.sent.length + (final (connected b c) tr).right.sent.length =
        a.sent := by
  obtain ⟨a, hleads, hshows⟩ := shows_run hb hc h hown
  exact ⟨a, hleads, hshows.toRight, hshows.toLeft, hshows.sent⟩

theorem offer_refines : ∃ tr a, Run Step (connected offering unknowing) tr ∧
    Leads (Duplex.Step Peer.dispatching) (Peer.joined offering unknowing) a ∧
    (final (connected offering unknowing) tr).left.inbox ++
      (final (connected offering unknowing) tr).toLeft ++ [255, 254, 1] = wireBytes a.toLeft := by
  obtain ⟨tr, hown, hrun, hout⟩ := exists_run_offer
  obtain ⟨a, hleads, -, hto, -⟩ := run_refines fresh_offering fresh_unknowing tr hrun hown
  exact ⟨tr, a, hrun, hleads, hout ▸ hto⟩

lemma sent_le_codes {b c : TelnetMudConnection} (hb : Fresh b) (hc : Fresh c)
    (hshared : Peer.NoSharedStart b.options c.options)
    {tr : List ((Duplex.End × Event) × Link)} (h : Run Step (connected b c) tr)
    (hown : Undisturbed tr) :
    (final (connected b c) tr).left.sent.length + (final (connected b c) tr).right.sent.length ≤
      4 * (Peer.codes b c).card := by
  obtain ⟨a, ⟨tr', hrun, rfl⟩, hshows⟩ := shows_run hb hc h hown
  rw [hshows.sent]
  exact (Peer.noLoop_of_noSharedOffer (Peer.noSharedStart_iff.mp hshared)).1 tr' hrun

/-- **Negotiation ends on the wire**: where no option that both have registered is started by
either, two connections never enqueue more than twelve bytes for an option code. -/
theorem enqueued_bounded {b c : TelnetMudConnection} (hb : Fresh b) (hc : Fresh c)
    (hshared : Peer.NoSharedStart b.options c.options)
    (tr : List ((Duplex.End × Event) × Link)) (h : Run Step (connected b c) tr)
    (hown : Undisturbed tr) :
    (final (connected b c) tr).left.enqueued.length +
      (final (connected b c) tr).right.enqueued.length ≤ 12 * (Peer.codes b c).card := by
  have hsent := sent_le_codes hb hc hshared h hown
  rw [length_enqueued, length_enqueued]
  omega

theorem offer_bounded : ∃ tr, Run Step (connected offering unknowing) tr ∧
    (final (connected offering unknowing) tr).left.enqueued.length +
      (final (connected offering unknowing) tr).right.enqueued.length ≤ 12 := by
  obtain ⟨tr, hown, hrun, -⟩ := exists_run_offer
  have hshared : Peer.NoSharedStart offering.options unknowing.options :=
    fun code op op' _ hop' => nomatch hop'
  exact ⟨tr, hrun, enqueued_bounded fresh_offering fresh_unknowing hshared tr hrun hown⟩

/-- **No read hangs**: in every run of two connections, any part of what is on its way to one of
them can be read as soon as it waits for a read. -/
theorem exists_read_of_run {b c : TelnetMudConnection} (hb : Fresh b) (hc : Fresh c)
    (tr : List ((Duplex.End × Event) × Link)) (h : Run Step (connected b c) tr)
    (hown : Undisturbed tr) (e : Duplex.End) (data way : Bytes)
    (hreads : 0 < ((final (connected b c) tr).view e).left.reads)
    (hway : ((final (connected b c) tr).view e).toLeft = data ++ way) :
    ∃ s', Step (final (connected b c) tr) (e, .read data) s' := by
  obtain ⟨a, -, hshows⟩ := shows_run hb hc h hown
  cases e with
  | left => exact hshows.exists_read hreads hway
  | right =>
      obtain ⟨s', hs'⟩ := hshows.swap.exists_read hreads hway
      exact ⟨s'.swap, hs'⟩

/-- The offer has been written, and its first byte can be read. -/
theorem exists_read_of_offer : ∃ s s' : Link, s.toRight = [255, 251, 1] ∧
    Step s (.right, .read [255]) s' := by
  have hrun : Run Step (connected offering unknowing)
      [((.left, .written 0 false 3), ⟨_, _, _, _⟩)] :=
    .cons (step_left [255, 251, 1] [] ⟨[255, 251, 1], rfl, by decide, by decide, rfl⟩ rfl rfl)
      (.nil _)
  obtain ⟨s', hread⟩ := exists_read_of_run fresh_offering fresh_unknowing _ hrun
    (fun x m o h => by simp at h) .right [255] [251, 1] (by decide) rfl
  exact ⟨_, s', rfl, hread⟩

end Link

end ForgeMush
