import Mathlib.Algebra.GroupWithZero.Nat
import ForgeMush.Output
import ForgeMush.Session

/-!
A peer cannot make a connection send more than the peer itself sends.

A negotiation takes three bytes of the input and gets at most three in reply, and nothing else
that is received gets any. On top of that come the offers, made once, and the negotiations that
the rest of the program sends.
-/

namespace ForgeMush

open Runs TelnetStream

namespace TelnetMudConnection

variable {c d : TelnetMudConnection} {tr : List (Event × TelnetMudConnection)}

/-! ### Bytes in and out -/

lemma length_repliesTo_le (t : OptionTable) (ms : List Negotiation) :
    (repliesTo t ms).length ≤ ms.length := by
  have hone : ∀ m : Negotiation, (reply t m.1 m.2).length ≤ 1 := by
    intro m
    unfold reply
    split_ifs
    · cases t.find? m.2 <;> exact le_rfl
    · cases t.find? m.2 <;> exact le_rfl
    · exact Nat.zero_le 1
  induction ms with
  | nil => exact le_rfl
  | cons m ms ih =>
      have hcons : repliesTo t (m :: ms) = reply t m.1 m.2 ++ repliesTo t ms := List.flatMap_cons
      have := hone m
      rw [hcons, List.length_append, List.length_cons]
      omega

lemma negotiations_codeReading (ts : List Token) (r : Bytes) :
    3 * (negotiations (codeReading ts r).1).length + (codeReading ts r).2.length ≤
      (ts.flatMap Token.bytes).length + r.length := by
  induction ts with
  | nil => simp [codeReading, negotiations]
  | cons t ts ih =>
      have hnone : ∀ data, negotiations [.appData data] = [] := fun _ => rfl
      cases t with
      | data b hb =>
          rw [codeReading, hnone]
          simp
      | escapedIAC | command code =>
          simp only [codeReading, Token.message, negotiations, List.filterMap_cons,
            List.flatMap_cons, List.length_append, Token.bytes, List.length_cons] at ih ⊢
          omega
      | negotiation command option =>
          simp only [codeReading, Token.message, negotiations, List.filterMap_cons,
            List.flatMap_cons, List.length_append, Token.bytes, List.length_cons] at ih ⊢
          omega

lemma negotiations_cut (w : Bytes) :
    3 * (negotiations (cut w).1).length + (cut w).2.length ≤ w.length := by
  have hbytes := congrArg List.length (bytes_reading w)
  rw [List.length_append] at hbytes
  have hle := negotiations_codeReading (tokens w) (rest w)
  rw [cut]
  omega

lemma length_enqueued (c : TelnetMudConnection) : c.enqueued.length = 3 * c.sent.length := by
  unfold enqueued sent
  induction c.calls with
  | nil => rfl
  | cons k ks ih =>
      rw [List.flatMap_cons, List.length_append, ih]
      cases k with
      | sendNegotiate command option =>
          simp only [List.filterMap_cons, Call.negotiation?, List.length_cons, List.length_nil]
          omega
      | _ => exact Nat.zero_add _

/-! ### One event -/

/-- The bytes that an event may add to the output. -/
def Event.cost : Event → ℕ
  | .sendNegotiate _ _ => 3
  | .read data => data.length
  | _ => 0

/-- A connection with the options `t` has enqueued at most `m` bytes, counting those that may
still come of what waits in `inbox` and of the offers, if these have not been made. -/
structure Frugal (t : OptionTable) (m : ℕ) (c : TelnetMudConnection) : Prop where
  classes : SameClasses t c.options
  noLine : c.NoLine
  handshakes : c.handshakes ≤ 1
  bound : 3 * c.sent.length + c.inbox.length + 3 * (offered t).length * c.handshakes ≤ m

variable {t : OptionTable} {m : ℕ}

lemma Frugal.of_sameTalk (h : Frugal t m c) (hsame : SameTalk c d) (hinbox : d.inbox = c.inbox) :
    Frugal t m d := by
  refine ⟨hsame.options ▸ h.classes, ?_, hsame.handshakes.trans_le h.handshakes, ?_⟩
  · rw [NoLine, hsame.cmdbuff]
    exact h.noLine
  · rw [hsame.sent, hinbox, hsame.handshakes]
    exact h.bound

lemma Frugal.start (h : Frugal t m c) (hpos : 0 < c.handshakes) :
    Frugal t m (start { c with handshakes := c.handshakes - 1 }) := by
  set e : TelnetMudConnection := { c with handshakes := c.handshakes - 1 }
  have hone : c.handshakes = 1 := le_antisymm h.handshakes hpos
  obtain ⟨-, hbuff, hinbox, hhand⟩ := e.start_frame
  have hnone : e.start.handshakes = 0 := hhand.trans (by simp [e, hone])
  have hsent : e.start.sent.length = c.sent.length + (offered t).length := by
    rw [(start_spec e).2.1, List.length_append]
    exact congrArg _ (offered_perm h.classes).length_eq
  have hbound := h.bound
  refine ⟨h.classes.trans e.sameClasses_start, ?_, hnone.trans_le (Nat.zero_le 1), ?_⟩
  · rw [NoLine, hbuff]
    exact h.noLine
  · rw [hsent, hinbox, hnone]
    rw [hone] at hbound
    show 3 * (c.sent.length + _) + c.inbox.length + _ ≤ m
    omega

lemma Frugal.read (h : Frugal t m c) {data : Bytes} (hread : Read c data d) :
    Frugal t (m + data.length) d := by
  obtain ⟨hms, hinbox⟩ := hread.handles h.noLine
  have hcut := negotiations_cut (c.inbox ++ data)
  have hreplies := length_repliesTo_le c.options (negotiations (cut (c.inbox ++ data)).1)
  have hhand := ((keepsReading_operations c.handshakes c.reads c.waits c.lost c.started).read
    ⟨rfl, rfl, rfl, rfl, rfl⟩ hread).handshakes
  have hbound := h.bound
  refine ⟨h.classes.trans hms.classes, hms.noLine, hhand.trans_le h.handshakes, ?_⟩
  rw [hms.sent, hinbox, hhand, List.length_append]
  rw [List.length_append] at hcut
  omega

lemma Frugal.step (h : Frugal t m c) {e : Event} (hstep : Step c e d) :
    Frugal t (m + e.cost) d := by
  have hquiet : e.isQuiet = true → Frugal t m d := fun he =>
    h.of_sameTalk (sameTalk_step he hstep)
      ((keepsApart_inbox c.inbox).step (fun data heq => by rw [heq] at he; cases he) rfl hstep)
  cases e with
  | sendNegotiate command option =>
      obtain rfl := hstep
      have hbound := h.bound
      have hsent := sent_sendNegotiate c command option
      have hsame := sameCourse_sendNegotiate c command option
      have hinbox := (keeps_inbox c.inbox).sendNegotiate c command option rfl
      have hhand : (c.sendNegotiate command option).handshakes = c.handshakes :=
        (Operations.sendNegotiate ⟨rfl, rfl, rfl, rfl, rfl⟩ command option).handshakes
      refine ⟨?_, ?_, hhand.trans_le h.handshakes, ?_⟩
      · rw [options_sendNegotiate]
        exact h.classes
      · rw [NoLine, hsame.cmdbuff]
        exact h.noLine
      · rw [hsent, hinbox, hhand, List.length_append, Event.cost]
        simp only [List.length_cons, List.length_nil]
        omega
  | read data =>
      obtain ⟨-, e, hread, rfl⟩ := hstep
      have hin : Frugal t m { c with reads := c.reads - 1 } := ⟨h.1, h.2, h.3, h.4⟩
      have hout := hin.read hread
      exact ⟨hout.1, hout.2, hout.3, hout.4⟩
  | readError =>
      obtain ⟨-, rfl⟩ := hstep
      exact ⟨h.1, h.2, h.3, h.4⟩
  | handshake failed =>
      obtain ⟨hpos, rfl⟩ := hstep
      cases failed with
      | true =>
          have hle : c.handshakes - 1 ≤ c.handshakes := Nat.sub_le _ _
          refine ⟨h.1, h.2, hle.trans h.handshakes, le_trans ?_ h.bound⟩
          exact Nat.add_le_add_left (Nat.mul_le_mul_left _ hle) _
      | false => exact h.start hpos
  | _ => exact hquiet rfl

lemma Frugal.run (h : Frugal t m c) (hrun : Run Step c tr) :
    Frugal t (m + ((events tr).map Event.cost).sum) (final c tr) := by
  induction hrun generalizing m with
  | nil c => exact h
  | @cons c d e tr hstep _ ih =>
      have hd := ih (h.step hstep)
      rw [events_cons, List.map_cons, List.sum_cons, final_cons, ← Nat.add_assoc]
      exact hd

/-- The event is a call of `sendNegotiate` from elsewhere in the program. -/
def Event.isOwn : Event → Bool
  | .sendNegotiate _ _ => true
  | _ => false

lemma sum_cost (tr : List (Event × TelnetMudConnection)) :
    ((events tr).map Event.cost).sum = 3 * (events tr).countP Event.isOwn + (text tr).length := by
  induction tr with
  | nil => rfl
  | cons x tr ih =>
      obtain ⟨e, d⟩ := x
      have htext : text ((e, d) :: tr) = e.text ++ text tr := List.flatMap_cons
      rw [events_cons, List.map_cons, List.sum_cons, ih, htext, List.countP_cons,
        List.length_append]
      cases e with
      | sendNegotiate command option =>
          simp only [Event.cost, Event.isOwn, Event.text, if_true, List.length_nil]
          omega
      | read data =>
          simp only [Event.cost, Event.isOwn, Event.text, Bool.false_eq_true, if_false]
          omega
      | _ => simp [Event.cost, Event.isOwn, Event.text]

lemma frugal_onConnect (connId : UInt32) (isTLS hasConnectCB : Bool) (ks : List OptionClass) :
    Frugal (withOptions connId isTLS hasConnectCB ks).options
      (3 * (offered (withOptions connId isTLS hasConnectCB ks).options).length)
      (withOptions connId isTLS hasConnectCB ks).onConnect := by
  obtain ⟨t, l, r, heq⟩ := withOptions_eq connId isTLS hasConnectCB ks
  rw [heq, onConnect, onPlainConnect]
  set c : TelnetMudConnection :=
    { new connId isTLS hasConnectCB with options := t, hsLocal := l, hsRemote := r }
  -- before the offers, with a handshake or without
  have hbefore : Frugal t (3 * (offered t).length) { c with handshakes := 1 } :=
    ⟨fun _ => rfl, by simp [NoLine, c, new], le_rfl, by simp [c, sent, new]⟩
  split_ifs
  · exact ⟨hbefore.1, hbefore.2, hbefore.3, hbefore.4⟩
  · exact hbefore.start Nat.one_pos

/-- **No amplification**: in every run, what a connection has enqueued is no more than its offers,
what the rest of the program has it send, and as many bytes as it has read. -/
theorem no_amplification (connId : UInt32) (isTLS hasConnectCB : Bool) (ks : List OptionClass)
    (tr : List (Event × TelnetMudConnection))
    (h : Run Step (withOptions connId isTLS hasConnectCB ks).onConnect tr) :
    (final (withOptions connId isTLS hasConnectCB ks).onConnect tr).enqueued.length ≤
      3 * (offered (withOptions connId isTLS hasConnectCB ks).options).length +
        3 * (events tr).countP Event.isOwn + (text tr).length := by
  have hbound := ((frugal_onConnect connId isTLS hasConnectCB ks).run h).bound
  rw [sum_cost] at hbound
  rw [length_enqueued]
  omega

/-- A request for an option that is not there costs the peer what it gets. -/
theorem request_not_amplified : ∃ tr : List (Event × TelnetMudConnection),
    events tr = [.read [255, 251, 1]] ∧ Run Step (withOptions 0 false true []).onConnect tr ∧
      (final (withOptions 0 false true []).onConnect tr).enqueued = [255, 254, 1] ∧
      (final (withOptions 0 false true []).onConnect tr).enqueued.length ≤ 3 := by
  have hrun : Run Step (withOptions 0 false true []).onConnect [(.read [255, 251, 1], _)] :=
    .cons (step_read (by decide) (by decide)) (.nil _)
  exact ⟨_, rfl, hrun, by decide, no_amplification 0 false true [] _ hrun⟩

end TelnetMudConnection

end ForgeMush
