import ForgeMush.Commands
import ForgeMush.Readiness

/-!
The life of a connection.

A connection is securing its socket, reading or lost, and goes on to the next of these when its
TLS handshake or its read loop ends. Its timer is set once, when the read loop begins. Nothing a
peer sends takes part in this: the dispatcher never answers a handshake, so it is the timer that
makes a connection ready, and the callbacks come after that.
-/

namespace ForgeMush

open Runs

inductive Lifecycle.Phase | securing | reading | lost
  deriving DecidableEq

structure Lifecycle where
  phase : Lifecycle.Phase
  /-- The timer is set and has not fired. -/
  waiting : Bool
  ready : Bool
  deriving DecidableEq

namespace Lifecycle

def Step (a : Lifecycle) : TelnetMudConnection.Event → Lifecycle → Prop
  | .sendNegotiate _ _, b => b = a
  | .send, b => b = a
  -- nothing but an answer to a handshake does this, and there are none
  | .processHandshake _ _, _ => False
  | .written _ _ _, b => b = a
  | .read _, b => a.phase = .reading ∧ b = a
  | .readError, b => a.phase = .reading ∧ b = { a with phase := .lost }
  | .handshake failed, b => a.phase = .securing ∧
      b = if failed then { a with phase := .lost }
        else { a with phase := .reading, waiting := true }
  | .timer, b => a.waiting = true ∧ b = { a with waiting := false, ready := true }

/-- The timer is not set before the socket is secured, and has not fired while it is set. -/
structure Begun (a : Lifecycle) : Prop where
  securing : a.phase = .securing → a.waiting = false ∧ a.ready = false
  waiting : a.waiting = true → a.ready = false

def isTimer : TelnetMudConnection.Event → Bool
  | .timer => true
  | _ => false

/-- How often the timer will fire at most. -/
def timersLeft (a : Lifecycle) : ℕ := if a.phase = .securing ∨ a.waiting = true then 1 else 0

variable {a b : Lifecycle} {e : TelnetMudConnection.Event}

lemma Begun.step (h : a.Begun) (hstep : Step a e b) :
    b.Begun ∧ (b.ready = true ↔ a.ready = true ∨ isTimer e = true) ∧
      (if isTimer e then 1 else 0) + b.timersLeft ≤ a.timersLeft := by
  obtain ⟨phase, waiting, ready⟩ := a
  cases e with
  | sendNegotiate | send | written =>
      cases hstep
      exact ⟨h, by simp [isTimer], by simp [isTimer]⟩
  | processHandshake => cases hstep
  | read data =>
      obtain ⟨-, rfl⟩ := hstep
      exact ⟨h, by simp [isTimer], by simp [isTimer]⟩
  | readError =>
      obtain ⟨hphase, rfl⟩ := hstep
      refine ⟨⟨(nomatch ·), h.waiting⟩, by simp [isTimer], ?_⟩
      simp [isTimer, timersLeft, show phase = .reading from hphase]
  | handshake failed =>
      obtain ⟨hphase, rfl⟩ := hstep
      obtain ⟨hwaiting, hready⟩ := h.securing hphase
      dsimp only at hphase hwaiting hready
      subst hphase hwaiting hready
      cases failed
      · exact ⟨⟨(nomatch ·), fun _ => rfl⟩, by simp [isTimer], by simp [isTimer, timersLeft]⟩
      · exact ⟨⟨(nomatch ·), fun _ => rfl⟩, by simp [isTimer], by simp [isTimer, timersLeft]⟩
  | timer =>
      obtain ⟨hwaiting, rfl⟩ := hstep
      dsimp only at hwaiting
      subst hwaiting
      have hphase : phase ≠ .securing := fun hp => Bool.noConfusion (h.securing hp).1
      exact ⟨⟨fun hp => absurd hp hphase, (nomatch ·)⟩, by simp [isTimer],
        by simp [isTimer, timersLeft, hphase]⟩

/-- **The timer** fires at most once, and a connection is ready once it has. -/
theorem Begun.run {tr : List (TelnetMudConnection.Event × Lifecycle)} (h : a.Begun)
    (hrun : Run Step a tr) :
    ((final a tr).ready = true ↔ a.ready = true ∨ 0 < (events tr).countP isTimer) ∧
      (events tr).countP isTimer + (final a tr).timersLeft ≤ a.timersLeft := by
  induction hrun with
  | nil a => simp
  | @cons a b e tr hstep _ ih =>
      obtain ⟨hb, hready, hleft⟩ := h.step hstep
      obtain ⟨hready', hleft'⟩ := ih hb
      rw [events_cons, List.countP_cons, final_cons]
      dsimp only
      constructor
      · rw [hready', hready, or_assoc]
        refine or_congr_right ?_
        cases isTimer e
        · simp
        · simp
      · omega

end Lifecycle

namespace TelnetMudConnection

variable {c d : TelnetMudConnection}

/-- How far a connection has come. -/
def lifecycle (c : TelnetMudConnection) : Lifecycle where
  phase := if c.handshakes ≠ 0 then .securing else if c.reads ≠ 0 then .reading else .lost
  waiting := c.waits ≠ 0
  ready := c.started

/-- The operations outstanding, and whether the connection is lost or ready. -/
structure Operations (h r w : ℕ) (lost started : Bool) (c : TelnetMudConnection) : Prop where
  handshakes : c.handshakes = h
  reads : c.reads = r
  waits : c.waits = w
  lost : c.lost = lost
  started : c.started = started

variable {h r w : ℕ} {lost started : Bool}

lemma Operations.send (hc : c.Operations h r w lost started) :
    c.send.Operations h r w lost started := by
  rw [send_eq]
  exact ⟨hc.1, hc.2, hc.3, hc.4, hc.5⟩

lemma Operations.sendNegotiate (hc : c.Operations h r w lost started)
    (command option : TelnetCode) :
    (c.sendNegotiate command option).Operations h r w lost started :=
  Operations.send ⟨hc.1, hc.2, hc.3, hc.4, hc.5⟩

lemma keepsReading_operations (h r w : ℕ) (lost started : Bool) :
    KeepsReading (Operations h r w lost started) where
  record _ _ _ hc := ⟨hc.1, hc.2, hc.3, hc.4, hc.5⟩
  cmdbuff _ _ hc := ⟨hc.1, hc.2, hc.3, hc.4, hc.5⟩
  options _ _ hc := ⟨hc.1, hc.2, hc.3, hc.4, hc.5⟩
  sendNegotiate _ command option hc := hc.sendNegotiate command option
  message _ _ hc := ⟨hc.1, hc.2, hc.3, hc.4, hc.5⟩
  inbox _ _ hc := ⟨hc.1, hc.2, hc.3, hc.4, hc.5⟩

lemma Operations.start (hc : c.Operations h r w lost started) :
    c.start.Operations h (r + 1) (w + 1) lost started := by
  have hsend := hc.send
  have hbegun : c.send.receive.Operations h (r + 1) w lost started :=
    ⟨hsend.1, congrArg (· + 1) hsend.2, hsend.3, hsend.4, hsend.5⟩
  have hloop := foldl_onConnect_keeps (fun _ command option he => he.sendNegotiate command option)
    (fun _ _ he => ⟨he.1, he.2, he.3, he.4, he.5⟩) hbegun c.send.receive.options.keys
  exact ⟨hloop.1, hloop.2, congrArg (· + 1) hloop.3, hloop.4, hloop.5⟩

lemma Operations.finishReady (hc : c.Operations h r w lost started) :
    c.finishReady.Operations h r w lost true := by
  unfold TelnetMudConnection.finishReady onReady
  dsimp only
  split_ifs with hstarted
  · exact ⟨hc.1, hc.2, hc.3, hc.4, hstarted⟩
  · exact ⟨hc.1, hc.2, hc.3, hc.4, rfl⟩
  · exact ⟨hc.1, hc.2, hc.3, hc.4, rfl⟩

lemma Operations.sendHandler (hc : c.Operations h r w lost started) (len : ℕ) :
    (c.sendHandler len).Operations h r w lost started := by
  have hdrop : Operations h r w lost started { c with outbox := c.outbox.drop len } :=
    ⟨hc.1, hc.2, hc.3, hc.4, hc.5⟩
  unfold TelnetMudConnection.sendHandler
  dsimp only
  split_ifs
  · exact hdrop.send
  · exact ⟨hc.1, hc.2, hc.3, hc.4, hc.5⟩

/-- Exactly one of three is true: the TLS handshake is outstanding, a read is, or the connection
is lost. The timer is outstanding from the moment the socket is secured until it fires, so never
where the handshake has failed. A write may be outstanding in each of the three. -/
structure Alive (c : TelnetMudConnection) : Prop where
  one : c.handshakes + c.reads + c.lost.toNat = 1
  timer : c.waits + c.started.toNat ≤ 1
  securing : 0 < c.handshakes → c.waits = 0 ∧ c.started = false
  reading : 0 < c.reads → c.waits + c.started.toNat = 1

lemma Operations.lifecycle (hc : c.Operations h r w lost started) :
    c.lifecycle = ⟨if h ≠ 0 then .securing else if r ≠ 0 then .reading else .lost, w ≠ 0,
      started⟩ := by
  rw [TelnetMudConnection.lifecycle, hc.1, hc.2, hc.3, hc.5]

lemma Operations.alive (hc : c.Operations h r w lost started) (hone : h + r + lost.toNat = 1)
    (htimer : w + started.toNat ≤ 1) (hsecuring : 0 < h → w = 0 ∧ started = false)
    (hreading : 0 < r → w + started.toNat = 1) : c.Alive := by
  obtain ⟨rfl, rfl, rfl, rfl, rfl⟩ := hc
  exact ⟨hone, htimer, hsecuring, hreading⟩

lemma Alive.of_operations (hc : c.Alive)
    (hd : d.Operations c.handshakes c.reads c.waits c.lost c.started) :
    d.Alive ∧ d.lifecycle = c.lifecycle :=
  ⟨hd.alive hc.one hc.timer hc.securing hc.reading, hd.lifecycle⟩

lemma phase_securing (hc : 0 < c.handshakes) : c.lifecycle.phase = .securing :=
  if_pos hc.ne'

lemma phase_reading (hc : c.Alive) (hr : 0 < c.reads) : c.lifecycle.phase = .reading := by
  have hone := hc.one
  have hnone : c.handshakes = 0 := by omega
  rw [lifecycle]
  dsimp only
  rw [if_neg (not_not.mpr hnone), if_pos hr.ne']

lemma Alive.begun (hc : c.Alive) : c.lifecycle.Begun where
  securing hp := by
    have hhand : 0 < c.handshakes := by
      by_contra hnone
      rw [lifecycle] at hp
      dsimp only at hp
      rw [if_neg (by omega)] at hp
      split_ifs at hp
    obtain ⟨hw, hs⟩ := hc.securing hhand
    exact ⟨by simp [lifecycle, hw], hs⟩
  waiting hw := by
    have hwaits : c.waits ≠ 0 := of_decide_eq_true hw
    have htimer := hc.timer
    show c.started = false
    cases hs : c.started
    · rfl
    · rw [hs, Bool.toNat_true] at htimer
      omega

lemma Alive.handshake (hc : c.Alive) (failed : Bool) (hpos : 0 < c.handshakes) :
    let d := if failed then { c with handshakes := c.handshakes - 1, lost := true }
      else onSecureConnect { c with handshakes := c.handshakes - 1 }
    d.Alive ∧ d.lifecycle = if failed then { c.lifecycle with phase := .lost }
      else { c.lifecycle with phase := .reading, waiting := true } := by
  have hone := hc.one
  obtain ⟨hwaits, hstarted⟩ := hc.securing hpos
  have hhand : c.handshakes = 1 := by omega
  have hnone : c.reads = 0 := by omega
  cases failed with
  | true =>
      rw [if_pos rfl, if_pos rfl]
      refine ⟨⟨by simp [hhand, hnone], hc.timer, by simp [hhand], by simp [hnone]⟩, ?_⟩
      simp [lifecycle, hhand, hnone]
  | false =>
      have hkept : c.lost = false := by
        cases hl : c.lost
        · rfl
        · rw [hl, Bool.toNat_true] at hone
          omega
      have hin : Operations 0 0 0 false false { c with handshakes := c.handshakes - 1 } :=
        ⟨by simp [hhand], hnone, hwaits, hkept, hstarted⟩
      rw [if_neg Bool.false_ne_true, if_neg Bool.false_ne_true, onSecureConnect]
      refine ⟨hin.start.alive rfl (by decide) (fun h => nomatch h) (fun _ => rfl), ?_⟩
      rw [hin.start.lifecycle]
      simp [TelnetMudConnection.lifecycle, hstarted]

/-- The timer fires while the connection reads, or after it is lost. -/
lemma Alive.timed (hc : c.Alive) (hpos : 0 < c.waits) :
    let d := finishReady { c with waits := c.waits - 1 }
    d.Alive ∧ d.lifecycle = { c.lifecycle with waiting := false, ready := true } := by
  have htimer := hc.timer
  have hhand : c.handshakes = 0 := by
    by_contra hne
    have := (hc.securing (Nat.pos_of_ne_zero hne)).1
    omega
  have hwaits : c.waits = 1 := by omega
  have hin : Operations 0 c.reads 0 c.lost c.started { c with waits := c.waits - 1 } :=
    ⟨hhand, rfl, by simp [hwaits], rfl, rfl⟩
  refine ⟨hin.finishReady.alive (hhand ▸ hc.one) (by decide)
    (fun h => absurd h (Nat.lt_irrefl 0)) (fun _ => rfl), ?_⟩
  rw [hin.finishReady.lifecycle]
  simp [TelnetMudConnection.lifecycle, hhand]

/-- **A step of a connection** is a step of its life. -/
lemma Alive.step (hc : c.Alive) {e : Event} (he : ∀ side code, e ≠ .processHandshake side code)
    (hstep : Step c e d) : d.Alive ∧ Lifecycle.Step c.lifecycle e d.lifecycle := by
  have hown : c.Operations c.handshakes c.reads c.waits c.lost c.started :=
    ⟨rfl, rfl, rfl, rfl, rfl⟩
  have hone := hc.one
  cases e with
  | sendNegotiate command option =>
      exact hstep ▸ hc.of_operations (hown.sendNegotiate command option)
  | send => exact hstep ▸ hc.of_operations hown.send
  | processHandshake side code => exact absurd rfl (he side code)
  | written i failed len =>
      obtain ⟨buffer, -, -, -, rfl⟩ := hstep
      have hin : Operations c.handshakes c.reads c.waits c.lost c.started
          { c with writes := c.writes.eraseIdx i, wire := c.wire ++ buffer.take len } :=
        ⟨rfl, rfl, rfl, rfl, rfl⟩
      exact hc.of_operations (hin.sendHandler len)
  | read data =>
      obtain ⟨hpos, e, hread, rfl⟩ := hstep
      have hin : Operations c.handshakes (c.reads - 1) c.waits c.lost c.started
          { c with reads := c.reads - 1 } := ⟨rfl, rfl, rfl, rfl, rfl⟩
      have hout := (keepsReading_operations _ _ _ _ _).read hin hread
      have hreads : e.receive.reads = c.reads := by
        rw [receive, hout.reads]
        exact Nat.sub_add_cancel hpos
      obtain ⟨halive, hsame⟩ := hc.of_operations (d := e.receive)
        ⟨hout.1, hreads, hout.3, hout.4, hout.5⟩
      exact ⟨halive, phase_reading hc hpos, hsame⟩
  | readError =>
      obtain ⟨hpos, rfl⟩ := hstep
      have hnone : c.handshakes = 0 := by omega
      have hread : c.reads = 1 := by omega
      refine ⟨⟨by simp [hnone, hread], hc.timer, by simp [hnone], by simp [hread]⟩,
        phase_reading hc hpos, ?_⟩
      simp [lifecycle, hnone, hread]
  | handshake failed =>
      obtain ⟨hpos, rfl⟩ := hstep
      obtain ⟨halive, hlife⟩ := hc.handshake failed hpos
      exact ⟨halive, phase_securing hpos, hlife⟩
  | timer =>
      obtain ⟨hpos, rfl⟩ := hstep
      obtain ⟨halive, hlife⟩ := hc.timed hpos
      exact ⟨halive, decide_eq_true hpos.ne', hlife⟩

lemma alive_onConnect (connId : UInt32) (isTLS hasConnectCB : Bool) (ks : List OptionClass) :
    (withOptions connId isTLS hasConnectCB ks).onConnect.Alive := by
  obtain ⟨t, l, r, heq⟩ := withOptions_eq connId isTLS hasConnectCB ks
  have hin : (withOptions connId isTLS hasConnectCB ks).Operations 0 0 0 false false := by
    rw [heq]
    exact ⟨rfl, rfl, rfl, rfl, rfl⟩
  unfold onConnect onPlainConnect
  split_ifs
  · exact ⟨by simp [hin.1, hin.2, hin.4], by simp [hin.3, hin.5], fun _ => ⟨hin.3, hin.5⟩,
      by simp [hin.2]⟩
  · exact hin.start.alive rfl (by decide) (fun h => nomatch h) (fun _ => rfl)

/-- **The life of a connection**: it is securing its socket, reading or lost, in every state of
a run in which no handshake is answered from elsewhere; the run is one of its life; and it is
ready exactly if its timer has fired, which it does once at most. -/
theorem lives (connId : UInt32) (isTLS hasConnectCB : Bool) (ks : List OptionClass)
    (tr : List (Event × TelnetMudConnection))
    (h : Run Step (withOptions connId isTLS hasConnectCB ks).onConnect tr)
    (hnone : ∀ side code, .processHandshake side code ∉ events tr) :
    Always Alive (withOptions connId isTLS hasConnectCB ks).onConnect tr ∧
    Run Lifecycle.Step (withOptions connId isTLS hasConnectCB ks).onConnect.lifecycle
      (tr.map fun x => (x.1, x.2.lifecycle)) ∧
    ((final (withOptions connId isTLS hasConnectCB ks).onConnect tr).started = true ↔
      0 < (events tr).countP Lifecycle.isTimer) ∧
    (events tr).countP Lifecycle.isTimer ≤ 1 := by
  have hinit := alive_onConnect connId isTLS hasConnectCB ks
  have hstarted : (withOptions connId isTLS hasConnectCB ks).onConnect.started = false := by
    obtain ⟨-, hs, -⟩ := readiness_withOptions connId isTLS hasConnectCB ks
    exact (keepsStart_started false).onConnect hs
  have hrun := h.restrict_events (P := fun e => ∀ side code, e ≠ .processHandshake side code)
    fun e he side code heq => hnone side code (heq ▸ he)
  have hlife := hrun.abstract (fun _ _ _ hc hstep => hc.step hstep.2 hstep.1) hinit
  obtain ⟨hready, htimers⟩ := hinit.begun.run hlife
  rw [events_abstract, final_abstract] at hready
  rw [events_abstract] at htimers
  refine ⟨hrun.always (fun _ _ _ hc hstep => (hc.step hstep.2 hstep.1).1) hinit, hlife, ?_, ?_⟩
  · refine hready.trans (or_iff_right fun hs => ?_)
    exact Bool.noConfusion (hstarted.symm.trans hs)
  · have hle : Lifecycle.timersLeft (lifecycle
        (withOptions connId isTLS hasConnectCB ks).onConnect) ≤ 1 := by
      unfold Lifecycle.timersLeft
      split_ifs <;> decide
    omega

/-- A connection over TLS that is secured, becomes ready and is lost. -/
theorem secured_connection_lives : ∃ tr : List (Event × TelnetMudConnection),
    events tr = [.handshake false, .timer, .readError] ∧
      Run Step (withOptions 0 true true []).onConnect tr ∧
      Always Alive (withOptions 0 true true []).onConnect tr ∧
      (final (withOptions 0 true true []).onConnect tr).started = true := by
  have hrun : Run Step (withOptions 0 true true []).onConnect
      [(.handshake false, _), (.timer, _), (.readError, _)] :=
    .cons ⟨by decide, rfl⟩ (.cons ⟨by decide, rfl⟩ (.cons ⟨by decide, rfl⟩ (.nil _)))
  have hlives := lives 0 true true [] _ hrun fun side code h => by simp [events] at h
  exact ⟨_, rfl, hrun, hlives.1, hlives.2.2.1.mpr (by decide)⟩

end TelnetMudConnection

end ForgeMush
