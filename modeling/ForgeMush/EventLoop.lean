import ForgeMush.Receive
import ForgeMush.Runs

/-!
A connection in the event loop.

Between two events no method of the connection is running. An event is the completion of an
outstanding operation, whose handler then runs to its end, or a call from elsewhere in the
program.
-/

namespace ForgeMush

namespace TelnetMudConnection

inductive Event
  | sendNegotiate (command option : TelnetCode)
  | send
  | processHandshake (side : Side) (code : TelnetCode)
  /-- The `i`-th of the outstanding writes completes, having written `len` bytes. -/
  | written (i : ℕ) (failed : Bool) (len : ℕ)
  | read (data : Bytes)
  | readError
  | handshake (failed : Bool)
  | timer

/-- What can happen in the state `c`, and the state it leaves. -/
def Step (c : TelnetMudConnection) : Event → TelnetMudConnection → Prop
  | .sendNegotiate command option, d => d = c.sendNegotiate command option
  | .send, d => d = c.send
  | .processHandshake side code, d => d = c.processHandshake side code
  | .written i failed len, d => ∃ buffer, c.writes[i]? = some buffer ∧ len ≤ buffer.length ∧
      (failed = false → 0 < len) ∧
      d = sendHandler { c with
        writes := c.writes.eraseIdx i, wire := c.wire ++ buffer.take len } len
  | .read data, d => 0 < c.reads ∧
      ∃ e, Read { c with reads := c.reads - 1 } data e ∧ d = e.receive
  | .readError, d => 0 < c.reads ∧ d = { c with reads := c.reads - 1, lost := true }
  | .handshake failed, d => 0 < c.handshakes ∧
      d = if failed then { c with handshakes := c.handshakes - 1, lost := true }
        else onSecureConnect { c with handshakes := c.handshakes - 1 }
  -- the timer does not look at the error code
  | .timer, d => 0 < c.waits ∧ d = finishReady { c with waits := c.waits - 1 }

variable {I : TelnetMudConnection → Prop} {c d : TelnetMudConnection}

lemma foldl_onConnect_keeps
    (hnegotiate : ∀ c command option, I c → I (c.sendNegotiate command option))
    (hoptions : ∀ (c : TelnetMudConnection) (t : OptionTable), I c → I { c with options := t })
    (hc : I c) (codes : List TelnetCode) :
    I (codes.foldl (fun c k => c.onOption k TelnetOption.onConnect) c) := by
  have hoption : ∀ e, I e → ∀ k, I (e.onOption k TelnetOption.onConnect) := by
    intro e he k
    unfold onOption
    split
    · exact he
    · rw [TelnetOption.onConnect_calls, List.foldl_map]
      exact List.foldlRecOn _ _ (hoptions _ _ he) fun e he m _ => hnegotiate e m.1 m.2 he
  exact List.foldlRecOn _ _ hc fun e he k _ => hoption e he k

/-- **The start rule**: `start` keeps what output keeps and what does not depend on the options,
the reads and the timer. -/
lemma start_keeps (hsend : ∀ c, I c → I c.send)
    (hnegotiate : ∀ c command option, I c → I (c.sendNegotiate command option))
    (hoptions : ∀ (c : TelnetMudConnection) (t : OptionTable), I c → I { c with options := t })
    (hoperations : ∀ (c : TelnetMudConnection) (r w : ℕ), I c → I { c with reads := r, waits := w })
    (hc : I c) : I c.start := by
  have hbegun : I c.send.receive := hoperations _ _ _ (hsend _ hc)
  exact hoperations _ _ _ (foldl_onConnect_keeps hnegotiate hoptions hbegun _)

/-- `I` is kept by output, and does not depend on the options and the operations. -/
structure KeepsStart (I : TelnetMudConnection → Prop) : Prop where
  send : ∀ c, I c → I c.send
  sendNegotiate : ∀ c command option, I c → I (c.sendNegotiate command option)
  options : ∀ (c : TelnetMudConnection) (t : OptionTable), I c → I { c with options := t }
  operations : ∀ (c : TelnetMudConnection) (sock : Socket) (h r w : ℕ), I c →
    I { c with conn := sock, handshakes := h, reads := r, waits := w }

lemma KeepsStart.start (h : KeepsStart I) (hc : I c) : I c.start :=
  start_keeps h.send h.sendNegotiate h.options (fun _ _ _ he => h.operations _ _ _ _ _ he) hc

lemma KeepsStart.onConnect (h : KeepsStart I) (hc : I c) : I c.onConnect := by
  unfold TelnetMudConnection.onConnect
  split_ifs
  · exact h.operations _ _ _ _ _ hc
  · exact h.start hc

/-- `I` is kept when the connection becomes ready, and does not depend on the handshakes
before that. -/
structure KeepsReady (I : TelnetMudConnection → Prop) : Prop where
  handshake : ∀ c side code, I c → I (c.record (.processHandshake side code))
  holders : ∀ (c : TelnetMudConnection) (l r : Finset TelnetCode), I c →
    I { c with hsLocal := l, hsRemote := r }
  finishReady : ∀ c, I c → I c.finishReady

lemma KeepsReady.processHandshake (h : KeepsReady I) (hc : I c) (side : Side)
    (code : TelnetCode) : I (c.processHandshake side code) := by
  have hset : I ((c.record (.processHandshake side code)).setHolder
      ((c.holder side).erase code) side) := by
    cases side <;> exact h.holders _ _ _ (h.handshake _ _ _ hc)
  have hcheck : ∀ e : TelnetMudConnection, I e → I e.checkReady := by
    intro e he
    unfold checkReady
    split_ifs <;> first | exact he | exact h.finishReady _ he
  unfold TelnetMudConnection.processHandshake
  dsimp only
  split_ifs
  · exact hcheck _ hset
  · exact hset

lemma keeps_finishReady (hrecord : ∀ c k, k.isNote = true → I c → I (c.record k))
    (hready : ∀ (c : TelnetMudConnection) (s cb : Bool), I c →
      I { c with started := s, onCommandCB := cb }) (c : TelnetMudConnection) (hc : I c) :
    I c.finishReady := by
  unfold finishReady onReady
  dsimp only
  split_ifs
  · exact hc
  · exact hready _ _ true (hrecord _ _ rfl (hrecord _ _ rfl (hready _ true _ hc)))
  · exact hrecord _ _ rfl (hready _ true _ hc)

/-- Neither a completed write nor an error. -/
def Event.isRegular : Event → Bool
  | .written _ _ _ => false
  | .readError => false
  | .handshake failed => !failed
  | _ => true

/-- `I` is kept by all that a connection does while nothing fails, but for completed writes. -/
structure KeepsRegular (I : TelnetMudConnection → Prop) : Prop extends KeepsReading I,
  KeepsStart I, KeepsReady I

/-- **Regular events** keep what reading, starting and becoming ready keep. -/
theorem KeepsRegular.step (h : KeepsRegular I) {e : Event} (he : e.isRegular = true) (hc : I c)
    (hstep : Step c e d) : I d := by
  cases e with
  | sendNegotiate command option => exact hstep ▸ h.sendNegotiate _ _ _ hc
  | send => exact hstep ▸ h.send _ hc
  | processHandshake side code => exact hstep ▸ h.toKeepsReady.processHandshake hc side code
  | written i failed len => cases he
  | read data =>
      obtain ⟨-, e, hread, rfl⟩ := hstep
      exact h.operations _ _ _ _ _ (h.toKeepsReading.read (h.operations _ _ _ _ _ hc) hread)
  | readError => cases he
  | handshake failed =>
      obtain ⟨-, rfl⟩ := hstep
      cases failed with
      | true => cases he
      | false => exact h.toKeepsStart.start (h.operations _ _ _ _ _ hc)
  | timer =>
      obtain ⟨-, rfl⟩ := hstep
      exact h.finishReady _ (h.operations _ _ _ _ _ hc)

/-- `I` is kept by errors too. -/
structure KeepsAll (I : TelnetMudConnection → Prop) : Prop extends KeepsRegular I where
  lose : ∀ c, I c → I { c with lost := true }

/-- **Every event but a completed write.** -/
theorem KeepsAll.step (h : KeepsAll I) {e : Event} (he : ∀ i failed len, e ≠ .written i failed len)
    (hc : I c) (hstep : Step c e d) : I d := by
  have hlose : ∀ h' r : ℕ, I { c with handshakes := h', reads := r, lost := true } :=
    fun h' r => h.lose _ (h.operations _ c.conn h' r c.waits hc)
  cases e with
  | written i failed len => exact absurd rfl (he i failed len)
  | readError =>
      obtain ⟨-, rfl⟩ := hstep
      exact hlose _ _
  | handshake failed =>
      cases failed with
      | true =>
          obtain ⟨-, rfl⟩ := hstep
          exact hlose _ _
      | false => exact h.toKeepsRegular.step rfl hc hstep
  | _ => exact h.toKeepsRegular.step rfl hc hstep

/-! ### Readiness -/

lemma finishReady_spec (c : TelnetMudConnection) :
    (∀ side, c.finishReady.holder side = c.holder side) ∧
      c.finishReady.hsSpecial = c.hsSpecial ∧ c.finishReady.started = true := by
  unfold finishReady onReady
  dsimp only
  split_ifs with h
  · exact ⟨fun _ => rfl, rfl, h⟩
  · exact ⟨fun side => by cases side <;> rfl, rfl, rfl⟩
  · exact ⟨fun side => by cases side <;> rfl, rfl, rfl⟩

lemma checkReady_spec (c : TelnetMudConnection) :
    (∀ side, c.checkReady.holder side = c.holder side) ∧
      c.checkReady.hsSpecial = c.hsSpecial ∧
      (c.checkReady.started = true ↔ c.started = true ∨
        (c.hsSpecial = ∅ ∧ ∀ side, c.holder side = ∅)) := by
  obtain ⟨hholder, hspecial, hstarted⟩ := c.finishReady_spec
  unfold checkReady
  split_ifs with h hl hr hs
  · exact ⟨fun _ => rfl, rfl, by simp [h]⟩
  · exact ⟨fun _ => rfl, rfl,
      Or.inl, fun hor => hor.resolve_right fun hall => hl (hall.2 .localSide)⟩
  · exact ⟨fun _ => rfl, rfl,
      Or.inl, fun hor => hor.resolve_right fun hall => hr (hall.2 .remoteSide)⟩
  · exact ⟨fun _ => rfl, rfl, Or.inl, fun hor => hor.resolve_right fun hall => hs hall.1⟩
  · refine ⟨hholder, hspecial, fun _ => Or.inr ⟨not_not.mp hs, fun side => ?_⟩, fun _ => hstarted⟩
    cases side
    · exact not_not.mp hl
    · exact not_not.mp hr

/-- **A handshake is done**: it is taken out of its holder, and the connection is ready once
nothing is left in any. -/
lemma processHandshake_spec (c : TelnetMudConnection) (side : Side) (code : TelnetCode) :
    (∀ side', (c.processHandshake side code).holder side' =
        if side' = side then (c.holder side).erase code else c.holder side') ∧
      (c.processHandshake side code).hsSpecial = c.hsSpecial ∧
      ((c.processHandshake side code).started = true ↔ c.started = true ∨
        (c.hsSpecial = ∅ ∧ ∀ side', (c.processHandshake side code).holder side' = ∅)) := by
  have hset : ∀ side', ((c.record (.processHandshake side code)).setHolder
      ((c.holder side).erase code) side).holder side' =
        if side' = side then (c.holder side).erase code else c.holder side' := by
    intro side'
    cases side <;> cases side' <;> rfl
  have hspecial : ((c.record (.processHandshake side code)).setHolder
      ((c.holder side).erase code) side).hsSpecial = c.hsSpecial := by
    cases side <;> rfl
  have hstarted : ((c.record (.processHandshake side code)).setHolder
      ((c.holder side).erase code) side).started = c.started := by
    cases side <;> rfl
  obtain ⟨hholder, hspec, hready⟩ := checkReady_spec
    ((c.record (.processHandshake side code)).setHolder ((c.holder side).erase code) side)
  unfold processHandshake
  dsimp only
  split_ifs with hempty
  · refine ⟨fun side' => (hholder side').trans (hset side'), hspec.trans hspecial, ?_⟩
    rw [hready, hstarted, hspecial]
    simp only [hholder]
  · refine ⟨hset, hspecial, ?_⟩
    rw [hstarted]
    exact ⟨Or.inl, fun h => h.resolve_right fun hall => hempty (hall.2 side)⟩

lemma started_send (c : TelnetMudConnection) : c.send.started = c.started := by
  rw [send_eq]

lemma keepsReading_started (b : Bool) : KeepsReading fun c => c.started = b where
  record _ _ _ h := h
  cmdbuff _ _ h := h
  options _ _ h := h
  sendNegotiate _ _ _ h := (started_send _).trans h
  message _ _ h := h
  inbox _ _ h := h

lemma keepsStart_started (b : Bool) : KeepsStart fun c => c.started = b where
  send _ h := (started_send _).trans h
  sendNegotiate _ _ _ h := (started_send _).trans h
  options _ _ h := h
  operations _ _ _ _ _ h := h

/-- The event makes the connection ready, unless it is already. -/
def Event.MakesReady (c : TelnetMudConnection) : Event → Prop
  | .timer => True
  | .processHandshake side code => c.hsSpecial = ∅ ∧
      ∀ side', (if side' = side then (c.holder side).erase code else c.holder side') = ∅
  | _ => False

/-- **Readiness**: the timer and the last handshake make the connection ready, nothing else
does, and it stays so. -/
theorem started_step_iff {e : Event} (hstep : Step c e d) :
    d.started = true ↔ c.started = true ∨ e.MakesReady c := by
  have hsame : d.started = c.started → ¬ e.MakesReady c →
      (d.started = true ↔ c.started = true ∨ e.MakesReady c) := by
    intro hs hnot
    rw [hs, or_iff_left hnot]
  cases e with
  | sendNegotiate command option => exact hsame (hstep ▸ started_send _) id
  | send => exact hsame (hstep ▸ started_send _) id
  | processHandshake side code =>
      obtain ⟨hholder, -, hstarted⟩ := c.processHandshake_spec side code
      have hd : d = c.processHandshake side code := hstep
      rw [hd, hstarted]
      simp only [hholder, Event.MakesReady]
  | written i failed len =>
      obtain ⟨buffer, -, -, -, rfl⟩ := hstep
      refine hsame ?_ id
      unfold sendHandler
      dsimp only
      split_ifs
      · rw [started_send]
      · rfl
  | read data =>
      obtain ⟨-, e, hread, rfl⟩ := hstep
      have he : e.started = c.started :=
        (keepsReading_started c.started).read (c := { c with reads := c.reads - 1 }) rfl hread
      exact hsame he id
  | readError =>
      obtain ⟨-, rfl⟩ := hstep
      exact hsame rfl id
  | handshake failed =>
      obtain ⟨-, rfl⟩ := hstep
      refine hsame ?_ id
      split_ifs
      · rfl
      · exact (keepsStart_started c.started).start rfl
  | timer =>
      obtain ⟨-, rfl⟩ := hstep
      simp [Event.MakesReady, (finishReady_spec _).2.2]

end TelnetMudConnection

end ForgeMush
