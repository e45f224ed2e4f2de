import ForgeMush.EventLoop

/-!
The output side of a connection: `outbox`, the write in flight and the bytes on the wire.

Bytes are appended to `outbox` while a write of an older part of it is in flight, and the
completion of the write takes what was written from the front. Nothing is lost that way,
but a write that does not empty `outbox` is the last one.
-/

namespace ForgeMush

open Runs

namespace TelnetMudConnection

/-- The three-byte sequences of all calls of `sendNegotiate`, one after the other. -/
def enqueued (c : TelnetMudConnection) : Bytes :=
  c.calls.flatMap fun
    | .sendNegotiate command option => [TelnetCode.IAC, command, option]
    | _ => []

/-- At most one write is in flight, and the wire and `outbox` hold all that was enqueued. -/
def Conserves (c : TelnetMudConnection) : Prop :=
  c.writes.length ≤ 1 ∧ c.wire ++ c.outbox = c.enqueued

/-- Bytes that wait in `outbox` have a write in flight, and `isWriting` says if there is one. -/
def NoStall (c : TelnetMudConnection) : Prop :=
  (c.outbox ≠ [] → c.writes ≠ []) ∧ (c.isWriting = true ↔ c.writes ≠ [])

/-- A completed write leaves nothing in `outbox`. -/
def Drains (c : TelnetMudConnection) : Event → Prop
  | .written _ _ len => c.outbox.length ≤ len
  | _ => True

/-! ### Conservation -/

/-- What every step keeps: a write in flight holds a part of the front of `outbox`. -/
structure Conserved (c : TelnetMudConnection) : Prop where
  one : c.writes.length ≤ 1
  front : ∀ buffer ∈ c.writes, buffer <+: c.outbox
  writing : c.writes ≠ [] → c.isWriting = true
  bytes : c.wire ++ c.outbox = c.enqueued

lemma enqueued_record_of_isNote (c : TelnetMudConnection) {k : Call} (hk : k.isNote = true) :
    (c.record k).enqueued = c.enqueued := by
  cases k with
  | onReceiveMessage msg => cases hk
  | sendNegotiate command option => cases hk
  | _ => simp [enqueued, record]

lemma Conserved.send {c : TelnetMudConnection} (h : Conserved c) : Conserved c.send := by
  obtain ⟨one, front, writing, bytes⟩ := h
  rw [send_eq]
  by_cases hw : c.isWriting = true
  · exact ⟨by simpa [hw] using one, by simpa [hw] using front, by simp [hw], bytes⟩
  · have hnone : c.writes = [] := by
      by_contra hne
      exact hw (writing hne)
    by_cases ho : 0 < c.outbox.length
    · refine ⟨?_, ?_, ?_, bytes⟩ <;> simp [hw, ho, hnone]
    · refine ⟨?_, ?_, ?_, bytes⟩ <;> simp [ho, hnone]

lemma Conserved.sendNegotiate {c : TelnetMudConnection} (h : Conserved c)
    (command option : TelnetCode) : Conserved (c.sendNegotiate command option) := by
  refine Conserved.send ⟨h.one, fun buffer hb => ?_, h.writing, ?_⟩
  · exact (h.front buffer hb).trans (List.prefix_append _ _)
  · have hadd : (c.record (.sendNegotiate command option)).enqueued =
        c.enqueued ++ [TelnetCode.IAC, command, option] := by
      simp [enqueued, record]
    calc c.wire ++ (c.outbox ++ [TelnetCode.IAC, command, option])
        = c.enqueued ++ [TelnetCode.IAC, command, option] := by rw [← h.bytes, List.append_assoc]
      _ = (c.record (.sendNegotiate command option)).enqueued := hadd.symm

lemma Conserved.record {c : TelnetMudConnection} (h : Conserved c) {k : Call}
    (hk : k.isNote = true) : Conserved (c.record k) :=
  ⟨h.one, h.front, h.writing, (enqueued_record_of_isNote c hk).symm ▸ h.bytes⟩

lemma keepsAll_conserved : KeepsAll Conserved where
  record _ _ hk h := h.record hk
  cmdbuff _ _ h := ⟨h.one, h.front, h.writing, h.bytes⟩
  options _ _ h := ⟨h.one, h.front, h.writing, h.bytes⟩
  sendNegotiate _ command option h := h.sendNegotiate command option
  message c msg h := ⟨h.one, h.front, h.writing, by simpa [enqueued, record] using h.bytes⟩
  inbox _ _ h := ⟨h.one, h.front, h.writing, h.bytes⟩
  send _ h := h.send
  operations _ _ _ _ _ h := ⟨h.one, h.front, h.writing, h.bytes⟩
  handshake _ _ _ h := h.record rfl
  holders _ _ _ h := ⟨h.one, h.front, h.writing, h.bytes⟩
  finishReady := keeps_finishReady (fun _ _ hk h => h.record hk)
    fun _ _ _ h => ⟨h.one, h.front, h.writing, h.bytes⟩
  lose _ h := ⟨h.one, h.front, h.writing, h.bytes⟩

/-- The handler calls `send` with `isWriting` still set, so it writes no more. -/
lemma sendHandler_of_lt {c : TelnetMudConnection} {len : ℕ} (hw : c.isWriting = true)
    (h : len < c.outbox.length) : c.sendHandler len = { c with outbox := c.outbox.drop len } := by
  have hpos : 0 < (c.outbox.drop len).length := by
    rw [List.length_drop]
    omega
  unfold sendHandler
  dsimp only
  rw [if_pos hpos]
  simp [send, hw]

lemma sendHandler_of_le {c : TelnetMudConnection} {len : ℕ} (h : c.outbox.length ≤ len) :
    c.sendHandler len = { c with outbox := [], isWriting := false } := by
  simp [sendHandler, List.drop_eq_nil_of_le h]

lemma written_cases {c d : TelnetMudConnection} (hone : c.writes.length ≤ 1) {i len : ℕ}
    {failed : Bool} (h : Step c (.written i failed len) d) :
    ∃ buffer, c.writes = [buffer] ∧ len ≤ buffer.length ∧
      d = sendHandler { c with writes := [], wire := c.wire ++ buffer.take len } len := by
  obtain ⟨buffer, hi, hlen, -, rfl⟩ := h
  obtain ⟨hlt, hget⟩ := List.getElem?_eq_some_iff.mp hi
  rcases hw : c.writes with _ | ⟨b, _ | ⟨b', ws⟩⟩
  · simp [hw] at hlt
  · have hi0 : i = 0 := by
      rw [hw] at hlt
      simpa using hlt
    subst hi0
    have hb : b = buffer := by simpa [hw] using hget
    subst hb
    exact ⟨b, rfl, hlen, by simp⟩
  · simp [hw] at hone

lemma Conserved.written {c d : TelnetMudConnection} (h : Conserved c) {i len : ℕ}
    {failed : Bool} (hstep : Step c (.written i failed len) d) : Conserved d := by
  obtain ⟨buffer, hw, hlen, rfl⟩ := written_cases h.one hstep
  have htake : buffer.take len = c.outbox.take len := by
    obtain ⟨more, hmore⟩ := h.front buffer (by simp [hw])
    rw [← hmore, List.take_append_of_le_length hlen]
  have hbytes : (c.wire ++ buffer.take len) ++ c.outbox.drop len = c.enqueued := by
    rw [htake, List.append_assoc, List.take_append_drop, h.bytes]
  have hwriting : c.isWriting = true := h.writing (by simp [hw])
  by_cases hlt : len < c.outbox.length
  · rw [sendHandler_of_lt (by exact hwriting) (by exact hlt)]
    exact ⟨by simp, by simp, by simp, hbytes⟩
  · have hle : c.outbox.length ≤ len := not_lt.mp hlt
    rw [List.drop_eq_nil_of_le hle] at hbytes
    rw [sendHandler_of_le (by exact hle)]
    exact ⟨by simp, by simp, by simp, hbytes⟩

lemma Conserved.step {c d : TelnetMudConnection} {e : Event} (h : Conserved c)
    (hstep : Step c e d) : Conserved d := by
  cases e with
  | written i failed len => exact h.written hstep
  | _ => exact keepsAll_conserved.step (by simp) h hstep

lemma withOptions_output (connId : UInt32) (isTLS hasConnectCB : Bool) (ks : List OptionClass) :
    (withOptions connId isTLS hasConnectCB ks).outbox = [] ∧
      (withOptions connId isTLS hasConnectCB ks).writes = [] ∧
      (withOptions connId isTLS hasConnectCB ks).isWriting = false ∧
      (withOptions connId isTLS hasConnectCB ks).wire = [] ∧
      (withOptions connId isTLS hasConnectCB ks).calls = [] := by
  obtain ⟨t, l, r, h⟩ := withOptions_eq connId isTLS hasConnectCB ks
  rw [h]
  exact ⟨rfl, rfl, rfl, rfl, rfl⟩

lemma conserved_withOptions (connId : UInt32) (isTLS hasConnectCB : Bool)
    (ks : List OptionClass) : Conserved (withOptions connId isTLS hasConnectCB ks) := by
  obtain ⟨ho, hw, hf, hwire, hc⟩ := withOptions_output connId isTLS hasConnectCB ks
  exact ⟨by simp [hw], by simp [hw], by simp [hw], by simp [ho, hwire, enqueued, hc]⟩

/-- **Output conservation**: in every run of a new connection nothing that is enqueued is
lost, repeated or put out of order, and at most one write is in flight. -/
theorem output_conserved (connId : UInt32) (isTLS hasConnectCB : Bool) (ks : List OptionClass)
    (tr : List (Event × TelnetMudConnection))
    (h : Run Step (withOptions connId isTLS hasConnectCB ks) tr) :
    Always Conserves (withOptions connId isTLS hasConnectCB ks) tr :=
  (h.always (fun _ _ _ hc hstep => hc.step hstep) (conserved_withOptions _ _ _ ks)).mono
    fun _ hc => ⟨hc.one, hc.bytes⟩

/-- A negotiation goes out in two partial writes, with another one enqueued in between. -/
theorem negotiations_conserved : ∃ tr : List (Event × TelnetMudConnection),
    events tr = [.sendNegotiate TelnetCode.WILL TelnetCode.MXP, .written 0 false 2,
      .sendNegotiate TelnetCode.DO TelnetCode.MXP] ∧
    Run Step (withOptions 0 false true []) tr ∧
    Always Conserves (withOptions 0 false true []) tr := by
  have hrun : Run Step (withOptions 0 false true [])
      [(.sendNegotiate TelnetCode.WILL TelnetCode.MXP, _), (.written 0 false 2, _),
        (.sendNegotiate TelnetCode.DO TelnetCode.MXP, _)] :=
    .cons rfl (.cons ⟨[TelnetCode.IAC, TelnetCode.WILL, TelnetCode.MXP], rfl, by decide,
      by decide, rfl⟩ (.cons rfl (.nil _)))
  exact ⟨_, rfl, hrun, output_conserved 0 false true [] _ hrun⟩

/-! ### Stalls -/

/-- `send` never leaves bytes behind, if the flag was right before. -/
lemma NoStall.send {c : TelnetMudConnection} (h : c.isWriting = true ↔ c.writes ≠ []) :
    NoStall c.send := by
  rw [send_eq]
  by_cases hw : c.isWriting = true
  · have hne : c.writes ≠ [] := h.mp hw
    simp [NoStall, hw, hne]
  · have hnone : c.writes = [] := by
      by_contra hne
      exact hw (h.mpr hne)
    by_cases ho : 0 < c.outbox.length
    · simp [NoStall, hw, ho]
    · have hempty : c.outbox = [] := List.length_eq_zero_iff.mp (by omega)
      simp [NoStall, hw, hnone, hempty]

lemma keepsAll_noStall : KeepsAll NoStall where
  record _ _ _ h := h
  cmdbuff _ _ h := h
  options _ _ h := h
  sendNegotiate _ _ _ h := NoStall.send h.2
  message _ _ h := h
  inbox _ _ h := h
  send _ h := NoStall.send h.2
  operations _ _ _ _ _ h := h
  handshake _ _ _ h := h
  holders _ _ _ h := h
  finishReady := keeps_finishReady (fun _ _ _ h => h) fun _ _ _ h => h
  lose _ h := h

lemma NoStall.written {c d : TelnetMudConnection} (hc : Conserved c) {i len : ℕ}
    {failed : Bool} (hdrains : Drains c (.written i failed len))
    (hstep : Step c (.written i failed len) d) : NoStall d := by
  obtain ⟨buffer, -, -, rfl⟩ := written_cases hc.one hstep
  rw [sendHandler_of_le (by exact hdrains)]
  simp [NoStall]

/-- The completion handler calls `send` with `isWriting` still set, so no write follows. -/
lemma not_noStall_written {c d : TelnetMudConnection} (hc : Conserved c) {i len : ℕ}
    {failed : Bool} (hdrains : ¬ Drains c (.written i failed len))
    (hstep : Step c (.written i failed len) d) : ¬ NoStall d := by
  obtain ⟨buffer, hw, -, rfl⟩ := written_cases hc.one hstep
  have hwriting : c.isWriting = true := hc.writing (by simp [hw])
  have hlt : len < c.outbox.length := not_le.mp hdrains
  have hleft : c.outbox.drop len ≠ [] := by
    intro hnil
    have := List.drop_eq_nil_iff.mp hnil
    omega
  intro h
  rw [sendHandler_of_lt (by exact hwriting) (by exact hlt)] at h
  exact h.1 hleft rfl

/-- **Write stalls**: a run of a new connection is free of them exactly when every write
that completes leaves nothing in `outbox`. -/
theorem noStall_iff_drains (connId : UInt32) (isTLS hasConnectCB : Bool)
    (ks : List OptionClass) (tr : List (Event × TelnetMudConnection))
    (h : Run Step (withOptions connId isTLS hasConnectCB ks) tr) :
    Always NoStall (withOptions connId isTLS hasConnectCB ks) tr ↔
      AllSteps Drains (withOptions connId isTLS hasConnectCB ks) tr := by
  obtain ⟨ho, hw, hf, -, -⟩ := withOptions_output connId isTLS hasConnectCB ks
  have hinit : NoStall (withOptions connId isTLS hasConnectCB ks) := by
    simp [NoStall, ho, hw, hf]
  refine h.always_iff_allSteps (I := fun c => Conserved c ∧ NoStall c) (fun _ hI => hI.2)
    ?_ ?_ ⟨conserved_withOptions _ _ _ _, hinit⟩
  · intro c e d hI hdrains hstep
    refine ⟨hI.1.step hstep, ?_⟩
    cases e with
    | written i failed len => exact NoStall.written hI.1 hdrains hstep
    | _ => exact keepsAll_noStall.step (by simp) hI.2 hstep
  · intro c e d hI hdrains hstep
    cases e with
    | written i failed len => exact not_noStall_written hI.1 hdrains hstep
    | _ => exact absurd trivial hdrains

/-- Full writes do not stall. -/
theorem full_write_does_not_stall : ∃ tr : List (Event × TelnetMudConnection),
    events tr = [.sendNegotiate TelnetCode.WILL TelnetCode.MXP, .written 0 false 3,
      .sendNegotiate TelnetCode.DO TelnetCode.MXP] ∧
    Run Step (withOptions 0 false true []) tr ∧
    Always NoStall (withOptions 0 false true []) tr := by
  have hrun : Run Step (withOptions 0 false true [])
      [(.sendNegotiate TelnetCode.WILL TelnetCode.MXP, _), (.written 0 false 3, _),
        (.sendNegotiate TelnetCode.DO TelnetCode.MXP, _)] :=
    .cons rfl (.cons ⟨[TelnetCode.IAC, TelnetCode.WILL, TelnetCode.MXP], rfl, by decide,
      by decide, rfl⟩ (.cons rfl (.nil _)))
  refine ⟨_, rfl, hrun, (noStall_iff_drains 0 false true [] _ hrun).mpr ⟨trivial, ?_⟩⟩
  exact ⟨show 3 ≤ 3 by decide, trivial, trivial⟩

/-- One byte of a negotiation is written and the other two stay in `outbox` for good. -/
theorem partial_write_stalls : ∃ tr : List (Event × TelnetMudConnection),
    events tr = [.sendNegotiate TelnetCode.WILL TelnetCode.MXP, .written 0 false 1] ∧
    Run Step (withOptions 0 false true []) tr ∧
    ¬ Always NoStall (withOptions 0 false true []) tr := by
  have hrun : Run Step (withOptions 0 false true [])
      [(.sendNegotiate TelnetCode.WILL TelnetCode.MXP, _), (.written 0 false 1, _)] :=
    .cons rfl (.cons ⟨[TelnetCode.IAC, TelnetCode.WILL, TelnetCode.MXP], rfl, by decide,
      by decide, rfl⟩ (.nil _))
  refine ⟨_, rfl, hrun, fun h => ?_⟩
  exact h.2.2.1 (by decide) (by rfl)

end TelnetMudConnection

end ForgeMush
