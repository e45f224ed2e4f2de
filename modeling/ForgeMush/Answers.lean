import ForgeMush.History

/-!
What an option answers, and how often.

The first answer to a side is passed on to its handshake holder, whatever came before. A request
is acknowledged as often as it comes, unless one of our own is outstanding.
-/

namespace ForgeMush

namespace TelnetOption

open OptionCall

def calls (op : TelnetOption) : List OptionCall → List Call
  | [] => []
  | e :: l => (e.apply op).2 ++ (e.apply op).1.calls l

/-! ### The handshake holders -/

/-- The call is an answer: a request for a side that is supported, or the refusal of one that
is being negotiated. -/
def answers (op : TelnetOption) (side : Side) (e : OptionCall) : Bool :=
  (e = asks side && op.supports side) || (e = refuses side && (op.perspective side).negotiating)

def hasAnswer (op : TelnetOption) (side : Side) : List OptionCall → Bool
  | [] => false
  | e :: l => op.answers side e || (e.apply op).1.hasAnswer side l

/-- A side that is enabled has been answered. -/
def Sound (op : TelnetOption) : Prop := ∀ side, op.enabled side = true →
  (op.perspective side).answered = true

lemma sound_new (k : OptionClass) : (new k).Sound := by
  intro side h
  cases side <;> cases h

/-- **One call** tells the holder exactly if it is the first answer. -/
lemma Sound.apply {op : TelnetOption} (h : op.Sound) (e : OptionCall) (side : Side) :
    ((e.apply op).1.perspective side).answered =
      ((op.perspective side).answered || op.answers side e) ∧
    (e.apply op).2.count (.processHandshake side op.opCode) =
      if op.answers side e && !(op.perspective side).answered then 1 else 0 := by
  have hsound := h side
  unfold enabled at hsound
  unfold answers
  rcases op.apply_cases e side with
    ⟨rfl, heq⟩ | ⟨rfl, heq⟩ | ⟨rfl, hp, hcalls⟩ | ⟨⟨hasks, hrefuses, -⟩, hp, hcalls⟩
  · rw [heq]
    by_cases hs : op.supports side = true
    · rw [(op.receiveRequest_eq hs).1, (op.receiveRequest_eq hs).2]
      cases hp : op.perspective side with
      | mk enabled negotiating answered =>
          rw [hp] at hsound
          cases enabled <;> cases negotiating <;> cases answered <;> simp_all [told]
    · simp [op.receiveRequest_unsupported hs, hs, asks_ne_refuses]
  · rw [heq, (op.receiveRefusal_eq side).1, (op.receiveRefusal_eq side).2]
    cases hp : op.perspective side with
    | mk enabled negotiating answered =>
        cases enabled <;> cases negotiating <;> cases answered <;>
          simp [told, hp, (asks_ne_refuses side side).symm]
  · rw [hp, hcalls]
    simp [asks, refuses]
  · rw [hp]
    have hcount : (e.apply op).2.count (.processHandshake side op.opCode) = 0 := by
      refine List.count_eq_zero.mpr fun hmem => ?_
      simpa [Call.concerns] using hcalls _ hmem
    simp [hcount, hasks, hrefuses]

lemma Sound.step {op : TelnetOption} (h : op.Sound) (e : OptionCall) : (e.apply op).1.Sound := by
  intro side henabled
  rw [enabled_apply, Bool.or_eq_true] at henabled
  rw [(h.apply e side).1, answers]
  rcases henabled with hold | hnew
  · rw [h side hold, Bool.true_or]
  · rw [Bool.and_comm] at hnew
    rw [hnew, Bool.true_or, Bool.or_true]

lemma Sound.after {op : TelnetOption} (h : op.Sound) (l : List OptionCall) :
    (op.after l).Sound := by
  induction l generalizing op with
  | nil => exact h
  | cons e l ih => exact ih (h.step e)

lemma opCode_apply (op : TelnetOption) (e : OptionCall) : (e.apply op).1.opCode = op.opCode :=
  congrArg OptionClass.opCode (apply_class op e)

lemma Sound.answered_after {op : TelnetOption} (h : op.Sound) (side : Side)
    (l : List OptionCall) : ((op.after l).perspective side).answered =
      ((op.perspective side).answered || op.hasAnswer side l) := by
  induction l generalizing op with
  | nil => simp [TelnetOption.after, hasAnswer]
  | cons e l ih =>
      have hrest : ((op.after (e :: l)).perspective side).answered = _ := ih (h.step e)
      rw [hrest, (h.apply e side).1, hasAnswer, Bool.or_assoc]

/-- **A sequence of calls** tells the holder once if there is an answer among them. -/
lemma Sound.count_calls {op : TelnetOption} (h : op.Sound) (side : Side) (l : List OptionCall) :
    (op.calls l).count (.processHandshake side op.opCode) =
      if op.hasAnswer side l && !(op.perspective side).answered then 1 else 0 := by
  induction l generalizing op with
  | nil => rfl
  | cons e l ih =>
      have hrest := ih (h.step e)
      rw [opCode_apply, (h.apply e side).1] at hrest
      rw [calls, List.count_append, (h.apply e side).2, hrest, hasAnswer]
      cases op.answers side e <;> cases (op.perspective side).answered <;> simp

/-- **Handshake accounting**: through any sequence of calls the holder of a side is told at the
first answer, once, and at no other call, and never if there is none. -/
theorem handshake_accounted (k : OptionClass) (side : Side) (l : List OptionCall) :
    (∀ e, (e.apply ((new k).after l)).2.count (.processHandshake side k.opCode) =
      if ((new k).after l).answers side e && !(new k).hasAnswer side l then 1 else 0) ∧
    ((new k).calls l).count (.processHandshake side k.opCode) =
      if (new k).hasAnswer side l then 1 else 0 := by
  have hnew : ((new k).perspective side).answered = false := by cases side <;> rfl
  constructor
  · intro e
    have hcall := (((sound_new k).after l).apply e side).2
    rwa [opCode_after, (sound_new k).answered_after, hnew, Bool.false_or] at hcall
  · have hall := (sound_new k).count_calls side l
    rwa [hnew, Bool.not_false, Bool.and_true] at hall

/-! ### Acknowledgements -/

def Pending (side : Side) (l : List OptionCall) : Prop :=
  ∃ u v, l = u ++ .negotiate side.request :: v ∧ asks side ∉ v ∧ refuses side ∉ v

lemma pending_snoc {side : Side} {l : List OptionCall} {e : OptionCall} :
    Pending side (l ++ [e]) ↔
      e = .negotiate side.request ∨ (Pending side l ∧ e ≠ asks side ∧ e ≠ refuses side) := by
  constructor
  · rintro ⟨u, v, heq, hasks, hrefuses⟩
    obtain rfl | ⟨v, e', rfl⟩ := v.eq_nil_or_concat'
    · exact Or.inl (List.cons.inj (List.append_inj_right' heq rfl)).1
    · rw [← List.cons_append, ← List.append_assoc] at heq
      obtain ⟨rfl, hlast⟩ := List.append_inj' heq rfl
      cases hlast
      simp only [List.mem_append, List.mem_singleton, not_or] at hasks hrefuses
      exact Or.inr ⟨⟨u, v, rfl, hasks.1, hrefuses.1⟩, Ne.symm hasks.2, Ne.symm hrefuses.2⟩
  · rintro (rfl | ⟨⟨u, v, rfl, hasks, hrefuses⟩, hne, hne'⟩)
    · exact ⟨l, [], rfl, List.not_mem_nil, List.not_mem_nil⟩
    · exact ⟨u, v ++ [e], by simp, by simp [hasks, hne.symm], by simp [hrefuses, hne'.symm]⟩

/-- **A supported side is being negotiated** while a request of our own is outstanding. -/
lemma negotiating_after_iff {k : OptionClass} {side : Side}
    (hs : (new k).supports side = true) (l : List OptionCall) :
    (((new k).after l).perspective side).negotiating = true ↔ Pending side l := by
  induction l using List.reverseRecOn with
  | nil =>
      have hnil : ¬ Pending side [] := by
        rintro ⟨u, v, heq, -⟩
        simp at heq
      cases side <;> simp [after, perspective, new, hnil]
  | append_singleton l e ih =>
      rw [after_snoc, pending_snoc, ← ih]
      rw [← supports_after (new k) l] at hs
      rcases ((new k).after l).apply_cases e side with
        ⟨rfl, heq⟩ | ⟨rfl, heq⟩ | ⟨rfl, hp, -⟩ | ⟨⟨hasks, hrefuses, hown⟩, hp, -⟩
      · rw [heq, (receiveRequest_eq _ hs).1]
        simp [asks]
      · rw [heq, (receiveRefusal_eq _ side).1]
        simp [refuses]
      · simp [hp]
      · simp [hp, hasks, hrefuses, hown]

/-- The calls acknowledge a request for the side, to the peer or with the hook. -/
def Acknowledges (op : TelnetOption) (side : Side) (calls : List Call) : Prop :=
  .sendNegotiate side.request op.opCode ∈ calls ∨ .enable side op.opCode ∈ calls

/-- The acknowledgements that the requests for the side are sent. -/
def acks (op : TelnetOption) (side : Side) : List OptionCall → ℕ
  | [] => 0
  | e :: l =>
    (if e = asks side then (e.apply op).2.count (.sendNegotiate side.request op.opCode) else 0) +
      (e.apply op).1.acks side l

/-- A request is acknowledged only when it enables its side, so that requests which no refusal
comes between get one acknowledgement at most. -/
structure AcksOnce (op : TelnetOption) (l : List OptionCall) : Prop where
  enables : ∀ side u v, l = u ++ asks side :: v →
    op.Acknowledges side ((asks side).apply (op.after u)).2 →
      (op.after u).enabled side = false ∧ (op.after (u ++ [asks side])).enabled side = true
  once : ∀ side u w v, l = u ++ w ++ v → refuses side ∉ w → (op.after u).acks side w ≤ 1

/-- A supported side is asked for again only while a request of our own is outstanding. -/
def AsksAgainPending (k : OptionClass) (l : List OptionCall) : Prop :=
  ∀ side u v, l = u ++ asks side :: v → (new k).supports side = true → asks side ∈ u →
    Pending side u

/-- **When a request is acknowledged.** -/
lemma acknowledges_iff (op : TelnetOption) (side : Side) :
    op.Acknowledges side ((asks side).apply op).2 ↔ op.supports side = true ∧
      ¬ ((op.perspective side).negotiating = true ∧ op.enabled side = true) := by
  rw [apply_asks]
  unfold Acknowledges
  by_cases hs : op.supports side = true
  · have hflag : op.enabled side = (op.perspective side).enabled := rfl
    rw [(op.receiveRequest_eq hs).2, hflag, and_iff_right hs]
    cases (op.perspective side).negotiating <;> cases (op.perspective side).enabled <;> simp
  · simp [op.receiveRequest_unsupported hs, hs, side.request_ne_refusal side]

lemma acknowledges_after (k : OptionClass) (l : List OptionCall) (side : Side) (cs : List Call) :
    ((new k).after l).Acknowledges side cs ↔ (new k).Acknowledges side cs := by
  rw [Acknowledges, opCode_after]
  rfl

lemma count_ack_le (op : TelnetOption) (side : Side) :
    ((asks side).apply op).2.count (.sendNegotiate side.request op.opCode) ≤ 1 := by
  rw [apply_asks]
  by_cases hs : op.supports side = true
  · rw [(op.receiveRequest_eq hs).2]
    cases (op.perspective side).negotiating <;> cases (op.perspective side).enabled <;>
      simp only [told] <;> split_ifs <;> simp
  · simp [op.receiveRequest_unsupported hs, (side.request_ne_refusal side).symm]

lemma acks_le {op : TelnetOption} {side : Side} {w : List OptionCall}
    (h : ∀ u v, w = u ++ asks side :: v → (op.after u).Acknowledges side
      ((asks side).apply (op.after u)).2 → (op.after u).enabled side = false) :
    op.acks side w ≤ if op.enabled side then 0 else 1 := by
  induction w generalizing op with
  | nil => exact Nat.zero_le _
  | cons e w ih =>
      have hrest : (e.apply op).1.acks side w ≤ if (e.apply op).1.enabled side then 0 else 1 :=
        ih fun u v hw => h (e :: u) v (by rw [hw]; rfl)
      rw [enabled_apply] at hrest
      unfold acks
      by_cases he : e = asks side
      · subst he
        rw [if_pos rfl]
        by_cases hack : op.Acknowledges side ((asks side).apply op).2
        · have hoff : op.enabled side = false := h [] w rfl hack
          have hs := ((op.acknowledges_iff side).mp hack).1
          have hcount := op.count_ack_le side
          simp only [hoff, hs, decide_true, Bool.and_self, Bool.or_true, if_true] at hrest ⊢
          simpa [Nat.le_zero.mp hrest] using hcount
        · have hcount : ((asks side).apply op).2.count (.sendNegotiate side.request op.opCode) =
              0 := List.count_eq_zero.mpr fun hmem => hack (Or.inl hmem)
          rw [hcount, Nat.zero_add]
          refine hrest.trans ?_
          cases op.enabled side <;> simp
          split_ifs <;> simp
      · simpa [he] using hrest

/-- **No request is acknowledged again**, through a sequence of calls, exactly if a supported
side is asked for again only while a request of our own is outstanding. -/
theorem acksOnce_iff_asksAgainPending (k : OptionClass) (l : List OptionCall) :
    AcksOnce (new k) l ↔ AsksAgainPending k l := by
  have hack : ∀ side u, (new k).Acknowledges side ((asks side).apply ((new k).after u)).2 ↔
      (new k).supports side = true ∧ ¬ ((((new k).after u).perspective side).negotiating = true ∧
        ((new k).after u).enabled side = true) := by
    intro side u
    rw [← supports_after (new k) u, ← acknowledges_iff, acknowledges_after]
  constructor
  · intro h side u v hl hs hmem
    have hon := (enabled_after_iff k u side).mpr ⟨hs, hmem⟩
    by_contra hnot
    rw [← negotiating_after_iff hs] at hnot
    have hoff := (h.enables side u v hl ((hack side u).mpr ⟨hs, fun hboth => hnot hboth.1⟩)).1
    rw [hon] at hoff
    cases hoff
  · intro h
    have henables : ∀ side u v, l = u ++ asks side :: v →
        (new k).Acknowledges side ((asks side).apply ((new k).after u)).2 →
        ((new k).after u).enabled side = false := by
      intro side u v hl hacks
      obtain ⟨hs, hnot⟩ := (hack side u).mp hacks
      by_contra hon
      rw [Bool.not_eq_false] at hon
      have hpending := h side u v hl hs ((enabled_after_iff k u side).mp hon).2
      exact hnot ⟨(negotiating_after_iff hs u).mpr hpending, hon⟩
    refine ⟨fun side u v hl hacks => ⟨henables side u v hl hacks, ?_⟩, fun side u w v hl _ => ?_⟩
    · have hs := ((hack side u).mp hacks).1
      exact (enabled_after_iff k _ side).mpr ⟨hs, by simp⟩
    · have hle : ((new k).after u).acks side w ≤
          if ((new k).after u).enabled side then 0 else 1 := by
        refine acks_le fun x y hw hacks => ?_
        rw [← after_append] at hacks ⊢
        rw [acknowledges_after] at hacks
        exact henables side (u ++ x) (y ++ v) (by rw [hl, hw]; simp) hacks
      refine hle.trans ?_
      split_ifs <;> simp

theorem repeated_request_acknowledged :
    ¬ AcksOnce (new both) [asks .remoteSide, asks .remoteSide] ∧
    (new both).calls [.receiveNegotiate TelnetCode.WILL, .receiveNegotiate TelnetCode.WILL] =
      [.sendNegotiate TelnetCode.DO TelnetCode.MXP, .enable .remoteSide TelnetCode.MXP,
        .processHandshake .remoteSide TelnetCode.MXP,
        .sendNegotiate TelnetCode.DO TelnetCode.MXP, .enable .remoteSide TelnetCode.MXP] := by
  refine ⟨fun h => ?_, rfl⟩
  have hoff := (h.enables .remoteSide [asks .remoteSide] [] rfl (Or.inl List.mem_cons_self)).1
  cases hoff

end TelnetOption

end ForgeMush
