import ForgeMush.Options
import Mathlib.Data.List.Basic
import Mathlib.Tactic.SplitIfs

/-!
What the state of an option says of the negotiations it has been through.

A side is enabled by the first request for it that comes from the peer, and by nothing is it
ever disabled again: a refusal calls the hook, and leaves the flag.
-/

namespace ForgeMush

/-- A call of a method of an option. -/
inductive OptionCall
  | negotiate (command : TelnetCode)
  | receiveNegotiate (command : TelnetCode)
  deriving DecidableEq

namespace OptionCall

def apply : OptionCall → TelnetOption → TelnetOption × List Call
  | negotiate command, op => op.negotiate command
  | receiveNegotiate command, op => op.receiveNegotiate command

/-- The peer asks for the side: WILL for the remote one, DO for the local one. -/
def asks (side : Side) : OptionCall := .receiveNegotiate side.other.request

/-- The peer refuses it, with WONT or DONT. -/
def refuses (side : Side) : OptionCall := .receiveNegotiate side.other.refusal

lemma asks_ne_refuses (side side' : Side) : asks side ≠ refuses side' := by
  cases side <;> cases side' <;> decide

lemma asks_inj {side side' : Side} : asks side = asks side' ↔ side = side' := by
  cases side <;> cases side' <;> decide

lemma refuses_inj {side side' : Side} : refuses side = refuses side' ↔ side = side' := by
  cases side <;> cases side' <;> decide

end OptionCall

/-- The call is one of those that a side is opened, closed and negotiated with. -/
def Call.concerns (side : Side) : Call → Bool
  | .sendNegotiate command _ => command = side.request
  | .enable s _ => s = side
  | .disable s _ => s = side
  | .processHandshake s _ => s = side
  | _ => false

namespace TelnetOption

open OptionCall

/-- The option after a sequence of calls. -/
def after (op : TelnetOption) (l : List OptionCall) : TelnetOption :=
  l.foldl (fun op e => (e.apply op).1) op

def enabled (op : TelnetOption) (side : Side) : Bool := (op.perspective side).enabled

/-- Of the requests and refusals of the side that have been received, the last is a request. -/
def LastAsks (side : Side) (l : List OptionCall) : Prop :=
  ∃ u v, l = u ++ asks side :: v ∧ refuses side ∉ v

/-- After each call the side is enabled exactly if the peer's last word on it was a request,
and the hook for its end is called exactly when it goes from enabled to not enabled. -/
def FollowsPeer (op : TelnetOption) (l : List OptionCall) : Prop :=
  ∀ u e v, l = u ++ e :: v → ∀ side,
    ((op.after (u ++ [e])).enabled side = true ↔ LastAsks side (u ++ [e])) ∧
    (.disable side op.opCode ∈ (e.apply (op.after u)).2 ↔
      (op.after u).enabled side = true ∧ (op.after (u ++ [e])).enabled side = false)

/-- The peer does not refuse a side that it has asked for. -/
def NeverTakenBack (l : List OptionCall) : Prop :=
  ∀ side u v, l = u ++ refuses side :: v → asks side ∉ u

/-! ### One call -/

lemma after_append (op : TelnetOption) (u v : List OptionCall) :
    op.after (u ++ v) = (op.after u).after v := List.foldl_append

lemma after_snoc (op : TelnetOption) (u : List OptionCall) (e : OptionCall) :
    op.after (u ++ [e]) = (e.apply (op.after u)).1 := by
  simp [after]

@[simp] lemma perspective_setPerspective (op : TelnetOption) (p : TelnetOptionPerspective)
    (side : Side) : (op.setPerspective p side).perspective side = p := by
  cases side <;> rfl

lemma apply_asks (op : TelnetOption) (side : Side) :
    (asks side).apply op = op.receiveRequest side := by
  cases side <;> rfl

lemma apply_refuses (op : TelnetOption) (side : Side) :
    (refuses side).apply op = op.receiveRefusal side := by
  cases side <;> rfl

/-- The first answer is passed on to the holder. -/
def told (op : TelnetOption) (side : Side) : List Call :=
  if (op.perspective side).answered then [] else [.processHandshake side op.opCode]

lemma receiveRequest_eq (op : TelnetOption) {side : Side} (hs : op.supports side = true) :
    (op.receiveRequest side).1.perspective side =
      { enabled := true, negotiating := false
        answered := (op.perspective side).answered ||
          !((op.perspective side).negotiating && (op.perspective side).enabled) } ∧
    (op.receiveRequest side).2 =
      if (op.perspective side).negotiating then
        if (op.perspective side).enabled then [] else .enable side op.opCode :: op.told side
      else .sendNegotiate side.request op.opCode :: .enable side op.opCode :: op.told side := by
  unfold receiveRequest told
  dsimp only
  rw [if_pos hs]
  obtain ⟨enabled, negotiating, answered⟩ := op.perspective side
  cases enabled <;> cases negotiating <;> cases answered <;> simp

lemma receiveRequest_unsupported (op : TelnetOption) {side : Side}
    (hs : ¬ op.supports side = true) :
    op.receiveRequest side = (op, [.sendNegotiate side.refusal op.opCode]) := by
  unfold receiveRequest
  exact if_neg hs

lemma receiveRefusal_eq (op : TelnetOption) (side : Side) :
    (op.receiveRefusal side).1.perspective side =
      { op.perspective side with
        negotiating := false
        answered := (op.perspective side).answered || (op.perspective side).negotiating } ∧
    (op.receiveRefusal side).2 =
      (if (op.perspective side).enabled then [.disable side op.opCode] else []) ++
        if (op.perspective side).negotiating then op.told side else [] := by
  unfold receiveRefusal told
  dsimp only
  cases hp : op.perspective side with
  | mk enabled negotiating answered => cases negotiating <;> cases answered <;> simp [hp]

lemma receiveRequest_other (op : TelnetOption) {side other : Side} (h : other ≠ side) :
    (op.receiveRequest side).1.perspective other = op.perspective other ∧
      ∀ k ∈ (op.receiveRequest side).2, k.concerns other = false := by
  have hne : side.request ≠ other.request := fun he => h (Side.request_inj.mp he).symm
  have hne' := (other.request_ne_refusal side).symm
  unfold receiveRequest
  dsimp only
  split_ifs <;> simp [perspective_setPerspective_of_ne, h, h.symm, Call.concerns, hne, hne']

lemma receiveRefusal_other (op : TelnetOption) {side other : Side} (h : other ≠ side) :
    (op.receiveRefusal side).1.perspective other = op.perspective other ∧
      ∀ k ∈ (op.receiveRefusal side).2, k.concerns other = false := by
  unfold receiveRefusal
  dsimp only
  split_ifs <;> simp [perspective_setPerspective_of_ne, h, h.symm, Call.concerns]

lemma apply_other (op : TelnetOption) {e : OptionCall} {side : Side} (hasks : ∀ s, e ≠ asks s)
    (hrefuses : ∀ s, e ≠ refuses s) (hown : e ≠ .negotiate side.request) :
    (e.apply op).1.perspective side = op.perspective side ∧
      ∀ k ∈ (e.apply op).2, k.concerns side = false := by
  cases e with
  | negotiate command =>
      have hne : command ≠ side.request := fun h => hown (h ▸ rfl)
      rw [apply, negotiate]
      split_ifs with hdo hwill
      · subst hdo
        cases side with
        | localSide => exact ⟨rfl, by simpa [Call.concerns] using hne⟩
        | remoteSide => exact absurd rfl hne
      · subst hwill
        cases side with
        | localSide => exact absurd rfl hne
        | remoteSide => exact ⟨rfl, by simpa [Call.concerns] using hne⟩
      · exact ⟨rfl, by simp⟩
  | receiveNegotiate command =>
      have hwill : command ≠ TelnetCode.WILL := fun h => hasks .remoteSide (h ▸ rfl)
      have hdo : command ≠ TelnetCode.DO := fun h => hasks .localSide (h ▸ rfl)
      have hwont : command ≠ TelnetCode.WONT := fun h => hrefuses .remoteSide (h ▸ rfl)
      have hdont : command ≠ TelnetCode.DONT := fun h => hrefuses .localSide (h ▸ rfl)
      simp [apply, receiveNegotiate, hwill, hdo, hwont, hdont]

/-- **What a call can do** to a side. -/
lemma apply_cases (op : TelnetOption) (e : OptionCall) (side : Side) :
    (e = asks side ∧ e.apply op = op.receiveRequest side) ∨
    (e = refuses side ∧ e.apply op = op.receiveRefusal side) ∨
    (e = .negotiate side.request ∧
      (e.apply op).1.perspective side = { op.perspective side with negotiating := true } ∧
      (e.apply op).2 = [.sendNegotiate side.request op.opCode]) ∨
    ((e ≠ asks side ∧ e ≠ refuses side ∧ e ≠ .negotiate side.request) ∧
      (e.apply op).1.perspective side = op.perspective side ∧
      ∀ k ∈ (e.apply op).2, k.concerns side = false) := by
  by_cases hasks : ∃ s, e = asks s
  · obtain ⟨s, rfl⟩ := hasks
    by_cases hs : s = side
    · exact Or.inl ⟨by rw [hs], by rw [hs, apply_asks]⟩
    · refine Or.inr (Or.inr (Or.inr ⟨⟨?_, asks_ne_refuses _ _, ?_⟩, ?_⟩))
      · exact fun h => hs (asks_inj.mp h)
      · exact fun h => nomatch h
      · rw [apply_asks]
        exact op.receiveRequest_other (Ne.symm hs)
  by_cases hrefuses : ∃ s, e = refuses s
  · obtain ⟨s, rfl⟩ := hrefuses
    by_cases hs : s = side
    · exact Or.inr (Or.inl ⟨by rw [hs], by rw [hs, apply_refuses]⟩)
    · refine Or.inr (Or.inr (Or.inr ⟨⟨(asks_ne_refuses _ _).symm, ?_, ?_⟩, ?_⟩))
      · exact fun h => hs (refuses_inj.mp h)
      · exact fun h => nomatch h
      · rw [apply_refuses]
        exact op.receiveRefusal_other (Ne.symm hs)
  rw [not_exists] at hasks hrefuses
  by_cases hown : e = .negotiate side.request
  · subst hown
    refine Or.inr (Or.inr (Or.inl ⟨rfl, ?_⟩))
    cases side <;> exact ⟨rfl, rfl⟩
  · exact Or.inr (Or.inr (Or.inr ⟨⟨hasks side, hrefuses side, hown⟩,
      apply_other op hasks hrefuses hown⟩))

lemma enabled_apply (op : TelnetOption) (e : OptionCall) (side : Side) :
    (e.apply op).1.enabled side =
      (op.enabled side || (op.supports side && decide (e = asks side))) := by
  unfold enabled
  rcases op.apply_cases e side with
    ⟨rfl, heq⟩ | ⟨rfl, heq⟩ | ⟨rfl, hp, -⟩ | ⟨⟨hasks, -, -⟩, hp, -⟩
  · rw [heq]
    by_cases hs : op.supports side = true
    · simp [(op.receiveRequest_eq hs).1, hs]
    · simp [op.receiveRequest_unsupported hs, hs]
  · rw [heq, (op.receiveRefusal_eq side).1]
    simp [(asks_ne_refuses side side).symm]
  · rw [hp]
    simp [asks]
  · rw [hp]
    simp [hasks]

lemma disable_mem_apply (op : TelnetOption) (e : OptionCall) (side : Side) :
    .disable side op.opCode ∈ (e.apply op).2 ↔ e = refuses side ∧ op.enabled side = true := by
  unfold enabled
  rcases op.apply_cases e side with
    ⟨rfl, heq⟩ | ⟨rfl, heq⟩ | ⟨rfl, -, hcalls⟩ | ⟨⟨-, hrefuses, -⟩, -, hcalls⟩
  · rw [heq]
    by_cases hs : op.supports side = true
    · rw [(op.receiveRequest_eq hs).2]
      split_ifs <;> simp [told, asks_ne_refuses]
    · simp [op.receiveRequest_unsupported hs, asks_ne_refuses]
  · rw [heq, (op.receiveRefusal_eq side).2]
    split_ifs with henabled hnegotiating <;> simp [told, henabled]
  · simp [hcalls, refuses]
  · refine ⟨fun hmem => ?_, fun h => absurd h.1 hrefuses⟩
    simpa [Call.concerns] using hcalls _ hmem

/-! ### Any sequence of calls -/

lemma apply_class (op : TelnetOption) (e : OptionCall) :
    (e.apply op).1.toOptionClass = op.toOptionClass := by
  cases e <;> simp [apply]

lemma after_class (op : TelnetOption) (l : List OptionCall) :
    (op.after l).toOptionClass = op.toOptionClass := by
  have hstep : ∀ o : TelnetOption, o.toOptionClass = op.toOptionClass → ∀ e ∈ l,
      (OptionCall.apply e o).1.toOptionClass = op.toOptionClass :=
    fun o ho e _ => (apply_class o e).trans ho
  exact List.foldlRecOn (motive := fun o : TelnetOption => o.toOptionClass = op.toOptionClass)
    l _ rfl hstep

variable {k : OptionClass}

lemma supports_after (op : TelnetOption) (l : List OptionCall) (side : Side) :
    (op.after l).supports side = op.supports side := by
  have hclass := op.after_class l
  cases side with
  | localSide => exact congrArg OptionClass.supportLocal hclass
  | remoteSide => exact congrArg OptionClass.supportRemote hclass

lemma opCode_after (k : OptionClass) (l : List OptionCall) : ((new k).after l).opCode = k.opCode :=
  congrArg OptionClass.opCode ((new k).after_class l)

/-- **A side is enabled** once it has been asked for, if it is supported. -/
lemma enabled_after_iff (k : OptionClass) (l : List OptionCall) (side : Side) :
    ((new k).after l).enabled side = true ↔ (new k).supports side = true ∧ asks side ∈ l := by
  induction l using List.reverseRecOn with
  | nil => cases side <;> simp [after, enabled, perspective, new]
  | append_singleton l e ih =>
      rw [after_snoc, enabled_apply, supports_after, Bool.or_eq_true, ih, Bool.and_eq_true,
        decide_eq_true_iff, ← and_or_left, List.mem_append, List.mem_singleton, eq_comm (a := e)]

lemma disable_apply_iff (k : OptionClass) (u : List OptionCall) (e : OptionCall) (side : Side) :
    .disable side k.opCode ∈ (e.apply ((new k).after u)).2 ↔
      e = refuses side ∧ (new k).supports side = true ∧ asks side ∈ u := by
  rw [← enabled_after_iff, ← opCode_after k u]
  exact disable_mem_apply _ e side

lemma lastAsks_iff {l : List OptionCall} (h : NeverTakenBack l) (side : Side) :
    LastAsks side l ↔ asks side ∈ l := by
  constructor
  · rintro ⟨u, v, rfl, -⟩
    simp
  · intro hmem
    obtain ⟨u, v, rfl⟩ := List.append_of_mem hmem
    refine ⟨u, v, rfl, fun hrefuses => ?_⟩
    obtain ⟨x, y, rfl⟩ := List.append_of_mem hrefuses
    exact h side (u ++ asks side :: x) y (by simp) (by simp)

lemma not_lastAsks_refuses (side : Side) (u : List OptionCall) :
    ¬ LastAsks side (u ++ [refuses side]) := by
  rintro ⟨x, y, heq, hno⟩
  obtain rfl | ⟨z, e, rfl⟩ := y.eq_nil_or_concat'
  · have hlast := List.append_inj_right' heq rfl
    exact asks_ne_refuses side side (List.cons.inj hlast).1.symm
  · rw [← List.cons_append, ← List.append_assoc] at heq
    have hlast := (List.append_inj_right' heq rfl)
    rw [(List.cons.inj hlast).1] at hno
    simp at hno

lemma NeverTakenBack.left {u v : List OptionCall} (h : NeverTakenBack (u ++ v)) :
    NeverTakenBack u := by
  rintro side x y rfl
  exact h side x (y ++ v) (by simp)

/-- **The state of an option follows the peer**, through a sequence of calls on an option that
supports both sides, exactly if no side is refused after it has been asked for. -/
theorem followsPeer_iff_neverTakenBack (k : OptionClass) (hlocal : k.supportLocal = true)
    (hremote : k.supportRemote = true) (l : List OptionCall) :
    FollowsPeer (new k) l ↔ NeverTakenBack l := by
  have hs : ∀ side, (new k).supports side = true := by
    intro side
    cases side with
    | localSide => exact hlocal
    | remoteSide => exact hremote
  have henabled : ∀ (u : List OptionCall) (side : Side),
      ((new k).after u).enabled side = true ↔ asks side ∈ u := by
    intro u side
    rw [enabled_after_iff, and_iff_right (hs side)]
  constructor
  · rintro h side u v rfl hmem
    have hlast := (h u (refuses side) v rfl side).1
    rw [henabled] at hlast
    exact not_lastAsks_refuses side u (hlast.mp (List.mem_append_left _ hmem))
  · rintro h u e v rfl side
    have hu : NeverTakenBack (u ++ [e]) := NeverTakenBack.left (v := v) (by simpa using h)
    rw [henabled, lastAsks_iff hu]
    refine ⟨Iff.rfl, ?_⟩
    constructor
    · intro hdisable
      obtain ⟨rfl, -, hmem⟩ := (disable_apply_iff k u e side).mp hdisable
      exact absurd hmem (h side u v rfl)
    · rintro ⟨hon, hoff⟩
      have hmem : asks side ∈ u ++ [e] := List.mem_append_left _ ((henabled u side).mp hon)
      rw [(henabled (u ++ [e]) side).mpr hmem] at hoff
      cases hoff

/-- A class that supports both sides. -/
def both : OptionClass := { opCode := TelnetCode.MXP, supportLocal := true, supportRemote := true }

/-- WONT, a request of our own, and WILL. -/
theorem refused_then_opened_follows :
    FollowsPeer (new both) [.receiveNegotiate TelnetCode.WONT, .negotiate TelnetCode.DO,
      .receiveNegotiate TelnetCode.WILL] := by
  refine (followsPeer_iff_neverTakenBack both rfl rfl _).mpr fun side u v h hmem => ?_
  rcases u with _ | ⟨a, _ | ⟨b, _ | ⟨c, u⟩⟩⟩ <;> cases side <;>
    simp_all +decide [refuses, Side.refusal, Side.other]

/-- WILL and then WONT: the hook is called, and the side stays enabled. -/
theorem opened_then_refused_stays_enabled :
    ¬ FollowsPeer (new both) [.receiveNegotiate TelnetCode.WILL,
      .receiveNegotiate TelnetCode.WONT] ∧
    ((new both).after [.receiveNegotiate TelnetCode.WILL,
      .receiveNegotiate TelnetCode.WONT]).remoteSide.enabled = true := by
  refine ⟨fun h => ?_, rfl⟩
  have hlast := (h [.receiveNegotiate TelnetCode.WILL] (.receiveNegotiate TelnetCode.WONT) [] rfl
    .remoteSide).1.mp rfl
  exact not_lastAsks_refuses .remoteSide [.receiveNegotiate TelnetCode.WILL] hlast

end TelnetOption

end ForgeMush
