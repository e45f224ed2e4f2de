import ForgeMush.Duplex

/-!
One side of one option, by itself: what the negotiation is for.

The two ends of the side play the same part. An end that wants the side open asks for it; an
end that is asked agrees, refuses, or takes the request for the answer to its own. A message
is `true` if it asks or agrees and `false` if it refuses.
-/

namespace ForgeMush

open Runs

/-- One end of a side. -/
structure Half where
  starts : Bool
  supports : Bool
  begun : Bool := false
  negotiating : Bool := false
  enabled : Bool := false

namespace Half

def start (h : Half) : Option (Half × List Bool) :=
  if h.begun then none
  else some ({ h with begun := true, negotiating := h.starts || h.negotiating },
    if h.starts then [true] else [])

def receive (h : Half) (m : Bool) : Half × List Bool :=
  if m then
    if h.supports then
      ({ h with negotiating := false, enabled := true }, if h.negotiating then [] else [true])
    else (h, [false])
  else ({ h with negotiating := false }, [])

def party : Duplex.Party Half Bool where
  start := start
  deliver := receive

/-- The end has not said anything. -/
structure Silent (h : Half) : Prop where
  coherent : h.starts = true → h.supports = true
  negotiating : h.negotiating = false
  enabled : h.enabled = false
  begun : h.begun = true → h.starts = false

/-- The end has asked and not been answered. -/
structure Waiting (h : Half) : Prop where
  begun : h.begun = true
  starts : h.starts = true
  supports : h.supports = true
  negotiating : h.negotiating = true
  enabled : h.enabled = false

/-- The end is done, with the side open or not. -/
structure Settled (h : Half) (enabled : Bool) : Prop where
  begun : h.begun = true
  negotiating : h.negotiating = false
  enabled : h.enabled = enabled

/-- How far the two ends have got. -/
inductive Stage : Duplex.State Half Bool → Prop
  | idle {s} (hl : s.left.Silent) (hr : s.right.Silent)
      (hto : s.toRight = []) (hfrom : s.toLeft = []) : Stage s
  | offered {s} (hl : s.left.Waiting) (hr : s.right.Silent)
      (hto : s.toRight = [true]) (hfrom : s.toLeft = []) : Stage s
  | answered {s} (hl : s.left.Waiting) (hr : s.right.Settled s.right.supports)
      (hto : s.toRight = []) (hfrom : s.toLeft = [s.right.supports]) : Stage s
  | crossed {s} (hl : s.left.Waiting) (hr : s.right.Waiting)
      (hto : s.toRight = [true]) (hfrom : s.toLeft = [true]) : Stage s
  | halfCrossed {s} (hl : s.left.Settled true) (hl' : s.left.supports = true)
      (hr : s.right.Waiting) (hto : s.toRight = [true]) (hfrom : s.toLeft = []) : Stage s
  | settled {s} (hl : s.left.Settled (s.left.supports && s.right.supports))
      (hr : s.right.Settled (s.left.supports && s.right.supports))
      (hstarts : (s.left.starts || s.right.starts) = true)
      (hto : s.toRight = []) (hfrom : s.toLeft = []) : Stage s
  | swap {s} (h : Stage s.swap) : Stage s

lemma start_eq_none_of_begun {h : Half} (hb : h.begun = true) : party.start h = none := by
  simp [party, start, hb]

lemma start_cases {h k : Half} {out : List Bool} (hs : party.start h = some (k, out)) :
    h.begun = false ∧ k = { h with begun := true, negotiating := h.starts || h.negotiating } ∧
      out = if h.starts then [true] else [] := by
  simp only [party, start] at hs
  split_ifs at hs with hb
  · cases hs
    simp_all
  · cases hs
    simp_all

/-! ### One end -/

lemma Silent.asks {h : Half} (hs : h.Silent) (hstarts : h.starts = true) :
    ({ h with begun := true, negotiating := h.starts || h.negotiating } : Half).Waiting :=
  ⟨rfl, hstarts, hs.coherent hstarts, by simp [hstarts], hs.enabled⟩

lemma Silent.passes {h : Half} (hs : h.Silent) (hstarts : h.starts = false) :
    ({ h with begun := true, negotiating := h.starts || h.negotiating } : Half).Silent :=
  ⟨hs.coherent, by simp [hstarts, hs.negotiating], hs.enabled, fun _ => hstarts⟩

lemma Silent.receive {h : Half} (hs : h.Silent) (hb : h.begun = true) :
    (h.receive true).1.Settled h.supports ∧ (h.receive true).2 = [h.supports] ∧
      (h.receive true).1.supports = h.supports ∧ (h.receive true).1.starts = h.starts := by
  cases hsup : h.supports with
  | true =>
      simp only [Half.receive, hsup, hs.negotiating]
      exact ⟨⟨hb, rfl, rfl⟩, by simp, rfl, rfl⟩
  | false =>
      simp only [Half.receive, hsup]
      exact ⟨⟨hb, hs.negotiating, hs.enabled⟩, by simp, hsup, rfl⟩

lemma Waiting.receive {h : Half} (hw : h.Waiting) (m : Bool) :
    (h.receive m).1.Settled m ∧ (h.receive m).2 = [] ∧
      (h.receive m).1.supports = true ∧ (h.receive m).1.starts = true := by
  cases m with
  | true =>
      simp only [Half.receive, hw.supports, hw.negotiating, if_true]
      exact ⟨⟨hw.begun, rfl, rfl⟩, trivial, trivial, hw.starts⟩
  | false =>
      simp only [Half.receive]
      exact ⟨⟨hw.begun, rfl, hw.enabled⟩, by simp, hw.supports, hw.starts⟩

/-! ### Both ends -/

variable {s t : Duplex.State Half Bool}

lemma not_startStep (hb : s.left.begun = true) : ¬ Duplex.StartStep party s t := by
  rintro ⟨k, out, hk, -⟩
  rw [start_eq_none_of_begun hb] at hk
  cases hk

lemma not_deliverStep (hnil : s.toLeft = []) : ¬ Duplex.DeliverStep party s t := by
  rintro ⟨-, m, rest, hm, -⟩
  rw [hnil] at hm
  cases hm

lemma Stage.start_idle (hl : s.left.Silent) (hr : s.right.Silent) (hto : s.toRight = [])
    (hfrom : s.toLeft = []) (h : Duplex.StartStep party s t) : Stage t := by
  obtain ⟨k, out, hk, rfl⟩ := h
  obtain ⟨-, rfl, rfl⟩ := start_cases hk
  cases hstarts : s.left.starts with
  | true => exact .offered (hstarts ▸ hl.asks hstarts) hr (by simp [hto]) hfrom
  | false => exact .idle (hstarts ▸ hl.passes hstarts) hr (by simp [hto]) hfrom

lemma Stage.start_offered (hl : s.left.Silent) (hr : s.right.Waiting) (hto : s.toRight = [])
    (hfrom : s.toLeft = [true]) (h : Duplex.StartStep party s t) : Stage t := by
  obtain ⟨k, out, hk, rfl⟩ := h
  obtain ⟨-, rfl, rfl⟩ := start_cases hk
  cases hstarts : s.left.starts with
  | true => exact .crossed (hstarts ▸ hl.asks hstarts) hr (by simp [hto]) hfrom
  | false => exact .swap (.offered hr (hstarts ▸ hl.passes hstarts) hfrom
      (by simp [Duplex.State.swap, hto]))

/-- The end on the left is asked before it has asked itself. -/
lemma Stage.deliver_offered (hl : s.left.Silent) (hr : s.right.Waiting) (hto : s.toRight = [])
    (hfrom : s.toLeft = [true]) (h : Duplex.DeliverStep party s t) : Stage t := by
  obtain ⟨hbegun, m, rest, hm, rfl⟩ := h
  rw [hfrom] at hm
  cases hm
  have hb : s.left.begun = true := by
    simpa [party, Half.start] using hbegun
  obtain ⟨hsettled, hout, hsupports, -⟩ := hl.receive hb
  refine .swap (.answered hr ?_ rfl ?_)
  · show (s.left.receive true).1.Settled (s.left.receive true).1.supports
    rwa [hsupports]
  · show s.toRight ++ (s.left.receive true).2 = [(s.left.receive true).1.supports]
    rw [hto, hout, hsupports]
    rfl

lemma Stage.deliver_answered (hl : s.left.Waiting) (hr : s.right.Settled s.right.supports)
    (hto : s.toRight = []) (hfrom : s.toLeft = [s.right.supports])
    (h : Duplex.DeliverStep party s t) : Stage t := by
  obtain ⟨-, m, rest, hm, rfl⟩ := h
  rw [hfrom] at hm
  cases hm
  obtain ⟨hsettled, hout, hsupports, hstarts⟩ := hl.receive s.right.supports
  refine .settled ?_ ?_ ?_ ?_ rfl
  · show (s.left.receive _).1.Settled ((s.left.receive _).1.supports && s.right.supports)
    rwa [hsupports, Bool.true_and]
  · show s.right.Settled ((s.left.receive _).1.supports && s.right.supports)
    rwa [hsupports, Bool.true_and]
  · show ((s.left.receive _).1.starts || s.right.starts) = true
    rw [hstarts, Bool.true_or]
  · show s.toRight ++ (s.left.receive _).2 = []
    rw [hto, hout]
    rfl

/-- The requests of both ends crossed: each takes the other's for the answer. -/
lemma Stage.deliver_crossed (hl : s.left.Waiting) (hr : s.right.Waiting)
    (hto : s.toRight = [true]) (hfrom : s.toLeft = [true])
    (h : Duplex.DeliverStep party s t) : Stage t := by
  obtain ⟨-, m, rest, hm, rfl⟩ := h
  rw [hfrom] at hm
  cases hm
  obtain ⟨hsettled, hout, hsupports, -⟩ := hl.receive true
  refine .halfCrossed hsettled hsupports hr ?_ rfl
  show s.toRight ++ (s.left.receive true).2 = [true]
  rw [hto, hout]
  rfl

lemma Stage.deliver_halfCrossed (hl : s.left.Waiting) (hr : s.right.Settled true)
    (hr' : s.right.supports = true) (hto : s.toRight = []) (hfrom : s.toLeft = [true])
    (h : Duplex.DeliverStep party s t) : Stage t := by
  obtain ⟨-, m, rest, hm, rfl⟩ := h
  rw [hfrom] at hm
  cases hm
  obtain ⟨hsettled, hout, hsupports, hstarts⟩ := hl.receive true
  refine .settled ?_ ?_ ?_ ?_ rfl
  · show (s.left.receive true).1.Settled ((s.left.receive true).1.supports && s.right.supports)
    rwa [hsupports, hr']
  · show s.right.Settled ((s.left.receive true).1.supports && s.right.supports)
    rwa [hsupports, hr']
  · show ((s.left.receive true).1.starts || s.right.starts) = true
    rw [hstarts, Bool.true_or]
  · show s.toRight ++ (s.left.receive true).2 = []
    rw [hto, hout]
    rfl

/-- **Starts**, at either end. -/
theorem Stage.start (h : Stage s) :
    (∀ t, Duplex.StartStep party s t → Stage t) ∧
      ∀ t, Duplex.StartStep party s.swap t → Stage t := by
  induction h with
  | idle hl hr hto hfrom =>
      exact ⟨fun t => start_idle hl hr hto hfrom, fun t => start_idle hr hl hfrom hto⟩
  | offered hl hr hto hfrom =>
      exact ⟨fun t h => absurd h (not_startStep hl.begun),
        fun t => start_offered hr hl hfrom hto⟩
  | answered hl hr hto hfrom =>
      exact ⟨fun t h => absurd h (not_startStep hl.begun),
        fun t h => absurd h (not_startStep hr.begun)⟩
  | crossed hl hr hto hfrom =>
      exact ⟨fun t h => absurd h (not_startStep hl.begun),
        fun t h => absurd h (not_startStep hr.begun)⟩
  | halfCrossed hl hl' hr hto hfrom =>
      exact ⟨fun t h => absurd h (not_startStep hl.begun),
        fun t h => absurd h (not_startStep hr.begun)⟩
  | settled hl hr hstarts hto hfrom =>
      exact ⟨fun t h => absurd h (not_startStep hl.begun),
        fun t h => absurd h (not_startStep hr.begun)⟩
  | swap h ih => exact ih.symm

/-- **Deliveries**, at either end. -/
theorem Stage.deliver (h : Stage s) :
    (∀ t, Duplex.DeliverStep party s t → Stage t) ∧
      ∀ t, Duplex.DeliverStep party s.swap t → Stage t := by
  induction h with
  | idle hl hr hto hfrom =>
      exact ⟨fun t h => absurd h (not_deliverStep hfrom),
        fun t h => absurd h (not_deliverStep hto)⟩
  | offered hl hr hto hfrom =>
      exact ⟨fun t h => absurd h (not_deliverStep hfrom),
        fun t => deliver_offered hr hl hfrom hto⟩
  | answered hl hr hto hfrom =>
      exact ⟨fun t => deliver_answered hl hr hto hfrom,
        fun t h => absurd h (not_deliverStep hto)⟩
  | crossed hl hr hto hfrom =>
      exact ⟨fun t => deliver_crossed hl hr hto hfrom,
        fun t => deliver_crossed hr hl hfrom hto⟩
  | halfCrossed hl hl' hr hto hfrom =>
      exact ⟨fun t h => absurd h (not_deliverStep hfrom),
        fun t => deliver_halfCrossed hr hl hl' hfrom hto⟩
  | settled hl hr hstarts hto hfrom =>
      exact ⟨fun t h => absurd h (not_deliverStep hfrom),
        fun t h => absurd h (not_deliverStep hto)⟩
  | swap h ih => exact ih.symm

/-- **The handshake keeps to its stages.** -/
theorem Stage.step {e : Duplex.Event} (h : Stage s) (hstep : Duplex.Step party s e t) :
    Stage t :=
  Duplex.step_invariant (fun _ hs => .swap hs) (fun _ t hs => hs.start.1 t)
    (fun _ t hs => hs.deliver.1 t) h hstep

/-- What the ends agree on. -/
def Agreed (l r : Half) : Prop :=
  (l.negotiating = false ∧ r.negotiating = false) ∧
    l.enabled = (l.supports && r.supports && (l.starts || r.starts)) ∧
    r.enabled = (l.supports && r.supports && (l.starts || r.starts))

/-- **Agreement**: once both ends have begun and no message is in flight, the side is open
at both if both support it and one of them starts, and else at neither. -/
theorem Stage.agreed (h : Stage s) (hl : s.left.begun = true) (hr : s.right.begun = true)
    (hto : s.toRight = []) (hfrom : s.toLeft = []) : Agreed s.left s.right := by
  induction h with
  | idle hsl hsr _ _ =>
      simp [Agreed, hsl.negotiating, hsr.negotiating, hsl.enabled, hsr.enabled, hsl.begun hl,
        hsr.begun hr]
  | offered _ _ hto' _ => simp [hto] at hto'
  | answered _ _ _ hfrom' => simp [hfrom] at hfrom'
  | crossed _ _ hto' _ => simp [hto] at hto'
  | halfCrossed _ _ _ hto' _ => simp [hto] at hto'
  | settled hsl hsr hstarts _ _ =>
      refine ⟨⟨hsl.negotiating, hsr.negotiating⟩, ?_, ?_⟩
      · rw [hsl.enabled, hstarts, Bool.and_true]
      · rw [hsr.enabled, hstarts, Bool.and_true]
  | @swap s h ih =>
      obtain ⟨hneg, hright, hleft⟩ := ih hr hl hfrom hto
      have hcomm : (s.swap.left.supports && s.swap.right.supports &&
          (s.swap.left.starts || s.swap.right.starts)) =
          (s.left.supports && s.right.supports && (s.left.starts || s.right.starts)) := by
        simp only [Duplex.State.swap]
        rw [Bool.and_comm s.right.supports, Bool.or_comm s.right.starts]
      exact ⟨hneg.symm, hleft.trans hcomm, hright.trans hcomm⟩

end Half

end ForgeMush
