import ForgeMush.Nesting

/-!
Decoding does the same wherever the new markups come to stand, and whatever the string had before.

A scan that starts with other markups on the heap, and with something in the string already,
goes through the same states, its markups moved up by as many places as there were markups.
-/

namespace ForgeMush

/-- The markup with its pointers renamed. -/
def Markup.rename (ρ : ShMarkup → ShMarkup) (k : Markup) : Markup :=
  { k with parent := k.parent.map ρ }

/-- The entries of an index with their pointers renamed. -/
def renameIdx (ρ : ShMarkup → ShMarkup) (idx : List (OpMarkup × UInt8)) :
    List (OpMarkup × UInt8) :=
  idx.map fun e => (e.1.map ρ, e.2)

/-- The pointer behind `n` other markups. -/
def moved (n : ℕ) (mark : ShMarkup) : ShMarkup := n + mark

lemma renameIdx_plainIdx (ρ : ShMarkup → ShMarkup) (s : Bytes) :
    renameIdx ρ (plainIdx s) = plainIdx s := by
  simp [renameIdx, plainIdx]

namespace Scanner

/-- The heap behind the markups of `h`. -/
def moveHeap (h heap : Markups) : Markups := h ++ heap.map (Markup.rename (moved h.length))

/-- The string behind what `pre` holds, with its markups behind those of `h`. -/
def moveString (h : Markups) (pre m : MarkupString) : MarkupString where
  text := pre.text ++ m.text
  source := m.source
  markup := pre.markup ++ m.markup.map (moved h.length)
  idx := pre.idx ++ renameIdx (moved h.length) m.idx

namespace Decoder

def move (h : Markups) (pre : MarkupString) (d : Decoder) : Decoder where
  state := d.state
  heap := moveHeap h d.heap
  string := moveString h pre d.string
  mstack := d.mstack.map (moved h.length)
  current := d.current.map (moved h.length)

end Decoder

/-- A rejection leaves nothing of the string. -/
def Exit.move (h : Markups) : Exit → Exit
  | .rejected heap m => .rejected (moveHeap h heap) m
  | .fault f => .fault f

/-- How a scan ends behind `h` and `pre`. -/
def moveResult (h : Markups) (pre : MarkupString) : Except Exit Decoder → Except Exit Decoder
  | .ok d => .ok (d.move h pre)
  | .error x => .error (x.move h)

/-- In an opening tag its markup has been listed. -/
def Decoder.Listed (d : Decoder) : Prop := d.state = .opening → d.string.markup ≠ []

variable {h heap : Markups} {pre : MarkupString} {d d' : Decoder} {c : UInt8}

lemma getElem?_moveHeap (h heap : Markups) (mark : ShMarkup) :
    (moveHeap h heap)[moved h.length mark]? =
      heap[mark]?.map (Markup.rename (moved h.length)) := by
  unfold moveHeap moved
  rw [List.getElem?_append_right (Nat.le_add_right _ _), Nat.add_sub_cancel_left,
    List.getElem?_map]

lemma length_moveHeap (h heap : Markups) :
    (moveHeap h heap).length = moved h.length heap.length := by
  simp [moveHeap, moved]

lemma moveHeap_snoc (h heap : Markups) (k : Markup) :
    moveHeap h (heap ++ [k]) = moveHeap h heap ++ [k.rename (moved h.length)] := by
  simp [moveHeap]

lemma modify_append (h l : Markups) (i : ℕ) (f : Markup → Markup) :
    (h ++ l).modify (h.length + i) f = h ++ l.modify i f := by
  induction h with
  | nil => simp
  | cons k h ih =>
      rw [List.length_cons, Nat.succ_add, List.cons_append, List.modify_succ_cons, ih,
        List.cons_append]

lemma map_modify {f g : Markup → Markup} (hfg : ∀ k, g (f k) = f (g k)) (l : Markups) (i : ℕ) :
    (l.modify i f).map g = (l.map g).modify i f := by
  induction l generalizing i with
  | nil => simp
  | cons k l ih =>
      cases i with
      | zero => simp [hfg]
      | succ i => simp [ih]

lemma modify_moveHeap (h heap : Markups) (mark : ShMarkup) {f : Markup → Markup}
    (hf : ∀ k ρ, (f k).rename ρ = f (k.rename ρ)) :
    (moveHeap h heap).modify (moved h.length mark) f = moveHeap h (heap.modify mark f) := by
  unfold moveHeap
  rw [moved, modify_append, map_modify fun k => hf k _]

lemma close_move : close (d.move h pre) = moveResult h pre (close d) := by
  obtain ⟨state, heap, string, mstack, current⟩ := d
  cases current with
  | none => rfl
  | some mark =>
      have hcheck : (moveHeap h heap)[moved h.length mark]?.bind Markup.validate =
          heap[mark]?.bind Markup.validate := by
        rw [getElem?_moveHeap]
        cases heap[mark]? <;> rfl
      simp only [close, Decoder.move, Option.map_some, hcheck]
      cases heap[mark]?.bind Markup.validate with
      | some errmsg => rfl
      | none => cases mstack <;> rfl

/-- **One turn** behind other markups. -/
lemma step_move (hd : d.Listed) (c : UInt8) :
    step (d.move h pre) c = moveResult h pre (step d c) := by
  obtain ⟨state, heap, string, mstack, current⟩ := d
  cases state with
  | outside =>
      simp only [step, Decoder.move]
      split_ifs
      · rfl
      · simp [moveResult, Decoder.move, moveString, renameIdx]
  | start => rfl
  | inside tag =>
      simp only [step, Decoder.move]
      split_ifs
      · rfl
      · have hnew : (Markup.new tag).parent = none := by
          unfold Markup.new
          split_ifs <;> rfl
        cases current <;>
          simp [moveResult, Decoder.move, moveHeap_snoc, length_moveHeap, moveString, Markup.rename,
            Markup.setParent, hnew]
  | opening =>
      have hlisted : string.markup ≠ [] := hd rfl
      have hlast : (moveString h pre string).markup.getLast? =
          string.markup.getLast?.map (moved h.length) := by
        cases hback : string.markup.getLast? with
        | none => exact absurd (List.getLast?_eq_none_iff.mp hback) hlisted
        | some back => simp [moveString, hback]
      simp only [step, Decoder.move, hlast]
      split_ifs
      · rfl
      · cases string.markup.getLast? with
        | none => rfl
        | some back =>
            simp only [Option.map_some, moveResult, Decoder.move]
            rw [modify_moveHeap _ _ _ fun _ _ => rfl]
  | closing =>
      by_cases hc : c = TAG_END
      · simp only [step, Decoder.move, hc, if_true]
        exact close_move (d := ⟨.closing, heap, string, mstack, current⟩)
      · simp only [step, Decoder.move, hc, if_false]
        cases mstack with
        | nil => rfl
        | cons back mstack =>
            simp only [List.map_cons, moveResult, Decoder.move]
            rw [modify_moveHeap _ _ _ fun _ _ => rfl]

lemma Decoder.Listed.step (hd : d.Listed) (hstep : Scanner.step d c = .ok d') : d'.Listed := by
  obtain ⟨state, heap, string, mstack, current⟩ := d
  intro hopening
  cases state with
  | closing =>
      simp only [Scanner.step] at hstep
      split_ifs at hstep
      · obtain ⟨back, mstack, -, rfl⟩ := close_ok hstep
        cases hopening
      · split at hstep <;> cases hstep
        cases hopening
  | opening =>
      have hmarkup : string.markup ≠ [] := hd rfl
      rcases step_ok hstep with heq | ⟨-, heq⟩ | ⟨mark, heq⟩ <;> simp [heq, hmarkup]
  | inside tag =>
      simp only [Scanner.step] at hstep
      split_ifs at hstep
      · cases hstep
        cases hopening
      · cases hstep
        simp
  | outside =>
      simp only [Scanner.step] at hstep
      split_ifs at hstep <;> cases hstep <;> cases hopening
  | start =>
      cases hstep
      cases hopening

lemma run_move (hd : d.Listed) (s : Bytes) :
    run (d.move h pre) s = moveResult h pre (run d s) := by
  induction s generalizing d with
  | nil => rfl
  | cons c s ih =>
      rw [run_cons, run_cons, step_move hd]
      cases hstep : step d c with
      | ok d' => exact ih (hd.step hstep)
      | error x => rfl

end Scanner

/-- How a call ends behind the markups of `h`, where `pre` is left in the string. -/
def Outcome.move (h : Markups) (pre : MarkupString) : Outcome → Outcome
  | .returned true heap m => .returned true (Scanner.moveHeap h heap) (Scanner.moveString h pre m)
  | .returned false heap m => .returned false (Scanner.moveHeap h heap) m
  | .fault f => .fault f

/-- **Decoding** does what it does in a fresh string with nothing on the heap, behind what is
there. -/
theorem MarkupString.decodeMarkup_move (m : MarkupString) (heap : Markups) (src : Bytes) :
    m.decodeMarkup heap src = (decodeMarkup {} [] src).move heap m.reset := by
  have hlisted : Scanner.Decoder.Listed { heap := [], string := { source := src } } :=
    fun h => nomatch h
  have hstart : ({ heap := heap, string := { m.reset with source := src } } : Scanner.Decoder) =
      Scanner.Decoder.move heap m.reset { heap := [], string := { source := src } } := by
    simp [Scanner.Decoder.move, Scanner.moveHeap, Scanner.moveString, renameIdx]
  have hrun : Scanner.run (Scanner.Decoder.move heap m.reset
      { heap := [], string := { source := src } }) src = Scanner.moveResult heap m.reset
        (Scanner.run { heap := [], string := { source := src } } src) :=
    Scanner.run_move hlisted src
  rw [← hstart] at hrun
  cases hfresh : decodeMarkup {} [] src with
  | fault x =>
      have hfault : Scanner.run { heap := [], string := { source := src } } src =
          .error (.fault x) := decodeMarkup_eq_fault.mp hfresh
      rw [hfault] at hrun
      exact decodeMarkup_eq_fault.mpr hrun
  | returned result heap' m' =>
      cases result with
      | true =>
          obtain ⟨d, hd, rfl, rfl⟩ := decodeMarkup_eq_true.mp hfresh
          have hok : Scanner.run { heap := [], string := { source := src } } src = .ok d := hd
          rw [hok] at hrun
          exact decodeMarkup_eq_true.mpr ⟨_, hrun, rfl, rfl⟩
      | false =>
          have hrejected : Scanner.run { heap := [], string := { source := src } } src =
              .error (.rejected heap' m') := decodeMarkup_eq_false.mp hfresh
          rw [hrejected] at hrun
          exact decodeMarkup_eq_false.mpr hrun

/-! ### Strings that differ in the names of their markups -/

/-- The markup can be reached from the string. -/
inductive Reaches (heap : Markups) (m : MarkupString) : ShMarkup → Prop
  | markup {mark : ShMarkup} (h : mark ∈ m.markup) : Reaches heap m mark
  | idx {mark : ShMarkup} {c : UInt8} (h : (some mark, c) ∈ m.idx) : Reaches heap m mark
  | parent {mark parent : ShMarkup} {k : Markup} (h : Reaches heap m mark)
    (hk : heap[mark]? = some k) (hparent : k.parent = some parent) : Reaches heap m parent

/-- `m'` is `m` with the markups renamed, and so is what they point to. -/
structure Renames (ρ : ShMarkup → ShMarkup) (heap : Markups) (m : MarkupString)
    (heap' : Markups) (m' : MarkupString) : Prop where
  text : m'.text = m.text
  source : m'.source = m.source
  markup : m'.markup = m.markup.map ρ
  idx : m'.idx = renameIdx ρ m.idx
  inj : ∀ i j, Reaches heap m i → Reaches heap m j → ρ i = ρ j → i = j
  heap : ∀ i, Reaches heap m i → heap'[ρ i]? = heap[i]?.map (Markup.rename ρ)

/-- The same up to the names of the markups. -/
def Same (heap : Markups) (m : MarkupString) (heap' : Markups) (m' : MarkupString) : Prop :=
  ∃ ρ, Renames ρ heap m heap' m'

lemma exists_moved_of_reaches {h heap : Markups} {m : MarkupString} {mark : ShMarkup}
    (hmark : Reaches (Scanner.moveHeap h heap) (Scanner.moveString h {} m) mark) :
    ∃ i, mark = moved h.length i := by
  induction hmark with
  | markup hmem =>
      obtain ⟨i, -, rfl⟩ := List.mem_map.mp hmem
      exact ⟨i, rfl⟩
  | idx hmem =>
      obtain ⟨⟨o, c⟩, -, heq⟩ := List.mem_map.mp hmem
      obtain ⟨i, -, rfl⟩ := Option.map_eq_some_iff.mp (Prod.mk.inj heq).1
      exact ⟨i, rfl⟩
  | parent _ hk hparent ih =>
      obtain ⟨i, rfl⟩ := ih
      rw [Scanner.getElem?_moveHeap] at hk
      obtain ⟨k, -, rfl⟩ := Option.map_eq_some_iff.mp hk
      obtain ⟨j, -, rfl⟩ := Option.map_eq_some_iff.mp hparent
      exact ⟨j, rfl⟩

lemma renameIdx_renameIdx (σ ρ : ShMarkup → ShMarkup) (idx : List (OpMarkup × UInt8)) :
    renameIdx σ (renameIdx ρ idx) = renameIdx (σ ∘ ρ) idx := by
  simp [renameIdx]

lemma rename_comp_rename (σ ρ : ShMarkup → ShMarkup) :
    Markup.rename σ ∘ Markup.rename ρ = Markup.rename (σ ∘ ρ) := by
  funext k
  simp [Markup.rename]

/-- **The place on the heap** makes no difference. -/
lemma same_move (h h' heap : Markups) (m : MarkupString) :
    Same (Scanner.moveHeap h heap) (Scanner.moveString h {} m)
      (Scanner.moveHeap h' heap) (Scanner.moveString h' {} m) := by
  obtain ⟨ρ, hρ⟩ : ∃ ρ, ρ ∘ moved h.length = moved h'.length :=
    ⟨fun mark => moved h'.length (mark - h.length), by funext i; simp [moved]⟩
  have hplace : ∀ i, ρ (moved h.length i) = moved h'.length i := congrFun hρ
  refine ⟨ρ, rfl, rfl, ?_, ?_, ?_, ?_⟩
  · simp [Scanner.moveString, hρ]
  · have hidx : ∀ l : Markups, (Scanner.moveString l {} m).idx = renameIdx (moved l.length) m.idx :=
      fun _ => rfl
    rw [hidx, hidx, renameIdx_renameIdx, hρ]
  · intro i j hi hj heq
    obtain ⟨i, rfl⟩ := exists_moved_of_reaches hi
    obtain ⟨j, rfl⟩ := exists_moved_of_reaches hj
    rw [hplace, hplace] at heq
    simpa [moved] using heq
  · intro i hi
    obtain ⟨i, rfl⟩ := exists_moved_of_reaches hi
    rw [hplace, Scanner.getElem?_moveHeap, Scanner.getElem?_moveHeap, Option.map_map,
      rename_comp_rename, hρ]

end ForgeMush
