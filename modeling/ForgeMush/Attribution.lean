import ForgeMush.Nesting

/-!
What the characters and the tags of a well-nested source are attributed to.

Every character is entered into `idx` without markup, and the parent of a tag is the tag opened
or closed last before it.
-/

namespace ForgeMush

/-! ### Characters -/

namespace Source

/-- Each character with the innermost tag open there, where the next tag is the `n`-th. -/
def innermost : Source → ℕ → OpMarkup → List (OpMarkup × UInt8)
  | nil, _, _ => []
  | char c _ rest, n, around => (around, c) :: rest.innermost n around
  | element _ body _ rest, n, around =>
    body.innermost (n + 1) (some n) ++ rest.innermost (n + 1 + body.count) around

def enclosed : Source → Bytes
  | nil => []
  | char _ _ rest => rest.enclosed
  | element _ body _ rest => body.text ++ rest.enclosed

lemma map_snd_innermost (f : Source) (n : ℕ) (around : OpMarkup) :
    (f.innermost n around).map Prod.snd = f.text := by
  induction f generalizing n around with
  | nil => rfl
  | char c _ rest ih => simp [innermost, text, ih]
  | element o body e rest ihbody ihrest => simp [innermost, text, ihbody, ihrest]

lemma innermost_ne_none (f : Source) (n k : ℕ) : ∀ x ∈ f.innermost n (some k), x.1 ≠ none := by
  induction f generalizing n k with
  | nil => simp [innermost]
  | char c _ rest ih =>
      intro x hx
      rcases List.mem_cons.mp hx with rfl | hx
      · simp
      · exact ih n k x hx
  | element o body e rest ihbody ihrest =>
      intro x hx
      rcases List.mem_append.mp hx with hx | hx
      · exact ihbody _ _ x hx
      · exact ihrest _ _ x hx

lemma length_innermost (f : Source) (n : ℕ) (around : OpMarkup) :
    (f.innermost n around).length = (plainIdx f.text).length := by
  rw [plainIdx, List.length_map, ← f.map_snd_innermost n around, List.length_map]

lemma innermost_some_iff (f : Source) (n k : ℕ) :
    plainIdx f.text = f.innermost n (some k) ↔ f.text = [] := by
  constructor
  · intro h
    by_contra hne
    obtain ⟨c, l, hcl⟩ := List.exists_cons_of_ne_nil hne
    have hmem : (none, c) ∈ f.innermost n (some k) := by
      rw [← h, hcl]
      exact List.mem_cons_self
    exact f.innermost_ne_none n k _ hmem rfl
  · intro h
    have hlen := f.length_innermost n (some k)
    rw [h] at hlen ⊢
    exact (List.length_eq_zero_iff.mp hlen).symm

lemma innermost_none_iff (f : Source) (n : ℕ) :
    plainIdx f.text = f.innermost n none ↔ f.enclosed = [] := by
  induction f generalizing n with
  | nil => exact ⟨fun _ => rfl, fun _ => rfl⟩
  | char c _ rest ih =>
      rw [enclosed, ← ih n]
      simp [text, innermost, plainIdx]
  | element o body e rest _ ih =>
      have hsplit : plainIdx (text (.element o body e rest)) =
          plainIdx body.text ++ plainIdx rest.text := List.map_append
      rw [hsplit, innermost, enclosed, List.append_eq_nil_iff, ← ih (n + 1 + body.count),
        ← body.innermost_some_iff (n + 1) n]
      constructor
      · exact fun h => List.append_inj h (body.length_innermost _ _).symm
      · rintro ⟨hbody, hrest⟩
        rw [← hbody, ← hrest]

end Source

/-- The call returns, and each entry of `idx` carries the markup of the innermost tag open at
its character, or none if no tag is open there. -/
def Outcome.Attributes (f : Source) (n : ℕ) : Outcome → Prop
  | .returned _ _ m => m.idx = f.innermost n none
  | .fault _ => False

namespace MarkupString

variable {f : Source}

lemma checks_accepted (hopens : ∀ o ∈ f.opens, o.validate = none) :
    ∀ o ∈ f.checks, o.validate = none :=
  fun o ho => hopens o (f.checks_subset ho)

/-- **Attribution**: the characters of a source whose start texts are all accepted get the
innermost markup exactly if none of them stands inside an element. -/
theorem attributes_iff_enclosed_nil (f : Source) (hopens : ∀ o ∈ f.opens, o.validate = none)
    (m : MarkupString) (heap : Markups) :
    (m.decodeMarkup heap f.bytes).Attributes f heap.length ↔ f.enclosed = [] := by
  rw [decodeMarkup_accepted (checks_accepted hopens)]
  exact f.innermost_none_iff heap.length

end MarkupString

/-- An element with the one-letter colour `first`. -/
def Source.color (first : UInt8) (opens : first ≠ '/'.toUInt8) (body rest : Source) : Source :=
  .element ⟨'c'.toUInt8, first, [], opens, by decide⟩ body ⟨'c'.toUInt8, [], by decide⟩ rest

def Source.red (body rest : Source) : Source := .color 'r'.toUInt8 (by decide) body rest

namespace MarkupString

def before : Source := .char 98 (by decide) (.red .nil .nil)

theorem character_before_attributed :
    (MarkupString.decodeMarkup {} [] before.bytes).Attributes before 0 :=
  (attributes_iff_enclosed_nil before (List.forall_mem_singleton.mpr (by decide)) {} []).mpr rfl

def inside : Source := .red (.char 97 (by decide) .nil) .nil

theorem character_inside_not_attributed :
    (∀ o ∈ inside.opens, o.validate = none) ∧
    ¬ (MarkupString.decodeMarkup {} [] inside.bytes).Attributes inside 0 := by
  refine ⟨List.forall_mem_singleton.mpr (by decide), fun h => ?_⟩
  have hentry : ([(none, 97)] : List (OpMarkup × UInt8)) = [(some 0, 97)] := h
  exact absurd hentry (by decide)

end MarkupString

/-! ### Tags -/

namespace Source

/-- The tags, each with those around it, the innermost first. -/
def paths : Source → ℕ → List ShMarkup → List (ShMarkup × List ShMarkup)
  | nil, _, _ => []
  | char _ _ rest, n, around => rest.paths n around
  | element _ body _ rest, n, around =>
    (n, around) :: (body.paths (n + 1) (n :: around) ++ rest.paths (n + 1 + body.count) around)

/-- No element stands beside another. -/
def Unbranched : Source → Prop
  | nil => True
  | char _ _ rest => rest.Unbranched
  | element _ body _ rest => body.Unbranched ∧ rest.count = 0

end Source

/-- Following parents from a markup lists just these. -/
inductive Lineage (heap : Markups) : ShMarkup → List ShMarkup → Prop
  | outermost {mark : ShMarkup} {k : Markup} (h : heap[mark]? = some k) (hk : k.parent = none) :
    Lineage heap mark []
  | inner {mark parent : ShMarkup} {k : Markup} {l : List ShMarkup} (h : heap[mark]? = some k)
    (hk : k.parent = some parent) (hl : Lineage heap parent l) :
    Lineage heap mark (parent :: l)

/-- Each tag has the tag directly around it for its parent, or none. -/
def ParentsRight (heap : Markups) (l : List (ShMarkup × List ShMarkup)) : Prop :=
  ∀ x ∈ l, ∃ k, heap[x.1]? = some k ∧ k.parent = x.2.head?

lemma parentsRight_append {heap : Markups} {l l' : List (ShMarkup × List ShMarkup)} :
    ParentsRight heap (l ++ l') ↔ ParentsRight heap l ∧ ParentsRight heap l' :=
  List.forall_mem_append

lemma parentsRight_cons {heap : Markups} {x : ShMarkup × List ShMarkup}
    {l : List (ShMarkup × List ShMarkup)} : ParentsRight heap (x :: l) ↔
      (∃ k, heap[x.1]? = some k ∧ k.parent = x.2.head?) ∧ ParentsRight heap l :=
  List.forall_mem_cons

lemma lineage_of_parentsRight {heap : Markups} (f : Source) {n : ℕ} {around : List ShMarkup}
    (h : ParentsRight heap (f.paths n around))
    (haround : ∀ mark l, around = mark :: l → Lineage heap mark l) :
    ∀ x ∈ f.paths n around, Lineage heap x.1 x.2 := by
  induction f generalizing n around with
  | nil => exact fun x hx => absurd hx List.not_mem_nil
  | char c _ rest ih => exact ih h haround
  | element o body e rest ihbody ihrest =>
      rw [Source.paths, parentsRight_cons, parentsRight_append] at h
      obtain ⟨⟨k, hk, hparent⟩, hbody, hrest⟩ := h
      have hown : Lineage heap n around := by
        cases around with
        | nil => exact .outermost hk hparent
        | cons mark l => exact .inner hk hparent (haround mark l rfl)
      intro x hx
      rcases List.mem_cons.mp hx with rfl | hx
      · exact hown
      rcases List.mem_append.mp hx with hx | hx
      · refine ihbody hbody (fun mark l hml => ?_) x hx
        cases hml
        exact hown
      · exact ihrest hrest haround x hx

namespace Source

lemma parentsRight_rest {l : Markups} {current : OpMarkup} {around : List ShMarkup}
    (f : Source) (hne : current ≠ around.head?) (heap : Markups)
    (h : ParentsRight (heap ++ f.tags heap.length current ++ l) (f.paths heap.length around)) :
    f.count = 0 := by
  induction f with
  | nil => rfl
  | char c _ rest ih => exact ih h
  | element o body e rest _ _ =>
      rw [paths, parentsRight_cons] at h
      obtain ⟨⟨k, hk, hparent⟩, -⟩ := h
      rw [List.append_assoc, List.getElem?_append_right le_rfl, Nat.sub_self] at hk
      cases hk
      exact absurd hparent hne

lemma paths_of_count_eq_zero {f : Source} (h : f.count = 0) (n : ℕ) (around : List ShMarkup) :
    f.paths n around = [] := by
  induction f with
  | nil => rfl
  | char c _ rest ih => exact ih h
  | element o body e rest _ _ =>
      unfold count at h
      omega

/-- **Parents** are right exactly if no element stands beside another. -/
lemma parentsRight_iff_unbranched (f : Source) {heap l : Markups} {around : List ShMarkup}
    (haround : ∀ mark ∈ around, mark < heap.length) :
    ParentsRight (heap ++ f.tags heap.length around.head? ++ l) (f.paths heap.length around) ↔
      f.Unbranched := by
  induction f generalizing heap l around with
  | nil => exact ⟨fun _ => trivial, fun _ x hx => absurd hx List.not_mem_nil⟩
  | char c _ rest ih => exact ih haround
  | element o body e rest ihbody ihrest =>
      rw [paths, parentsRight_cons, parentsRight_append, Unbranched]
      -- the heap as the body finds it, and as what follows the element does
      have hinside : ∀ mark ∈ heap.length :: around,
          mark < (heap ++ [{ o.markup around.head? with endText := e.text }]).length := by
        intro mark hmark
        simp only [List.length_append, List.length_singleton]
        rcases List.mem_cons.mp hmark with rfl | hmark
        · exact Nat.lt_succ_self _
        · exact Nat.lt_succ_of_lt (haround mark hmark)
      have hbody := ihbody hinside
        (l := rest.tags (heap.length + 1 + body.count) (some heap.length) ++ l)
      have hfirst : ∃ k, (heap ++ tags (.element o body e rest) heap.length around.head? ++ l)[
          heap.length]? = some k ∧ k.parent = around.head? := by
        rw [List.append_assoc, List.getElem?_append_right le_rfl, Nat.sub_self]
        exact ⟨_, rfl, rfl⟩
      have hne : some heap.length ≠ around.head? := by
        intro hhead
        have hmem := List.mem_of_head? hhead.symm
        exact absurd (haround _ hmem) (Nat.lt_irrefl _)
      have hrest := rest.parentsRight_rest (l := l) hne (heap ++ { o.markup around.head? with
        endText := e.text } :: body.tags (heap.length + 1) (some heap.length))
      rw [length_element] at hrest
      simp only [List.length_append, List.length_singleton, List.head?_cons, List.append_assoc,
        List.cons_append, List.nil_append, tags] at hbody hfirst hrest ⊢
      constructor
      · rintro ⟨-, hb, hr⟩
        exact ⟨hbody.mp hb, hrest hr⟩
      · rintro ⟨hb, hr⟩
        refine ⟨hfirst, hbody.mpr hb, ?_⟩
        rw [paths_of_count_eq_zero hr]
        exact fun x hx => absurd hx List.not_mem_nil

end Source

/-- The call returns, the parent of each tag's markup is that of the tag directly around it, and
following parents lists the tags around it. -/
def Outcome.BuildsTree (f : Source) (n : ℕ) : Outcome → Prop
  | .returned _ heap _ => ParentsRight heap (f.paths n []) ∧
    ∀ x ∈ f.paths n [], Lineage heap x.1 x.2
  | .fault _ => False

namespace MarkupString

/-- **The tree of markups**: it is that of the tags, for a source whose start texts are all
accepted, exactly if no element stands beside another. -/
theorem buildsTree_iff_unbranched (f : Source) (hopens : ∀ o ∈ f.opens, o.validate = none)
    (m : MarkupString) (heap : Markups) :
    (m.decodeMarkup heap f.bytes).BuildsTree f heap.length ↔ f.Unbranched := by
  have hparents : ParentsRight (heap ++ f.tags heap.length none ++ []) (f.paths heap.length []) ↔
      f.Unbranched :=
    f.parentsRight_iff_unbranched fun mark hmark => absurd hmark List.not_mem_nil
  rw [List.append_nil] at hparents
  rw [decodeMarkup_accepted (checks_accepted hopens), ← hparents]
  refine ⟨fun h => h.1, fun h => ⟨h, ?_⟩⟩
  exact lineage_of_parentsRight f h fun mark l hml => by cases hml

def nested : Source := .red (.red .nil .nil) .nil

theorem nested_builds_tree :
    (MarkupString.decodeMarkup {} [] nested.bytes).BuildsTree nested 0 := by
  have haccepted : ∀ o ∈ nested.opens, o.validate = none :=
    List.forall_mem_cons.mpr ⟨by decide, List.forall_mem_singleton.mpr (by decide)⟩
  exact (buildsTree_iff_unbranched nested haccepted {} []).mpr ⟨⟨trivial, rfl⟩, rfl⟩

def siblings : Source := .red .nil (.red .nil .nil)

/-- The second gets the first for its parent. -/
theorem siblings_do_not_build_tree :
    (∀ o ∈ siblings.opens, o.validate = none) ∧
    ¬ (MarkupString.decodeMarkup {} [] siblings.bytes).BuildsTree siblings 0 := by
  refine ⟨List.forall_mem_cons.mpr ⟨by decide, List.forall_mem_singleton.mpr (by decide)⟩,
    fun h => ?_⟩
  obtain ⟨k, hk, hparent⟩ := h.1 (1, []) (List.mem_cons_of_mem _ List.mem_cons_self)
  cases hk
  have hnone : some 0 = (none : OpMarkup) := hparent
  cases hnone

end MarkupString

end ForgeMush
