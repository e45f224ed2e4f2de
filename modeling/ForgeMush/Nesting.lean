import ForgeMush.Markup

/-!
Well-nested sources, and what the scanner makes of one.

A source is read here as the tree of its elements; `bytes` writes it out again. What the
scanner leaves is read off the tree: the text, the markups it constructs, where its pointer
`current` stands in the end, and which tags it has validated on the way.
-/

namespace ForgeMush

structure OpenTag where
  type : UInt8
  first : UInt8
  more : Bytes
  opens : first ≠ '/'.toUInt8
  ends : TAG_END ∉ more

structure CloseTag where
  type : UInt8
  text : Bytes
  ends : TAG_END ∉ text

namespace OpenTag

def text (o : OpenTag) : Bytes := o.first :: o.more

def bytes (o : OpenTag) : Bytes := TAG_START :: o.type :: o.text ++ [TAG_END]

/-- The markup that the tag makes, below `parent`. -/
def markup (o : OpenTag) (parent : OpMarkup) : Markup :=
  { Markup.new o.type with parent := parent, startText := o.text }

/-- The message for the start text, if it is not accepted. -/
def validate (o : OpenTag) : Option Bytes := (o.markup none).validate

end OpenTag

def CloseTag.bytes (e : CloseTag) : Bytes :=
  TAG_START :: e.type :: '/'.toUInt8 :: e.text ++ [TAG_END]

/-- Characters and elements, in any order and to any depth. -/
inductive Source
  | nil
  | char (c : UInt8) (plain : c ≠ TAG_START) (rest : Source)
  | element (o : OpenTag) (body : Source) (e : CloseTag) (rest : Source)

namespace Source

def bytes : Source → Bytes
  | nil => []
  | char c _ rest => c :: rest.bytes
  | element o body e rest => o.bytes ++ body.bytes ++ e.bytes ++ rest.bytes

/-- The source without its tags. -/
def text : Source → Bytes
  | nil => []
  | char c _ rest => c :: rest.text
  | element _ body _ rest => body.text ++ rest.text

/-- The number of elements. -/
def count : Source → ℕ
  | nil => 0
  | char _ _ rest => rest.count
  | element _ body _ rest => 1 + body.count + rest.count

/-- The opening tags, in order. -/
def opens : Source → List OpenTag
  | nil => []
  | char _ _ rest => rest.opens
  | element o body _ rest => o :: (body.opens ++ rest.opens)

/-! ### What the scanner leaves -/

/-- The pointer `current` after the source, when it was `current` before it and the next
markup is the `n`-th: the last element that is not inside another. -/
def last : Source → ℕ → OpMarkup → OpMarkup
  | nil, _, current => current
  | char _ _ rest, n, current => rest.last n current
  | element _ body _ rest, n, _ => rest.last (n + 1 + body.count) (some n)

/-- The tag that `last` points to, when it was `o` before. -/
def lastOpen : Source → Option OpenTag → Option OpenTag
  | nil, o => o
  | char _ _ rest, o => rest.lastOpen o
  | element o _ _ rest, _ => rest.lastOpen (some o)

/-- The markups constructed. Each has for its parent what `current` was. -/
def tags : Source → ℕ → OpMarkup → List Markup
  | nil, _, _ => []
  | char _ _ rest, n, current => rest.tags n current
  | element o body e rest, n, current =>
    { o.markup current with endText := e.text } ::
      (body.tags (n + 1) (some n) ++ rest.tags (n + 1 + body.count) (some n))

/-- The tags validated, in order. A closing tag has that one validated that was opened or
closed last before it, its own only if there is no element in between. -/
def checks : Source → List OpenTag
  | nil => []
  | char _ _ rest => rest.checks
  | element o body _ rest => body.checks ++ (body.lastOpen (some o)).toList ++ rest.checks

lemma lastOpen_some (f : Source) (o : OpenTag) : ∃ t, f.lastOpen (some o) = some t := by
  induction f generalizing o with
  | nil => exact ⟨o, rfl⟩
  | char c _ rest ih => exact ih o
  | element t body e rest _ ih => exact ih t

lemma lastOpen_mem {f : Source} {o t : OpenTag} (h : f.lastOpen (some o) = some t) :
    t = o ∨ t ∈ f.opens := by
  induction f generalizing o with
  | nil => exact Or.inl (Option.some.inj h).symm
  | char c _ rest ih => exact ih h
  | element u body e rest _ ih =>
      rcases ih h with rfl | hmem
      · exact Or.inr List.mem_cons_self
      · exact Or.inr (List.mem_cons_of_mem _ (List.mem_append_right _ hmem))

lemma checks_subset (f : Source) : f.checks ⊆ f.opens := by
  induction f with
  | nil => exact List.nil_subset _
  | char c _ rest ih => exact ih
  | element o body e rest ihbody ihrest =>
      intro t ht
      simp only [checks, List.mem_append, Option.mem_toList] at ht
      simp only [opens, List.mem_cons, List.mem_append]
      rcases ht with (hbody | hown) | hrest
      · exact Or.inr (Or.inl (ihbody hbody))
      · rcases lastOpen_mem hown with rfl | hmem
        · exact Or.inl rfl
        · exact Or.inr (Or.inl hmem)
      · exact Or.inr (Or.inr (ihrest hrest))

@[simp] lemma length_tags (f : Source) (n : ℕ) (current : OpMarkup) :
    (f.tags n current).length = f.count := by
  induction f generalizing n current with
  | nil => rfl
  | char c _ rest ih => exact ih n current
  | element o body e rest ihbody ihrest =>
      simp only [tags, count, List.length_cons, List.length_append, ihbody, ihrest]
      omega

lemma length_element (heap : Markups) (k : Markup) (body : Source) (n : ℕ) (current : OpMarkup) :
    (heap ++ k :: body.tags n current).length = heap.length + 1 + body.count := by
  rw [List.length_append, List.length_cons, length_tags]
  omega

end Source

namespace Scanner

/-- The scan of a stretch of a source. -/
def run (d : Decoder) (s : Bytes) : Except Exit Decoder := s.foldlM step d

@[simp] lemma run_nil (d : Decoder) : run d [] = .ok d := rfl

lemma run_cons (d : Decoder) (c : UInt8) (s : Bytes) :
    run d (c :: s) = (step d c).bind fun d' => run d' s := rfl

lemma run_cons_ok {d d' : Decoder} {c : UInt8} (h : step d c = .ok d') (s : Bytes) :
    run d (c :: s) = run d' s := by
  rw [run_cons, h]
  rfl

lemma run_append (d : Decoder) (s t : Bytes) :
    run d (s ++ t) = (run d s).bind fun d' => run d' t := List.foldlM_append

lemma run_append_ok {d d' : Decoder} {s : Bytes} (h : run d s = .ok d') (t : Bytes) :
    run d (s ++ t) = run d' t := by
  rw [run_append, h]
  rfl

lemma run_append_error {d : Decoder} {s : Bytes} {x : Exit} (h : run d s = .error x)
    (t : Bytes) : run d (s ++ t) = .error x := by
  rw [run_append, h]
  rfl

lemma run_append_eq_ok {d d' : Decoder} {s t : Bytes} (h : run d (s ++ t) = .ok d') :
    ∃ d₁, run d s = .ok d₁ ∧ run d₁ t = .ok d' := by
  rw [run_append] at h
  cases hs : run d s with
  | ok d₁ =>
      rw [hs] at h
      exact ⟨d₁, rfl, h⟩
  | error x =>
      rw [hs] at h
      cases h

/-! ### Tags -/

lemma modify_append_cons (l t : List Markup) (k : Markup) (f : Markup → Markup) :
    (l ++ k :: t).modify l.length f = l ++ f k :: t := by
  induction l with
  | nil => rfl
  | cons a l ih => simpa using ih

lemma run_opening {d : Decoder} (hd : d.state = .opening) {l : Markups} {k : Markup}
    (hheap : d.heap = l ++ [k]) {ms : List ShMarkup} (hms : d.string.markup = ms ++ [l.length])
    {s : Bytes} (hs : TAG_END ∉ s) :
    run d s = .ok { d with heap := l ++ [{ k with startText := k.startText ++ s }] } := by
  induction s generalizing d k with
  | nil => simp [← hheap]
  | cons c s ih =>
      rw [List.mem_cons, not_or] at hs
      have hstep : step d c = .ok { d with
          heap := l ++ [{ k with startText := k.startText ++ [c] }] } := by
        simp only [step, hd, hms, List.getLast?_append, List.getLast?_singleton, Option.some_or,
          Ne.symm hs.1, if_false, hheap]
        rw [modify_append_cons]
      have hrest := ih (d := { d with
        heap := l ++ [{ k with startText := k.startText ++ [c] }] }) hd rfl hms hs.2
      rw [run_cons_ok hstep, hrest]
      simp

/-- The scanner after an opening tag. -/
def opened (o : OpenTag) (d : Decoder) : Decoder :=
  { d with
    heap := d.heap ++ [o.markup d.current]
    string := { d.string with markup := d.string.markup ++ [d.heap.length] }
    mstack := d.heap.length :: d.mstack
    current := some d.heap.length }

/-- **An opening tag** constructs its markup below `current`, and makes it current. -/
lemma run_open {d : Decoder} (hd : d.state = .outside) (o : OpenTag) :
    run d o.bytes = .ok (opened o d) := by
  obtain ⟨state, heap, string, mstack, current⟩ := d
  obtain rfl : state = .outside := hd
  have hfirst : step ⟨.inside o.type, heap, string, mstack, current⟩ o.first = .ok
      ⟨.opening, heap ++ [{ o.markup current with startText := [o.first] }],
        { string with markup := string.markup ++ [heap.length] }, heap.length :: mstack,
        some heap.length⟩ := by
    have hnew : (Markup.new o.type).startText = [] ∧ (Markup.new o.type).parent = none := by
      unfold Markup.new
      split_ifs <;> exact ⟨rfl, rfl⟩
    simp only [step, if_neg o.opens]
    cases current with
    | none => simp [OpenTag.markup, hnew.1, hnew.2]
    | some c => simp [OpenTag.markup, Markup.setParent, hnew.1]
  have hmore := run_opening (d := ⟨.opening,
    heap ++ [{ o.markup current with startText := [o.first] }],
    { string with markup := string.markup ++ [heap.length] }, heap.length :: mstack,
    some heap.length⟩) rfl rfl rfl o.ends
  unfold OpenTag.bytes OpenTag.text
  rw [List.cons_append, List.cons_append, List.cons_append, run_cons_ok rfl, run_cons_ok rfl,
    run_cons_ok hfirst, run_append_ok hmore]
  rfl

lemma run_closing {d : Decoder} (hd : d.state = .closing) {back : ShMarkup}
    {mstack : List ShMarkup} (hstack : d.mstack = back :: mstack) {s : Bytes}
    (hs : TAG_END ∉ s) :
    run d s = .ok { d with
      heap := d.heap.modify back fun k => { k with endText := k.endText ++ s } } := by
  induction s generalizing d with
  | nil =>
      have hid : (fun k : Markup => { k with endText := k.endText ++ [] }) = id := by
        simp [funext_iff]
      rw [hid, List.modify_id]
      rfl
  | cons c s ih =>
      rw [List.mem_cons, not_or] at hs
      have hstep : step d c = .ok { d with
          heap := d.heap.modify back fun k => { k with endText := k.endText ++ [c] } } := by
        simp only [step, hd, hstack, Ne.symm hs.1, if_false]
      have hrest := ih (d := { d with
        heap := d.heap.modify back fun k => { k with endText := k.endText ++ [c] } }) hd hstack hs.2
      rw [run_cons_ok hstep, hrest, List.modify_modify_eq]
      simp [Function.comp_def]

/-- The message that validating a markup gives. -/
def check (heap : Markups) (mark : ShMarkup) : Option Bytes :=
  heap[mark]?.bind Markup.validate

lemma check_modify_endText (heap : Markups) (i mark : ShMarkup) (s : Bytes) :
    check (heap.modify i fun k => { k with endText := k.endText ++ s }) mark = check heap mark := by
  unfold check
  rw [List.getElem?_modify]
  cases heap[mark]? with
  | none => rfl
  | some k =>
      by_cases h : i = mark
      · simp only [h, if_true, Option.map_eq_map, Option.map_some, Option.bind_some]
        rfl
      · simp [h]

lemma run_close {d : Decoder} (hd : d.state = .outside) {back : ShMarkup}
    {mstack : List ShMarkup} (hstack : d.mstack = back :: mstack) (e : CloseTag) :
    run d e.bytes = close { d with
      state := .closing
      heap := d.heap.modify back fun k => { k with endText := k.endText ++ e.text } } := by
  have hclosing := run_closing (d := { d with state := .closing }) rfl hstack e.ends
  have hstart : step d TAG_START = .ok { d with state := .start } := by simp [step, hd]
  unfold CloseTag.bytes
  rw [List.cons_append, List.cons_append, List.cons_append, run_cons_ok hstart, run_cons_ok rfl,
    run_cons_ok rfl, run_append_ok hclosing, run_cons]
  simp only [run_nil, step, if_true]
  exact bind_pure (m := Except Exit) _

/-- **A closing tag** validates what is current, and makes its own element current. -/
lemma run_close_ok {d : Decoder} (hd : d.state = .outside) {back : ShMarkup}
    {mstack : List ShMarkup} (hstack : d.mstack = back :: mstack) {mark : ShMarkup}
    (hcurrent : d.current = some mark) (hcheck : check d.heap mark = none) (e : CloseTag) :
    run d e.bytes = .ok { d with
      heap := d.heap.modify back fun k => { k with endText := k.endText ++ e.text }
      current := some back, mstack := mstack } := by
  rw [run_close hd hstack, close]
  rw [← check_modify_endText d.heap back mark e.text] at hcheck
  unfold check at hcheck
  simp only [hcurrent, hcheck, hstack, hd]

lemma run_close_rejected {d : Decoder} (hd : d.state = .outside) {back : ShMarkup}
    {mstack : List ShMarkup} (hstack : d.mstack = back :: mstack) {mark : ShMarkup}
    (hcurrent : d.current = some mark) {errmsg : Bytes} (hcheck : check d.heap mark = some errmsg)
    (e : CloseTag) :
    ∃ heap, run d e.bytes = .error (.rejected heap
      { d.string with text := errmsg, markup := [], idx := plainIdx errmsg }) := by
  refine ⟨d.heap.modify back fun k => { k with endText := k.endText ++ e.text }, ?_⟩
  rw [run_close hd hstack, close]
  rw [← check_modify_endText d.heap back mark e.text] at hcheck
  unfold check at hcheck
  simp only [hcurrent, hcheck]

/-! ### Sources -/

/-- `o` is the tag that `current` points to. -/
def Points (heap : Markups) : OpMarkup → Option OpenTag → Prop
  | none, none => True
  | some mark, some o => mark < heap.length ∧ check heap mark = o.validate
  | _, _ => False

/-- `current` points to a markup that belongs to the tag `o` in the sense of `P`. -/
def Linked (P : Markup → OpenTag → Prop) (heap : Markups) : OpMarkup → Option OpenTag → Prop
  | none, none => True
  | some mark, some o => ∃ k, heap[mark]? = some k ∧ P k o
  | _, _ => False

/-- The markup that a tag makes belongs to it, and does so whatever its end text becomes. -/
structure Lasting (P : Markup → OpenTag → Prop) : Prop where
  made : ∀ o parent, P (o.markup parent) o
  endText : ∀ k o s, P k o → P { k with endText := s } o

/-- Validating the markup gives the message for the tag. -/
def SameMessage (k : Markup) (o : OpenTag) : Prop := k.validate = o.validate

lemma lasting_sameMessage : Lasting SameMessage := ⟨fun _ _ => rfl, fun _ _ _ h => h⟩

lemma points_iff {heap : Markups} {current : OpMarkup} {o : Option OpenTag} :
    Points heap current o ↔ Linked SameMessage heap current o := by
  cases current with
  | none => cases o <;> exact Iff.rfl
  | some mark =>
      cases o with
      | none => exact Iff.rfl
      | some o =>
          constructor
          · rintro ⟨hlt, hcheck⟩
            refine ⟨_, List.getElem?_eq_getElem hlt, ?_⟩
            rwa [check, List.getElem?_eq_getElem hlt, Option.bind_some] at hcheck
          · rintro ⟨k, hk, hmessage⟩
            obtain ⟨hlt, -⟩ := List.getElem?_eq_some_iff.mp hk
            exact ⟨hlt, by rw [check, hk]; exact hmessage⟩

lemma linked_new {P : Markup → OpenTag → Prop} (heap l : List Markup) {k : Markup} {o : OpenTag}
    (hk : P k o) : Linked P (heap ++ k :: l) (some heap.length) (some o) :=
  ⟨k, by simp, hk⟩

lemma linked_last {P : Markup → OpenTag → Prop} (hP : Lasting P) (f : Source) {heap : Markups}
    {current : OpMarkup} {o : Option OpenTag} (h : Linked P heap current o) :
    Linked P (heap ++ f.tags heap.length current) (f.last heap.length current) (f.lastOpen o) := by
  induction f generalizing heap current o with
  | nil => simpa [Source.tags, Source.last, Source.lastOpen] using h
  | char c _ rest ih => exact ih h
  | element t body e rest _ ih =>
      have hnew := linked_new heap (body.tags (heap.length + 1) (some heap.length))
        (k := { t.markup current with endText := e.text }) (o := t)
        (hP.endText _ _ _ (hP.made t current))
      have hrest := ih hnew
      rw [Source.length_element] at hrest
      simpa [Source.tags, Source.last, Source.lastOpen] using hrest

lemma points_new (heap l : List Markup) {k : Markup} {o : OpenTag}
    (hk : k.validate = o.validate) : Points (heap ++ k :: l) (some heap.length) (some o) :=
  points_iff.mpr (linked_new heap l hk)

lemma points_last (f : Source) {heap : Markups} {current : OpMarkup} {o : Option OpenTag}
    (h : Points heap current o) :
    Points (heap ++ f.tags heap.length current) (f.last heap.length current) (f.lastOpen o) :=
  points_iff.mpr (linked_last lasting_sameMessage f (points_iff.mp h))

/-- The scanner after a source whose tags are accepted where they are validated. -/
def after (f : Source) (d : Decoder) : Decoder :=
  { d with
    heap := d.heap ++ f.tags d.heap.length d.current
    string := { d.string with
      text := d.string.text ++ f.text
      markup := d.string.markup ++ List.range' d.heap.length f.count
      idx := d.string.idx ++ plainIdx f.text }
    current := f.last d.heap.length d.current }

/-- What is current when an element is closed, after its opening tag and its body. -/
lemma exists_current (body : Source) (o : OpenTag) (heap : Markups) (parent : OpMarkup) :
    ∃ mark t, body.last (heap.length + 1) (some heap.length) = some mark ∧
      body.lastOpen (some o) = some t ∧
      check (heap ++ o.markup parent :: body.tags (heap.length + 1) (some heap.length)) mark =
        t.validate := by
  have hpoints := points_last body (points_new heap [] (k := o.markup parent) (o := o) rfl)
  obtain ⟨t, ht⟩ := body.lastOpen_some o
  rw [ht] at hpoints
  simp only [List.length_append, List.length_singleton] at hpoints
  cases hlast : body.last (heap.length + 1) (some heap.length) with
  | none =>
      rw [hlast] at hpoints
      exact hpoints.elim
  | some mark =>
      rw [hlast] at hpoints
      refine ⟨mark, t, rfl, ht, ?_⟩
      have hcheck := hpoints.2
      rwa [List.append_assoc] at hcheck

/-- The scanner when the element has been opened and its body read. -/
def inElement (o : OpenTag) (body : Source) (d : Decoder) : Decoder := after body (opened o d)

/-- The scanner when it has been closed again. -/
def afterElement (o : OpenTag) (body : Source) (e : CloseTag) (d : Decoder) : Decoder :=
  { inElement o body d with
    heap := (inElement o body d).heap.modify d.heap.length fun k =>
      { k with endText := k.endText ++ e.text }
    current := some d.heap.length, mstack := d.mstack }

lemma heap_afterElement (o : OpenTag) (body : Source) (e : CloseTag) (d : Decoder) :
    (afterElement o body e d).heap = d.heap ++
      { o.markup d.current with endText := e.text } ::
        body.tags (d.heap.length + 1) (some d.heap.length) := by
  have hnew : (o.markup d.current).endText = [] := by
    unfold OpenTag.markup Markup.new
    dsimp only
    split_ifs <;> rfl
  simp only [afterElement, inElement, opened, after, List.append_assoc, List.singleton_append,
    List.length_append, List.length_singleton]
  rw [modify_append_cons, hnew, List.nil_append]

lemma after_element (o : OpenTag) (body : Source) (e : CloseTag) (rest : Source) (d : Decoder) :
    after (.element o body e rest) d = after rest (afterElement o body e d) := by
  have hlen : (afterElement o body e d).heap.length = d.heap.length + 1 + body.count := by
    rw [heap_afterElement, Source.length_element]
  unfold after
  rw [hlen, heap_afterElement]
  have hrange : List.range' d.heap.length (1 + body.count + rest.count) =
      [d.heap.length] ++ List.range' (d.heap.length + 1) body.count ++
        List.range' (d.heap.length + 1 + body.count) rest.count := by
    have hfirst : List.range' d.heap.length (1 + body.count) =
        [d.heap.length] ++ List.range' (d.heap.length + 1) body.count := by
      rw [Nat.add_comm 1, List.range'_succ, List.singleton_append]
    rw [← hfirst, Nat.add_assoc d.heap.length, List.range'_append_1]
  simp only [afterElement, inElement, opened, after, Source.tags, Source.text, Source.count,
    Source.last, hrange, List.append_assoc, List.cons_append, List.length_append,
    List.length_singleton, plainIdx, List.map_append]

lemma step_plain {d : Decoder} (hd : d.state = .outside) {c : UInt8} (plain : c ≠ TAG_START) :
    step d c = .ok { d with string := { d.string with
      text := d.string.text ++ [c], idx := d.string.idx ++ [(none, c)] } } := by
  simp [step, hd, plain]

lemma run_close_element {d : Decoder} (hd : d.state = .outside) {o : OpenTag} {body : Source}
    (hown : ∀ t, body.lastOpen (some o) = some t → t.validate = none) (e : CloseTag) :
    run (inElement o body d) e.bytes = .ok (afterElement o body e d) := by
  obtain ⟨mark, t, hmark, ht, hcheck⟩ := exists_current body o d.heap d.current
  have hcurrent : (inElement o body d).current = some mark := by
    simpa [inElement, opened, after] using hmark
  have hlook : check (inElement o body d).heap mark = none := by
    simpa [inElement, opened, after, hown t ht] using hcheck
  exact run_close_ok (d := inElement o body d) hd rfl hcurrent hlook e

/-- **A well-nested source** whose tags are accepted where they are validated. -/
theorem run_accepted (f : Source) {d : Decoder} (hd : d.state = .outside)
    (hchecks : ∀ o ∈ f.checks, o.validate = none) : run d f.bytes = .ok (after f d) := by
  induction f generalizing d with
  | nil => simp [after, Source.bytes, Source.tags, Source.text, Source.count, Source.last, plainIdx]
  | char c plain rest ih =>
      have hrest := ih (d := { d with string := { d.string with
        text := d.string.text ++ [c], idx := d.string.idx ++ [(none, c)] } }) hd hchecks
      rw [Source.bytes, run_cons_ok (step_plain hd plain), hrest]
      simp [after, Source.tags, Source.text, Source.count, Source.last, plainIdx]
  | element o body e rest ihbody ihrest =>
      simp only [Source.checks, List.mem_append, or_imp, forall_and] at hchecks
      obtain ⟨⟨hbody, hown⟩, hrest⟩ := hchecks
      have hclose : run (inElement o body d) e.bytes = .ok (afterElement o body e d) :=
        run_close_element hd (fun t ht => hown t (by simp [ht])) e
      rw [Source.bytes, List.append_assoc, List.append_assoc, run_append_ok (run_open hd o),
        run_append_ok (ihbody (d := opened o d) hd hbody), after_element]
      exact (run_append_ok hclose _).trans (ihrest (d := afterElement o body e d) hd hrest)

/-- **A well-nested source** with a tag that is not accepted where it is validated: the first
of these decides. -/
theorem run_rejected (f : Source) {d : Decoder} (hd : d.state = .outside) {errmsg : Bytes}
    (hchecks : f.checks.findSome? OpenTag.validate = some errmsg) :
    ∃ heap, run d f.bytes = .error (.rejected heap
      { d.string with text := errmsg, markup := [], idx := plainIdx errmsg }) := by
  induction f generalizing d with
  | nil => cases hchecks
  | char c plain rest ih =>
      rw [Source.bytes, run_cons_ok (step_plain hd plain)]
      exact ih (d := { d with string := { d.string with
        text := d.string.text ++ [c], idx := d.string.idx ++ [(none, c)] } }) hd hchecks
  | element o body e rest ihbody ihrest =>
      rw [Source.bytes, List.append_assoc, List.append_assoc, run_append_ok (run_open hd o)]
      rw [Source.checks, List.findSome?_append, List.findSome?_append] at hchecks
      cases hbody : body.checks.findSome? OpenTag.validate with
      | some msg =>
          rw [hbody, Option.some_or, Option.some_or] at hchecks
          obtain ⟨heap, hrun⟩ := ihbody (d := opened o d) hd (hbody.trans hchecks)
          exact ⟨heap, run_append_error hrun _⟩
      | none =>
          rw [hbody, Option.none_or] at hchecks
          rw [run_append_ok (run_accepted body (d := opened o d) hd
            (List.findSome?_eq_none_iff.mp hbody))]
          obtain ⟨mark, t, hmark, ht, hcheck⟩ := exists_current body o d.heap d.current
          have hcurrent : (inElement o body d).current = some mark := by
            simpa [inElement, opened, after] using hmark
          have hlook : check (inElement o body d).heap mark = t.validate := by
            simpa [inElement, opened, after] using hcheck
          rw [ht, Option.toList_some, List.findSome?_singleton] at hchecks
          cases hown : t.validate with
          | some msg =>
              rw [hown, Option.some_or] at hchecks
              cases hchecks
              obtain ⟨heap, hrun⟩ := run_close_rejected (d := inElement o body d) hd rfl hcurrent
                (hlook.trans hown) e
              exact ⟨heap, run_append_error hrun _⟩
          | none =>
              rw [hown, Option.none_or] at hchecks
              have hclose : run (inElement o body d) e.bytes = .ok (afterElement o body e d) :=
                run_close_element hd (fun t' ht' => by rwa [← Option.some.inj (ht.symm.trans ht')])
                  e
              obtain ⟨heap, hrun⟩ := ihrest (d := afterElement o body e d) hd hchecks
              exact ⟨heap, (run_append_ok hclose _).trans hrun⟩

lemma checks_of_run_ok {f : Source} {d d' : Decoder} (hd : d.state = .outside) {s : Bytes}
    (h : run d (f.bytes ++ s) = .ok d') : ∀ t ∈ f.checks, t.validate = none := by
  obtain ⟨d₁, hf, -⟩ := run_append_eq_ok h
  cases hchecks : f.checks.findSome? OpenTag.validate with
  | none => exact List.findSome?_eq_none_iff.mp hchecks
  | some errmsg =>
      obtain ⟨heap, hrun⟩ := run_rejected f hd hchecks
      rw [hrun] at hf
      cases hf

end Scanner

namespace MarkupString

section Calls

variable {m m' : MarkupString} {heap heap' : Markups} {src : Bytes}

lemma decodeMarkup_eq_true : m.decodeMarkup heap src = .returned true heap' m' ↔
    ∃ d, Scanner.run { heap := heap, string := { m.reset with source := src } } src = .ok d ∧
      d.heap = heap' ∧ d.string = m' := by
  unfold decodeMarkup Scanner.run
  split <;> simp [*]

lemma decodeMarkup_eq_false : m.decodeMarkup heap src = .returned false heap' m' ↔
    Scanner.run { heap := heap, string := { m.reset with source := src } } src =
      .error (.rejected heap' m') := by
  unfold decodeMarkup Scanner.run
  split <;> simp [*]

lemma decodeMarkup_eq_fault {x : Scanner.Fault} : m.decodeMarkup heap src = .fault x ↔
    Scanner.run { heap := heap, string := { m.reset with source := src } } src =
      .error (.fault x) := by
  unfold decodeMarkup Scanner.run
  split <;> simp [*]

end Calls

variable {f : Source}

/-- **Decoding a well-nested source** whose tags are accepted where they are validated. -/
theorem decodeMarkup_accepted (hchecks : ∀ o ∈ f.checks, o.validate = none) (m : MarkupString)
    (heap : Markups) :
    m.decodeMarkup heap f.bytes = .returned true (heap ++ f.tags heap.length none)
      { text := m.reset.text ++ f.text
        source := f.bytes
        markup := m.reset.markup ++ List.range' heap.length f.count
        idx := plainIdx f.text } := by
  have hrun := Scanner.run_accepted f
    (d := { heap := heap, string := { m.reset with source := f.bytes } }) rfl hchecks
  refine decodeMarkup_eq_true.mpr ⟨_, hrun, rfl, ?_⟩
  simp only [Scanner.after, m.idx_reset, List.nil_append]

/-- **Decoding a well-nested source** with a tag that is not accepted where it is validated. -/
theorem decodeMarkup_rejected {errmsg : Bytes}
    (hchecks : f.checks.findSome? OpenTag.validate = some errmsg) (m : MarkupString)
    (heap : Markups) :
    ∃ heap', m.decodeMarkup heap f.bytes = .returned false heap'
      { text := errmsg, source := f.bytes, markup := [], idx := plainIdx errmsg } := by
  obtain ⟨heap', hrun⟩ := Scanner.run_rejected f
    (d := { heap := heap, string := { m.reset with source := f.bytes } }) rfl hchecks
  exact ⟨heap', decodeMarkup_eq_false.mpr hrun⟩

end MarkupString

end ForgeMush
