import ForgeMush.Rejection

/-!
The object that `validate` calls `parse_markup` on.

The constructor of a colour markup engages its `ansi` with a null pointer, and nothing puts an
object there later. So the call is one on an object only where no colour markup is validated.
-/

namespace ForgeMush

/-- `ansi.value()->parse_markup` is a call on an object, where `validate` makes it. -/
def Markup.HasObject (k : Markup) : Prop := k.type = .color → ∃ a, k.ansi = some (some a)

namespace Scanner

/-- The markup that a turn calls `validate` on. -/
def validatedAt (d : Decoder) (c : UInt8) : Option Markup :=
  if d.state = .closing ∧ c = TAG_END then d.current.bind fun current => d.heap[current]? else none

/-- Those that a scan does. -/
def validated (d : Decoder) : Bytes → List Markup
  | [] => []
  | c :: s => (validatedAt d c).toList ++
    match step d c with
    | .ok d' => validated d' s
    | .error _ => []

/-- The source comes to a closing tag, and the tag opened or closed last before it has a type
other than `p`. -/
def ClosesColor (src : Bytes) : Prop :=
  ∃ levels f e rest o, src = enclosing levels ++ Source.bytes f ++ CloseTag.bytes e ++ rest ∧
    (levels = [] → e.text = []) ∧ f.lastOpen (innermostOpen levels) = some o ∧
    o.type ≠ 'p'.toUInt8

/-- The markup has the type and the `ansi` that the constructor has given it. -/
def SameKind (k : Markup) (o : OpenTag) : Prop :=
  k.type = (Markup.new o.type).type ∧ k.ansi = (Markup.new o.type).ansi

lemma lasting_sameKind : Lasting SameKind := ⟨fun _ _ => ⟨rfl, rfl⟩, fun _ _ _ h => h⟩

lemma SameKind.hasObject_iff {k : Markup} {o : OpenTag} (h : SameKind k o) :
    k.HasObject ↔ o.type = 'p'.toUInt8 := by
  obtain ⟨htype, hansi⟩ := h
  rw [Markup.HasObject, htype, hansi, Markup.new]
  split_ifs with hp
  · simp [hp]
  · simp [hp]

lemma validate_of_type {o : OpenTag} (h : o.type = 'p'.toUInt8) : o.validate = none := by
  have htype : (o.markup none).type = .mxp := by
    rw [OpenTag.markup, Markup.new, if_pos h]
  rw [OpenTag.validate, Markup.validate, htype]

variable {d d' : Decoder} {levels : List Level} {f : Source} {s t : Bytes}

lemma validated_cons_ok {c : UInt8} (h : step d c = .ok d') (s : Bytes) :
    validated d (c :: s) = (validatedAt d c).toList ++ validated d' s := by
  rw [validated, h]

lemma validated_append_ok (h : run d s = .ok d') (t : Bytes) :
    validated d (s ++ t) = validated d s ++ validated d' t := by
  induction s generalizing d with
  | nil =>
      cases h
      rfl
  | cons c s ih =>
      cases hstep : step d c with
      | error x =>
          rw [run_cons, hstep] at h
          cases h
      | ok d₁ =>
          rw [run_cons_ok hstep] at h
          rw [List.cons_append, validated_cons_ok hstep, validated_cons_ok hstep, ih h,
            List.append_assoc]

lemma validated_subset (d : Decoder) (s t : Bytes) :
    validated d s ⊆ validated d (s ++ t) := by
  induction s generalizing d with
  | nil => exact List.nil_subset _
  | cons c s ih =>
      rw [List.cons_append, validated, validated]
      refine List.append_subset.mpr ⟨List.subset_append_left _ _, ?_⟩
      refine List.Subset.trans ?_ (List.subset_append_right _ _)
      cases step d c with
      | error x => exact List.Subset.refl _
      | ok d₁ => exact ih d₁

/-! ### A closing tag of the source has a markup validated -/

/-- A closing tag has what is current validated. -/
lemma exists_validated_close (hd : d.state = .outside) {o : OpenTag}
    (h : Linked SameKind d.heap d.current (some o)) (e : CloseTag)
    (he : d.mstack = [] → e.text = []) : ∃ k ∈ validated d e.bytes, SameKind k o := by
  obtain ⟨i, hclosing⟩ := exists_run_closing hd e he
  have hbytes : e.bytes = TAG_START :: e.type :: '/'.toUInt8 :: e.text ++ [TAG_END] := rfl
  rw [hbytes, validated_append_ok hclosing]
  have hmodified := linked_modify lasting_sameKind h i e.text
  cases hcurrent : d.current with
  | none =>
      rw [hcurrent] at hmodified
      exact hmodified.elim
  | some mark =>
      rw [hcurrent] at hmodified
      obtain ⟨k, hk, hko⟩ := hmodified
      refine ⟨k, List.mem_append_right _ (List.mem_append_left _ ?_), hko⟩
      simp only [validatedAt, and_self, if_true, Option.bind_some, hk, Option.toList_some,
        List.mem_singleton]

lemma lacks_object_of_append {u : Bytes} (h : run d u = .ok d') (s : Bytes)
    (hlacks : ∃ k ∈ validated d' s, ¬ k.HasObject) :
    ∃ k ∈ validated d (u ++ s), ¬ k.HasObject := by
  obtain ⟨k, hk, hobject⟩ := hlacks
  refine ⟨k, ?_, hobject⟩
  rw [validated_append_ok h]
  exact List.mem_append_right _ hk

lemma lacks_object_append (s : Bytes) (hlacks : ∃ k ∈ validated d t, ¬ k.HasObject) :
    ∃ k ∈ validated d (t ++ s), ¬ k.HasObject := by
  obtain ⟨k, hk, hobject⟩ := hlacks
  exact ⟨k, validated_subset d t s hk, hobject⟩

lemma lacks_object_close (hd : d.state = .outside) {o : OpenTag} (ho : o.type ≠ 'p'.toUInt8)
    (h : Linked SameKind d.heap d.current (some o)) (e : CloseTag)
    (he : d.mstack = [] → e.text = []) : ∃ k ∈ validated d e.bytes, ¬ k.HasObject := by
  obtain ⟨k, hk, hko⟩ := exists_validated_close hd h e he
  exact ⟨k, hk, fun hobject => ho (hko.hasObject_iff.mp hobject)⟩

lemma lacks_object_source (f : Source) (hd : d.state = .outside)
    (h : ∃ o ∈ f.checks, o.type ≠ 'p'.toUInt8) :
    ∃ k ∈ validated d f.bytes, ¬ k.HasObject := by
  induction f generalizing d with
  | nil =>
      obtain ⟨o, ho, -⟩ := h
      cases ho
  | char c plain rest ih =>
      exact lacks_object_of_append (u := [c]) (run_cons_ok (step_plain hd plain) []) rest.bytes
        (ih hd h)
  | element o body e rest ihbody ihrest =>
      rw [Source.bytes, List.append_assoc, List.append_assoc]
      refine lacks_object_of_append (run_open hd o) _ ?_
      by_cases hbody : ∃ t ∈ body.checks, t.type ≠ 'p'.toUInt8
      · exact lacks_object_append _ (ihbody (d := opened o d) hd hbody)
      · -- the body is read, so that the tag current then is validated
        have haccepted : ∀ t ∈ body.checks, t.validate = none := fun t ht =>
          validate_of_type (by_contra fun hne => hbody ⟨t, ht, hne⟩)
        refine lacks_object_of_append (run_accepted body (d := opened o d) hd haccepted) _ ?_
        have hlinked := linked_last lasting_sameKind body
          (linked_new d.heap [] (lasting_sameKind.made o d.current))
        obtain ⟨own, hown⟩ := body.lastOpen_some o
        rw [hown] at hlinked
        by_cases htype : own.type = 'p'.toUInt8
        · have hclose : run (inElement o body d) e.bytes = .ok (afterElement o body e d) := by
            refine run_close_element hd (fun t ht => ?_) e
            rw [hown, Option.some.injEq] at ht
            exact ht ▸ validate_of_type htype
          refine lacks_object_of_append hclose _ (ihrest (d := afterElement o body e d) hd ?_)
          obtain ⟨t, ht, hne⟩ := h
          simp only [Source.checks, List.mem_append, hown, Option.toList_some,
            List.mem_singleton] at ht
          rcases ht with (ht | rfl) | ht
          · exact absurd ⟨t, ht, hne⟩ hbody
          · exact absurd htype hne
          · exact ⟨t, ht, hne⟩
        · exact lacks_object_append _ (lacks_object_close (d := after body (opened o d)) hd htype
            hlinked e fun hnil => absurd hnil (List.cons_ne_nil _ _))

/-- The same of what is open. -/
lemma lacks_object_enclosing (h : InsideWith SameKind [] d)
    (hcolor : ∃ o ∈ levelChecks levels, o.type ≠ 'p'.toUInt8) :
    ∃ k ∈ validated d (enclosing levels), ¬ k.HasObject := by
  induction levels with
  | nil =>
      obtain ⟨o, ho, -⟩ := hcolor
      cases ho
  | cons level outer ih =>
      obtain ⟨before, o⟩ := level
      rw [enclosing, List.append_assoc]
      by_cases houter : ∃ o ∈ levelChecks outer, o.type ≠ 'p'.toUInt8
      · exact lacks_object_append _ (ih houter)
      · have haccepted : ∀ t ∈ levelChecks outer, t.validate = none := fun t ht =>
          validate_of_type (by_contra fun hne => houter ⟨t, ht, hne⟩)
        obtain ⟨d₁, hrun, hinside⟩ := run_enclosing_with lasting_sameKind h haccepted
        refine lacks_object_of_append hrun _ (lacks_object_append _
          (lacks_object_source before hinside.state ?_))
        obtain ⟨t, ht, hne⟩ := hcolor
        rcases List.mem_append.mp ht with ht | ht
        · exact absurd ⟨t, ht, hne⟩ houter
        · exact ⟨t, ht, hne⟩

lemma lacks_object_of_closesColor (h : InsideWith SameKind [] d) (hcloses : ClosesColor s) :
    ∃ k ∈ validated d s, ¬ k.HasObject := by
  obtain ⟨levels, f, e, rest, o, rfl, he, ho, hcolor⟩ := hcloses
  rw [List.append_assoc, List.append_assoc]
  by_cases hlevels : ∃ o ∈ levelChecks levels, o.type ≠ 'p'.toUInt8
  · exact lacks_object_append _ (lacks_object_enclosing h hlevels)
  have haccepted : ∀ t ∈ levelChecks levels, t.validate = none := fun t ht =>
    validate_of_type (by_contra fun hne => hlevels ⟨t, ht, hne⟩)
  obtain ⟨d₁, hrun, hinside⟩ := run_enclosing_with lasting_sameKind h haccepted
  refine lacks_object_of_append hrun _ ?_
  by_cases hf : ∃ o ∈ f.checks, o.type ≠ 'p'.toUInt8
  · exact lacks_object_append _ (lacks_object_source f hinside.state hf)
  have hchecks : ∀ t ∈ f.checks, t.validate = none := fun t ht =>
    validate_of_type (by_contra fun hne => hf ⟨t, ht, hne⟩)
  refine lacks_object_of_append (run_accepted f hinside.state hchecks) _ (lacks_object_append _ ?_)
  obtain ⟨hstate, hdepth, hlinked⟩ := hinside.after lasting_sameKind f
  rw [ho] at hlinked
  refine lacks_object_close hstate hcolor hlinked e fun hnil => he ?_
  rw [hnil] at hdepth
  exact List.length_eq_zero_iff.mp hdepth.symm

/-! ### A markup that is validated belongs to the source -/

lemma linked_none {P Q : Markup → OpenTag → Prop} {heap : Markups} {current : OpMarkup}
    (h : Linked P heap current none) : Linked Q heap current none := by
  cases current with
  | none => trivial
  | some mark => exact h.elim

lemma exists_validatedAt {w : Bytes} (h : HasRead w d) {k : Markup} (hk : k ∈ validated d s) :
    ∃ u c v d', s = u ++ c :: v ∧ run d u = .ok d' ∧ HasRead (w ++ u) d' ∧
      validatedAt d' c = some k := by
  induction s generalizing d w with
  | nil => cases hk
  | cons c s ih =>
      rcases List.mem_append.mp hk with hk | hk
      · exact ⟨[], c, s, d, rfl, rfl, by simpa using h, Option.mem_toList.mp hk⟩
      · cases hstep : step d c with
        | error x =>
            rw [hstep] at hk
            cases hk
        | ok d₁ =>
            rw [hstep] at hk
            obtain ⟨u, c', v, d', rfl, hu, hread, hat⟩ := ih (h.step hstep) hk
            exact ⟨c :: u, c', v, d', rfl, (run_cons_ok hstep u).trans hu, by simpa using hread,
              hat⟩

lemma closesColor_of_validated (h : InsideWith SameKind [] d) {k : Markup}
    (hk : k ∈ validated d s) (hobject : ¬ k.HasObject) : ClosesColor s := by
  have hstart : HasRead [] d := hasRead_nil h.state (List.length_eq_zero_iff.mp h.depth)
  obtain ⟨u, c, v, d', rfl, hu, hread, hat⟩ := exists_validatedAt hstart hk
  rw [validatedAt] at hat
  split_ifs at hat with hc
  obtain ⟨hclosing, rfl⟩ := hc
  obtain ⟨-, levels, f, tail, hw, htail⟩ := hread
  rw [Tail, hclosing] at htail
  obtain ⟨-, type, text, rfl, hend, hopen⟩ := htail
  rw [List.nil_append] at hw
  subst hw
  rw [List.append_assoc] at hu
  -- the scan has come to the closing tag, so that the tags before are accepted
  obtain ⟨d₁, hd₁, hinside⟩ := run_enclosing_with lasting_sameKind h
    (levelChecks_of_run_ok ⟨h.state, h.depth, points_iff.mpr (linked_none h.current)⟩ hu)
  rw [run_append_ok hd₁] at hu
  rw [run_append_ok (run_accepted f hinside.state (checks_of_run_ok hinside.state hu))] at hu
  obtain ⟨hstate, hdepth, hlinked⟩ := hinside.after lasting_sameKind f
  obtain ⟨i, hrun⟩ := exists_run_closing hstate ⟨type, text, hend⟩ fun hnil => hopen (by
    rw [hnil] at hdepth
    exact List.length_eq_zero_iff.mp hdepth.symm)
  rw [hrun] at hu
  cases hu
  have hmodified := linked_modify lasting_sameKind hlinked i text
  dsimp only at hat
  cases hcurrent : (after f d₁).current with
  | none =>
      rw [hcurrent] at hat
      cases hat
  | some mark =>
      rw [hcurrent] at hat hmodified
      cases hlast : f.lastOpen (innermostOpen levels) with
      | none =>
          rw [hlast] at hmodified
          exact hmodified.elim
      | some o =>
          rw [hlast] at hmodified
          obtain ⟨k', hk', hko⟩ := hmodified
          rw [Option.bind_some, hk', Option.some.injEq] at hat
          refine ⟨levels, f, ⟨type, text, hend⟩, v, o, by simp [CloseTag.bytes], hopen, hlast,
            fun hp => hobject ?_⟩
          exact hat ▸ hko.hasObject_iff.mpr hp

end Scanner

namespace MarkupString

/-- The markups that `decode_markup` calls `validate` on. -/
def validated (m : MarkupString) (heap : Markups) (src : Bytes) : List Markup :=
  Scanner.validated { heap := heap, string := { m.reset with source := src } } src

/-- **Validation is defined**, for a source of any kind, exactly if it has no closing tag where
the tag opened or closed last is of a type other than `p`. -/
theorem hasObject_iff_not_closesColor (m : MarkupString) (heap : Markups) (src : Bytes) :
    (∀ k ∈ m.validated heap src, k.HasObject) ↔ ¬ Scanner.ClosesColor src := by
  have hinside : Scanner.InsideWith Scanner.SameKind []
      { heap := heap, string := { m.reset with source := src } } := ⟨rfl, rfl, trivial⟩
  constructor
  · intro hall hcloses
    obtain ⟨k, hk, hobject⟩ := Scanner.lacks_object_of_closesColor hinside hcloses
    exact hobject (hall k hk)
  · intro hnot k hk
    by_contra hobject
    exact hnot (Scanner.closesColor_of_validated hinside hk hobject)

/-- An empty element of colour `r` has `parse_markup` called on the null pointer. -/
theorem null_validated : ∃ k ∈ MarkupString.validated {} [] (emptyElement 'r'.toUInt8),
    k.type = .color ∧ k.ansi = some none ∧ ¬ k.HasObject := by
  refine ⟨_, List.mem_cons_self, rfl, rfl, fun hobject => ?_⟩
  obtain ⟨a, ha⟩ := hobject rfl
  cases ha

end MarkupString

end ForgeMush
