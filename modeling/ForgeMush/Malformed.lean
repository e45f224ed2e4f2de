import ForgeMush.Nesting

/-!
Sources of any kind: when the scanner makes an access that nothing guards.

Whatever it has read without ending is a well-nested source cut off somewhere: the elements
that are open, each with what stood before it, and what follows the last opening tag. The only
tag that can do harm is a closing one where no element is open.
-/

namespace ForgeMush

namespace Source

def append : Source → Source → Source
  | nil, g => g
  | char c plain rest, g => .char c plain (rest.append g)
  | element o body e rest, g => .element o body e (rest.append g)

@[simp] lemma bytes_append (f g : Source) : (f.append g).bytes = f.bytes ++ g.bytes := by
  induction f with
  | nil => rfl
  | char c plain rest ih => simp [append, bytes, ih]
  | element o body e rest _ ih => simp [append, bytes, ih]

end Source

namespace Scanner

/-- An element that is open: what stands before it where it stands, and its opening tag. -/
abbrev Level := Source × OpenTag

/-- What has been read up to the innermost of the open elements. -/
def enclosing : List Level → Bytes
  | [] => []
  | (before, o) :: outer => enclosing outer ++ before.bytes ++ o.bytes

/-- The part of a tag that has been read, with as many elements open as there are levels. -/
def Tail (levels : List Level) (d : Decoder) (tail : Bytes) : Prop :=
  match d.state with
  | .outside => tail = [] ∧ d.mstack.length = levels.length
  | .start => tail = [TAG_START] ∧ d.mstack.length = levels.length
  | .inside t => tail = [TAG_START, t] ∧ d.mstack.length = levels.length
  -- the markup of the tag is on the stack already
  | .opening => d.mstack.length = levels.length + 1 ∧ d.string.markup ≠ [] ∧
      ∃ t first more, tail = TAG_START :: t :: first :: more ∧ first ≠ '/'.toUInt8 ∧
        TAG_END ∉ more
  | .closing => d.mstack.length = levels.length ∧
      ∃ t e, tail = TAG_START :: t :: '/'.toUInt8 :: e ∧ TAG_END ∉ e ∧ (levels = [] → e = [])

/-- The scanner, when it has read `w`. -/
def HasRead (w : Bytes) (d : Decoder) : Prop :=
  (d.mstack ≠ [] → d.current ≠ none) ∧
  ∃ levels f tail, w = enclosing levels ++ Source.bytes f ++ tail ∧ Tail levels d tail

variable {w : Bytes} {d d' : Decoder} {c : UInt8}

lemma hasRead_nil (hd : d.state = .outside) (hstack : d.mstack = []) : HasRead [] d := by
  refine ⟨fun h => absurd hstack h, [], .nil, [], rfl, ?_⟩
  rw [Tail, hd, hstack]
  exact ⟨rfl, rfl⟩

lemma HasRead.step (h : HasRead w d) (hstep : step d c = .ok d') : HasRead (w ++ [c]) d' := by
  obtain ⟨state, heap, string, mstack, current⟩ := d
  obtain ⟨hcurrent, levels, f, tail, rfl, htail⟩ := h
  cases state with
  | outside =>
      obtain ⟨rfl, hlen⟩ := htail
      simp only [Scanner.step] at hstep
      split_ifs at hstep with hc
      · cases hstep
        exact ⟨hcurrent, levels, f, [TAG_START], by simp [hc], rfl, hlen⟩
      · cases hstep
        exact ⟨hcurrent, levels, f.append (.char c hc .nil), [], by simp [Source.bytes], rfl, hlen⟩
  | start =>
      obtain ⟨rfl, hlen⟩ := htail
      cases hstep
      exact ⟨hcurrent, levels, f, [TAG_START, c], by simp, rfl, hlen⟩
  | inside t =>
      obtain ⟨rfl, hlen⟩ := htail
      simp only [Scanner.step] at hstep
      split_ifs at hstep with hc
      · cases hstep
        exact ⟨hcurrent, levels, f, [TAG_START, t, '/'.toUInt8], by simp [hc], hlen, t, [], rfl,
          List.not_mem_nil, fun _ => rfl⟩
      · cases hstep
        refine ⟨fun _ => by simp, levels, f, [TAG_START, t, c], by simp, ?_, by simp, t, c, [], rfl,
          hc, List.not_mem_nil⟩
        simpa using hlen
  | opening =>
      obtain ⟨hlen, hmarkup, t, first, more, rfl, hfirst, hmore⟩ := htail
      simp only [Scanner.step] at hstep
      split_ifs at hstep with hc
      · -- the element is open now
        cases hstep
        refine ⟨hcurrent, (f, ⟨t, first, more, hfirst, hmore⟩) :: levels, .nil, [], ?_, rfl, hlen⟩
        simp [enclosing, OpenTag.bytes, OpenTag.text, Source.bytes, hc]
      · split at hstep
        · cases hstep
        · cases hstep
          refine ⟨hcurrent, levels, f, TAG_START :: t :: first :: (more ++ [c]), by simp, hlen,
            hmarkup, t, first, more ++ [c], rfl, hfirst, ?_⟩
          simpa [not_or] using ⟨hmore, Ne.symm hc⟩
  | closing =>
      obtain ⟨hlen, t, e, rfl, he, hopen⟩ := htail
      simp only [Scanner.step] at hstep
      split_ifs at hstep with hc
      · -- the element goes into what stands before it
        obtain ⟨back, mstack, rfl, rfl⟩ := close_ok hstep
        obtain _ | ⟨⟨before, o⟩, outer⟩ := levels
        · simp at hlen
        · refine ⟨fun _ => by simp, outer, before.append (.element o f ⟨t, e, he⟩ .nil), [],
            ?_, rfl, by simpa using hlen⟩
          simp [enclosing, Source.bytes, CloseTag.bytes, hc]
      · split at hstep
        · cases hstep
        · next back mstack =>
            cases hstep
            refine ⟨hcurrent, levels, f, TAG_START :: t :: '/'.toUInt8 :: (e ++ [c]), by simp, hlen,
              t, e ++ [c], rfl, ?_, fun hnil => ?_⟩
            · simpa [not_or] using ⟨he, Ne.symm hc⟩
            · simp [hnil] at hlen

lemma HasRead.fault (h : HasRead w d) {x : Fault} (hstep : Scanner.step d c = .error (.fault x)) :
    d.state = .closing ∧ d.mstack = [] ∧
      ∃ f t, w = Source.bytes f ++ [TAG_START, t, '/'.toUInt8] := by
  obtain ⟨state, heap, string, mstack, current⟩ := d
  obtain ⟨hcurrent, levels, f, tail, rfl, htail⟩ := h
  cases state with
  | outside =>
      simp only [Scanner.step] at hstep
      split_ifs at hstep
  | start => cases hstep
  | inside t =>
      simp only [Scanner.step] at hstep
      split_ifs at hstep
  | opening =>
      obtain ⟨-, hmarkup, -⟩ := htail
      simp only [Scanner.step] at hstep
      split_ifs at hstep
      split at hstep
      · next hlast => exact absurd (List.getLast?_eq_none_iff.mp hlast) hmarkup
      · cases hstep
  | closing =>
      obtain ⟨hlen, t, e, rfl, he, hopen⟩ := htail
      have hstack : mstack = [] := by
        simp only [Scanner.step] at hstep
        split_ifs at hstep
        · rcases close_fault hstep with hnone | hnil
          · by_contra hne
            exact hcurrent hne hnone
          · exact hnil
        · split at hstep
          · rfl
          · cases hstep
      have hlevels : levels = [] := by simpa [hstack, eq_comm] using hlen
      refine ⟨rfl, hstack, f, t, ?_⟩
      rw [hopen hlevels, hlevels]
      simp [enclosing]

lemma exists_exit {s : Bytes} {x : Exit} (h : HasRead w d) (hrun : run d s = .error x) :
    ∃ u c v d', s = u ++ c :: v ∧ run d u = .ok d' ∧ HasRead (w ++ u) d' ∧
      Scanner.step d' c = .error x := by
  induction s generalizing d w with
  | nil => cases hrun
  | cons c s ih =>
      cases hstep : Scanner.step d c with
      | error y =>
          rw [run_cons, hstep] at hrun
          cases hrun
          exact ⟨[], c, s, d, rfl, rfl, by simpa using h, hstep⟩
      | ok d₁ =>
          rw [run_cons_ok hstep] at hrun
          obtain ⟨u, c', v, d', rfl, hu, hread, hexit⟩ := ih (h.step hstep) hrun
          exact ⟨c :: u, c', v, d', rfl, (run_cons_ok hstep u).trans hu, by simpa using hread,
            hexit⟩

lemma run_stray {f : Source} (hd : d.state = .outside) (hchecks : ∀ o ∈ f.checks, o.validate = none)
    (t : UInt8) :
    run d (f.bytes ++ [TAG_START, t, '/'.toUInt8]) = .ok { after f d with state := .closing } := by
  have hstate : (after f d).state = .outside := hd
  have hstart : Scanner.step (after f d) TAG_START = .ok { after f d with state := .start } := by
    simp [Scanner.step, hstate]
  rw [run_append_ok (run_accepted f hd hchecks), run_cons_ok hstart, run_cons_ok rfl,
    run_cons_ok rfl, run_nil]

end Scanner

namespace Source

/-- A message ends the scan of the source, or at the latest that of a closing tag after it with
the character `x` after its `/`. -/
def EndsBefore (f : Source) (x : UInt8) : Prop :=
  (∃ o ∈ f.checks, o.validate ≠ none) ∨
    (x = TAG_END ∧ ∃ o, f.lastOpen none = some o ∧ o.validate ≠ none)

end Source

namespace Scanner

lemma stray_fault_iff {f : Source} (hstack : d.mstack = []) (hcurrent : d.current = none)
    (x : UInt8) :
    (∃ y, Scanner.step { after f d with state := .closing } x = .error (.fault y)) ↔
      ¬ (x = TAG_END ∧ ∃ o, f.lastOpen none = some o ∧ o.validate ≠ none) := by
  have hafter : (after f d).mstack = [] := hstack
  by_cases hx : x = TAG_END
  · have hbegin : Points d.heap none none := trivial
    have hpoints := points_last f hbegin
    have hlast : (after f d).current = f.last d.heap.length none := by rw [← hcurrent]; rfl
    have hheap : (after f d).heap = d.heap ++ f.tags d.heap.length none := by rw [← hcurrent]; rfl
    simp only [Scanner.step, hx, if_true, close, hlast, hheap, hafter]
    cases hmark : f.last d.heap.length none with
    | none =>
        cases ho : f.lastOpen none with
        | none => simp
        | some o =>
            rw [hmark, ho] at hpoints
            exact hpoints.elim
    | some mark =>
        cases ho : f.lastOpen none with
        | none =>
            rw [hmark, ho] at hpoints
            exact hpoints.elim
        | some o =>
            rw [hmark, ho] at hpoints
            have hcheck := hpoints.2
            unfold check at hcheck
            simp only [hcheck]
            cases hown : o.validate <;> simp [hown]
  · simp [Scanner.step, hx, hafter]

end Scanner

namespace MarkupString

lemma returns_iff (r : Outcome) :
    (∃ result heap m, r = .returned result heap m) ↔ ∀ x, r ≠ .fault x := by
  cases r with
  | returned result heap m => simp
  | fault x => simp

/-- **Every access is guarded**, for a source of any kind, exactly if it has no closing tag where
no element is open, other than after a message. -/
theorem returns_iff_endsBefore (m : MarkupString) (heap : Markups) (src : Bytes) :
    (∃ result heap' m', m.decodeMarkup heap src = .returned result heap' m') ↔
      ∀ f t x rest, src = Source.bytes f ++ TAG_START :: t :: '/'.toUInt8 :: x :: rest →
        f.EndsBefore x := by
  rw [returns_iff]
  simp only [ne_eq, decodeMarkup_eq_fault]
  generalize hstart : ({ heap := heap, string := { m.reset with source := src } } :
    Scanner.Decoder) = d at *
  have hd : d.state = .outside ∧ d.mstack = [] ∧ d.current = none := by
    rw [← hstart]
    exact ⟨rfl, rfl, rfl⟩
  obtain ⟨houtside, hstack, hcurrent⟩ := hd
  have hsplit : ∀ (f : Source) (t x : UInt8) (rest : Bytes),
      f.bytes ++ TAG_START :: t :: '/'.toUInt8 :: x :: rest =
        (f.bytes ++ [TAG_START, t, '/'.toUInt8]) ++ x :: rest := by simp
  constructor
  · rintro h f t x rest rfl
    by_contra hends
    rw [Source.EndsBefore, not_or] at hends
    obtain ⟨hchecks, hlast⟩ := hends
    have haccepted : ∀ o ∈ f.checks, o.validate = none := by simpa using hchecks
    obtain ⟨y, hy⟩ := (Scanner.stray_fault_iff hstack hcurrent x).mpr hlast
    refine h y ?_
    have hbefore := Scanner.run_stray houtside haccepted t
    rw [hsplit, Scanner.run_append_ok hbefore, Scanner.run_cons, hy]
    rfl
  · intro h y hfault
    obtain ⟨u, c, v, d', rfl, hu, hread, hstep⟩ :=
      Scanner.exists_exit (Scanner.hasRead_nil houtside hstack) hfault
    obtain ⟨-, -, f, t, hw⟩ := hread.fault hstep
    rw [List.nil_append] at hw
    subst hw
    -- the scan has come to the tag, so there was no message before
    have hchecks := Scanner.checks_of_run_ok houtside hu
    rcases h f t c v (hsplit f t c v).symm with ⟨o, ho, hrejected⟩ | hlast
    · exact hrejected (hchecks o ho)
    · rw [Scanner.run_stray houtside hchecks] at hu
      cases hu
      exact (Scanner.stray_fault_iff hstack hcurrent c).mp ⟨y, hstep⟩ hlast

theorem lone_closing_tag_faults :
    MarkupString.decodeMarkup {} [] [TAG_START, 'c'.toUInt8, '/'.toUInt8, TAG_END] =
      .fault .badOptionalAccess := by
  decide

end MarkupString

end ForgeMush
