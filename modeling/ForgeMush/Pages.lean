import ForgeMush.Forgetting

/-!
What a program sees of its strings: pages, which have no markups.

A page is the text of a string, its source and the characters of its index. What a source is
decoded to is read off the source alone: the message of the tag that is rejected, or else what
stands outside of the tags.
-/

namespace ForgeMush

open Runs

/-- What comes after the end of the tag. -/
def afterTag (s : Bytes) : Bytes := (s.dropWhile fun c => c ≠ TAG_END).tail

lemma length_afterTag_le (s : Bytes) : (afterTag s).length ≤ s.length := by
  unfold afterTag
  rw [List.length_tail]
  have hle := (List.dropWhile_suffix (fun c => decide (c ≠ TAG_END)) (l := s)).length_le
  omega

lemma afterTag_end (s : Bytes) : afterTag (TAG_END :: s) = s := by
  simp [afterTag]

lemma afterTag_cons {c : UInt8} (h : c ≠ TAG_END) (s : Bytes) :
    afterTag (c :: s) = afterTag s := by
  simp [afterTag, h]

/-- The characters outside of tags. The two that follow `TAG_START` never end a tag. -/
def untagged : Bytes → Bytes
  | [] => []
  | c :: s => if c = TAG_START then untagged (afterTag (s.drop 2)) else c :: untagged s
termination_by s => s.length
decreasing_by
  · have hle := length_afterTag_le (s.drop 2)
    rw [List.length_drop] at hle
    simp only [List.length_cons]
    omega
  · simp

@[simp] lemma untagged_nil : untagged [] = [] := by rw [untagged]

lemma untagged_tag (s : Bytes) : untagged (TAG_START :: s) = untagged (afterTag (s.drop 2)) := by
  rw [untagged, if_pos rfl]

lemma untagged_cons {c : UInt8} (h : c ≠ TAG_START) (s : Bytes) :
    untagged (c :: s) = c :: untagged s := by
  rw [untagged, if_neg h]

/-! ### Scanning -/

namespace Scanner

/-- What is left of the source when the tag is over that the scanner is in. -/
def State.rest (s : Bytes) : State → Bytes
  | .outside => s
  | .start => afterTag (s.drop 2)
  | .inside _ => afterTag (s.drop 1)
  | .opening | .closing => afterTag s

lemma rest_nil (state : State) : state.rest [] = [] := by
  cases state <;> rfl

/-- The scanner has entered `shown` since `d`, into the text and without markup. -/
structure Shown (shown : Bytes) (d d' : Decoder) : Prop where
  text : d'.string.text = d.string.text ++ shown
  idx : d'.string.idx = d.string.idx ++ plainIdx shown
  source : d'.string.source = d.string.source

variable {d d' d'' : Decoder} {s t : Bytes} {c : UInt8}

lemma Shown.of_eq (h : d'.string.text = d.string.text) (hidx : d'.string.idx = d.string.idx)
    (hsource : d'.string.source = d.string.source) : Shown [] d d' :=
  ⟨by rw [h, List.append_nil], by rw [hidx, plainIdx, List.map_nil, List.append_nil], hsource⟩

lemma Shown.trans (h : Shown s d d') (h' : Shown t d' d'') : Shown (s ++ t) d d'' where
  text := by rw [h'.text, h.text, List.append_assoc]
  idx := by rw [h'.idx, h.idx, plainIdx, plainIdx, plainIdx, List.map_append, List.append_assoc]
  source := h'.source.trans h.source

/-- **A turn** enters the character if it stands outside of the tags. -/
lemma shown_step (h : step d c = .ok d') (src : Bytes) : ∃ shown, Shown shown d d' ∧
    untagged (d.state.rest (c :: src)) = shown ++ untagged (d'.state.rest src) := by
  obtain ⟨state, heap, string, mstack, current⟩ := d
  cases state with
  | outside =>
      simp only [step] at h
      split_ifs at h with hc
      · cases h
        subst hc
        exact ⟨[], .of_eq rfl rfl rfl, untagged_tag src⟩
      · cases h
        exact ⟨[c], ⟨rfl, rfl, rfl⟩, untagged_cons hc src⟩
  | start =>
      cases h
      exact ⟨[], .of_eq rfl rfl rfl, rfl⟩
  | inside tag =>
      simp only [step] at h
      split_ifs at h
      · cases h
        exact ⟨[], .of_eq rfl rfl rfl, rfl⟩
      · cases h
        exact ⟨[], .of_eq rfl rfl rfl, rfl⟩
  | opening =>
      simp only [step] at h
      split_ifs at h with hc
      · cases h
        exact ⟨[], .of_eq rfl rfl rfl, congrArg untagged (hc ▸ afterTag_end src)⟩
      · split at h
        · cases h
        · cases h
          exact ⟨[], .of_eq rfl rfl rfl, congrArg untagged (afterTag_cons hc src)⟩
  | closing =>
      simp only [step] at h
      split_ifs at h with hc
      · obtain ⟨back, mstack', -, rfl⟩ := close_ok h
        exact ⟨[], .of_eq rfl rfl rfl, congrArg untagged (hc ▸ afterTag_end src)⟩
      · split at h
        · cases h
        · cases h
          exact ⟨[], .of_eq rfl rfl rfl, congrArg untagged (afterTag_cons hc src)⟩

/-- **A scan** enters what stands outside of the tags. -/
lemma shown_run {src : Bytes} (h : run d src = .ok d') :
    Shown (untagged (d.state.rest src)) d d' := by
  induction src generalizing d with
  | nil =>
      cases h
      rw [rest_nil, untagged_nil]
      exact .of_eq rfl rfl rfl
  | cons c src ih =>
      cases hstep : step d c with
      | error x =>
          rw [run_cons, hstep] at h
          cases h
      | ok d₁ =>
          rw [run_cons_ok hstep] at h
          obtain ⟨shown, hshown, heq⟩ := shown_step hstep src
          rw [heq]
          exact hshown.trans (ih h)

lemma source_of_rejected {src : Bytes} {heap : Markups} {m : MarkupString}
    (h : run d src = .error (.rejected heap m)) : m.source = d.string.source := by
  induction src generalizing d with
  | nil => cases h
  | cons c src ih =>
      cases hstep : step d c with
      | error x =>
          rw [run_cons, hstep] at h
          cases h
          obtain ⟨errmsg, rfl⟩ := step_rejected hstep
          rfl
      | ok d₁ =>
          rw [run_cons_ok hstep] at h
          obtain ⟨shown, hshown, -⟩ := shown_step hstep []
          exact (ih h).trans hshown.source

end Scanner

/-! ### Pages -/

/-- A string without its markups. -/
structure Page where
  text : Bytes := []
  source : Bytes := []
  index : Bytes := []

namespace Page

def plain (s source : Bytes) : Page where
  text := s
  source := source
  index := s

/-- The page that a source is decoded to. -/
inductive Displays (src : Bytes) : Page → Prop
  | accepted (h : ∀ o, ¬ Scanner.Rejects src o) : Displays src (plain (untagged src) src)
  | rejected {o : OpenTag} (h : Scanner.Rejects src o) :
    Displays src (plain (AnsiData.errorMessage o.text) src)

def append (m other : Page) : Page where
  text := m.text ++ other.text
  source := m.source ++ other.source
  index := m.index ++ other.index

def appendString (m : Page) (s : Bytes) : Page :=
  { m with text := m.text ++ s, index := m.index ++ s }

def write (m : Page) (pos : ℕ) (c : UInt8) : Page := { m with text := m.text.set pos c }

end Page

abbrev Pages := List Page

namespace Pages

def Changes (p : Pages) (i : ℕ) (f : Page → Page) (p' : Pages) : Prop :=
  ∃ m, p[i]? = some m ∧ p' = p.set i (f m)

def Constructs (p : Pages) (i : ℕ) (f : Page → Page) (p' : Pages) : Prop :=
  ∃ m, p[i]? = some m ∧ p' = p ++ [f m]

def Decodes (p : Pages) (i : ℕ) (src : Bytes) (p' : Pages) : Prop :=
  ∃ m, m.Displays src ∧ p.Changes i (fun _ => m) p'

def Step (p : Pages) : Strings.Event → Pages → Prop
  | .construct, p' => p' = p ++ [{}]
  | .constructCopy i, p' => p.Constructs i id p'
  | .constructString s, p' => p' = p ++ [.plain s s]
  | .assign i j, p' => ∃ other, p[j]? = some other ∧ p.Changes i (fun _ => other) p'
  | .decodeMarkup i src, p' => p.Decodes i src p'
  | .decodeMarkupC i src, p' => p.Decodes i (cString src) p'
  | .append i j, p' => ∃ other, p[j]? = some other ∧ p.Changes i (fun m => m.append other) p'
  | .appendString i s, p' => p.Changes i (fun m => m.appendString s) p'
  | .appendC i s, p' => p.Changes i (fun m => m.appendString (cString s)) p'
  | .appendChar i c, p' => p.Changes i (fun m => m.appendString [c]) p'
  | .plus i j, p' => ∃ other, p[j]? = some other ∧ p.Constructs i (fun m => m.append other) p'
  | .plusString i s, p' => p.Constructs i (fun m => m.appendString s) p'
  | .plusC i s, p' => p.Constructs i (fun m => m.appendString (cString s)) p'
  | .plusChar i c, p' => p.Constructs i (fun m => m.appendString [c]) p'
  | .pushBack i c, p' => p.Changes i (fun m => m.appendString [c]) p'
  | .clear i, p' => p.Changes i (fun _ => {}) p'
  | .write i pos c, p' => ∃ m, p[i]? = some m ∧ pos < m.text.length ∧ p' = p.set i (m.write pos c)

end Pages

/-! ### What is seen of the strings -/

namespace MarkupString

def page (m : MarkupString) : Page where
  text := m.text
  source := m.source
  index := m.idx.map Prod.snd

/-- There is a character for each entry of the index, and no entry has a markup. -/
structure Plain (m : MarkupString) : Prop where
  sameLength : m.SameLength
  unmarked : ∀ e ∈ m.idx, e.1 = none

variable {m m' other : MarkupString}

lemma page_append (m other : MarkupString) : (m.append other).page = m.page.append other.page := by
  simp [page, append, Page.append]

lemma page_appendString (m : MarkupString) (s : Bytes) :
    (m.appendString s).page = m.page.appendString s := by
  simp [page, appendString, Page.appendString, map_snd_plainIdx]

lemma page_ofString (s : Bytes) : (ofString s).page = .plain s s := by
  simp [page, ofString, Page.plain, map_snd_plainIdx]

lemma unmarked_plainIdx (s : Bytes) : ∀ e ∈ plainIdx s, e.1 = none := by
  simp [plainIdx]

/-- What is decoded is without markup in its index, and its page is read off the source. -/
lemma Plain.decodeMarkup (h : m.Plain) {heap heap' : Markups} {src : Bytes} {result : Bool}
    (hdecode : m.decodeMarkup heap src = .returned result heap' m') :
    m'.Plain ∧ m'.page.Displays src := by
  have hlen := (h.sameLength.decodeMarkup hdecode).sameLength
  cases result with
  | true =>
      have hnone : ∀ o, ¬ Scanner.Rejects src o := fun o ho =>
        absurd ((returned_false_iff hdecode).mpr ⟨o, ho⟩) (by decide)
      obtain ⟨d, hrun, -, rfl⟩ := decodeMarkup_eq_true.mp hdecode
      obtain ⟨htext, hidx, hsource⟩ := Scanner.shown_run hrun
      rw [h.sameLength.text_reset, List.nil_append] at htext
      rw [m.idx_reset, List.nil_append] at hidx
      have hpage : d.string.page = .plain (untagged src) src := by
        rw [page, htext, hidx, hsource, map_snd_plainIdx]
        rfl
      refine ⟨⟨hlen, ?_⟩, hpage ▸ .accepted hnone⟩
      rw [hidx]
      exact unmarked_plainIdx _
  | false =>
      obtain ⟨o, ho⟩ := (returned_false_iff hdecode).mp rfl
      obtain ⟨-, hidx⟩ := plain_of_returned_false hdecode
      have hsource := Scanner.source_of_rejected (decodeMarkup_eq_false.mp hdecode)
      have hpage : m'.page = .plain (AnsiData.errorMessage o.text) src := by
        rw [page, hidx, map_snd_plainIdx, hsource,
          OpenTag.eq_errorMessage (validate_of_rejects hdecode ho)]
        rfl
      refine ⟨⟨hlen, ?_⟩, hpage ▸ .rejected ho⟩
      rw [hidx]
      exact unmarked_plainIdx _

end MarkupString

namespace Strings

def pages (p : Strings) : Pages := p.objects.map MarkupString.page

def AllPlain (p : Strings) : Prop := ∀ m ∈ p.objects, m.Plain

variable {p p' : Strings}

lemma getElem?_pages {i : ℕ} {m : MarkupString} (h : p.objects[i]? = some m) :
    p.pages[i]? = some m.page := by
  rw [pages, List.getElem?_map, h]
  rfl

lemma Changes.pages {i : ℕ} {f : MarkupString → MarkupString} {g : Page → Page}
    (hfg : ∀ m, (f m).page = g m.page) (h : p.Changes i f p') : p.pages.Changes i g p'.pages := by
  obtain ⟨m, hm, rfl⟩ := h
  refine ⟨m.page, getElem?_pages hm, ?_⟩
  rw [Strings.pages, List.map_set, hfg]
  rfl

lemma Constructs.pages {i : ℕ} {f : MarkupString → MarkupString} {g : Page → Page}
    (hfg : ∀ m, (f m).page = g m.page) (h : p.Constructs i f p') :
    p.pages.Constructs i g p'.pages := by
  obtain ⟨m, hm, rfl⟩ := h
  refine ⟨m.page, getElem?_pages hm, ?_⟩
  rw [Strings.pages, List.map_append, List.map_singleton, hfg]
  rfl

lemma Decodes.pages (hp : p.AllPlain) {i : ℕ} {src : Bytes} (h : p.Decodes i src p') :
    p.pages.Decodes i src p'.pages := by
  obtain ⟨m, result, heap, m', hm, hdecode, rfl⟩ := h
  obtain ⟨-, hdisplays⟩ := (hp m (List.mem_of_getElem? hm)).decodeMarkup hdecode
  refine ⟨m'.page, hdisplays, m.page, getElem?_pages hm, ?_⟩
  rw [Strings.pages, List.map_set]
  rfl

lemma AllPlain.step {e : Event} (hp : p.AllPlain) (hstep : Step p e p') : p'.AllPlain := by
  refine (makes_of_step hstep).all hp fun m hm => ?_
  cases hm with
  | empty => exact ⟨rfl, by simp⟩
  | old hm => exact hp m hm
  | ofString _ => exact ⟨(MarkupString.inStep_ofString _).sameLength,
      MarkupString.unmarked_plainIdx _⟩
  | decoded hm _ hdecode => exact ((hp _ hm).decodeMarkup hdecode).1
  | joined hm hother =>
      refine ⟨(hp _ hm).sameLength.append (hp _ hother).sameLength, fun e he => ?_⟩
      rcases List.mem_append.mp he with he | he
      · exact (hp _ hm).unmarked e he
      · exact (hp _ hother).unmarked e he
  | appended hm _ =>
      refine ⟨?_, fun e he => ?_⟩
      · have hlen := (hp _ hm).sameLength
        unfold MarkupString.SameLength at hlen ⊢
        simp only [MarkupString.appendString, List.length_append, hlen, plainIdx, List.length_map]
      · rcases List.mem_append.mp he with he | he
        · exact (hp _ hm).unmarked e he
        · exact MarkupString.unmarked_plainIdx _ e he
  | written _ hm _ =>
      have hplain := hp _ (List.mem_of_getElem? hm)
      refine ⟨?_, hplain.unmarked⟩
      have hlen := hplain.sameLength
      unfold MarkupString.SameLength at hlen ⊢
      rwa [MarkupString.write, List.length_set]

/-- **An operation** does to the pages what it says, whatever the markups are. -/
lemma step_pages {e : Event} (hp : p.AllPlain) (hstep : Step p e p') :
    p.pages.Step e p'.pages := by
  cases e with
  | construct =>
      cases hstep
      exact List.map_append
  | constructCopy i => exact Constructs.pages (fun _ => rfl) hstep
  | constructString s =>
      cases hstep
      rw [Pages.Step, ← MarkupString.page_ofString]
      exact List.map_append
  | assign i j =>
      obtain ⟨other, hother, h⟩ := hstep
      exact ⟨other.page, getElem?_pages hother, h.pages fun _ => rfl⟩
  | decodeMarkup i src => exact Decodes.pages hp hstep
  | decodeMarkupC i src => exact Decodes.pages hp hstep
  | append i j =>
      obtain ⟨other, hother, h⟩ := hstep
      exact ⟨other.page, getElem?_pages hother, h.pages fun m => m.page_append other⟩
  | appendString i s => exact Changes.pages (fun m => m.page_appendString s) hstep
  | appendC i s => exact Changes.pages (fun m => m.page_appendString _) hstep
  | appendChar i c => exact Changes.pages (fun m => m.page_appendString [c]) hstep
  | plus i j =>
      obtain ⟨other, hother, h⟩ := hstep
      exact ⟨other.page, getElem?_pages hother, h.pages fun m => m.page_append other⟩
  | plusString i s => exact Constructs.pages (fun m => m.page_appendString s) hstep
  | plusC i s => exact Constructs.pages (fun m => m.page_appendString _) hstep
  | plusChar i c => exact Constructs.pages (fun m => m.page_appendString [c]) hstep
  | pushBack i c => exact Changes.pages (fun m => m.page_appendString [c]) hstep
  | clear i => exact Changes.pages (fun _ => rfl) hstep
  | write i pos c =>
      obtain ⟨m, hm, hpos, rfl⟩ := hstep
      refine ⟨m.page, getElem?_pages hm, hpos, ?_⟩
      rw [Strings.pages, List.map_set]
      rfl

/-- **Markups are never seen**: a run of a program with strings is, to one that reads their texts,
sources and indexes, a run with pages, and no entry of an index ever has a markup. -/
theorem run_pages (tr : List (Event × Strings)) (h : Run Step {} tr) :
    Run Pages.Step [] (tr.map fun x => (x.1, x.2.pages)) ∧
      ∀ m ∈ (final {} tr).objects, ∀ e ∈ m.idx, e.1 = none := by
  have hinit : AllPlain {} := fun m hm => absurd hm List.not_mem_nil
  constructor
  · exact h.abstract (I := AllPlain) (fun p e p' hp hstep => ⟨hp.step hstep, step_pages hp hstep⟩)
      hinit
  · have hall := h.invariant (I := AllPlain) (fun p e p' hp hstep => hp.step hstep) hinit
    exact fun m hm => (hall m hm).unmarked

/-- A red element is decoded between two letters, and joined to a string. -/
theorem decoded_pages : ∃ tr : List (Event × Strings), Run Step {} tr ∧
    events tr = [.construct, .decodeMarkup 0 (97 :: MarkupString.bare ++ [98]), .plus 0 0] ∧
    Run Pages.Step [] (tr.map fun x => (x.1, x.2.pages)) ∧
    (final {} tr).objects.map MarkupString.text = [[97, 98], [97, 98, 97, 98]] := by
  have hrun : Run Step {} [(.construct, _),
      (.decodeMarkup 0 (97 :: MarkupString.bare ++ [98]), _), (.plus 0 0, _)] :=
    .cons rfl (.cons ⟨_, _, _, _, rfl, rfl, rfl⟩ (.cons ⟨_, rfl, _, rfl, rfl⟩ (.nil _)))
  exact ⟨_, hrun, rfl, (run_pages _ hrun).1, rfl⟩

end Strings

end ForgeMush
