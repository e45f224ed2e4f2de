import ForgeMush.Malformed
import ForgeMush.Strings

/-!
Sources of any kind: which tag, if any, has the scan end with a message.

It is the first one that is validated and not accepted. That may happen at a closing tag at any
depth of a source that is cut off behind it.
-/

namespace ForgeMush

open Runs

lemma OpenTag.eq_errorMessage {o : OpenTag} {msg : Bytes} (h : o.validate = some msg) :
    msg = AnsiData.errorMessage o.text := by
  unfold OpenTag.validate Markup.validate at h
  split at h
  · exact AnsiData.eq_errorMessage h
  · cases h

lemma Source.exists_plain {s : Bytes} (h : TAG_START ∉ s) :
    ∃ f : Source, f.bytes = s ∧ f.text = s ∧ f.checks = [] := by
  induction s with
  | nil => exact ⟨.nil, rfl, rfl, rfl⟩
  | cons c s ih =>
      rw [List.mem_cons, not_or] at h
      obtain ⟨f, rfl, htext, hchecks⟩ := ih h.2
      exact ⟨.char c (Ne.symm h.1) f, rfl, by rw [Source.text, htext], hchecks⟩

namespace Scanner

def innermostOpen (levels : List Level) : Option OpenTag := levels.head?.map Prod.snd

/-- The tags validated up to there. -/
def levelChecks : List Level → List OpenTag
  | [] => []
  | (before, _) :: outer => levelChecks outer ++ before.checks

/-- The source comes to a closing tag that has `o` validated, which is the first tag validated
whose start text is not accepted. -/
def Rejects (src : Bytes) (o : OpenTag) : Prop :=
  ∃ levels f e rest, src = enclosing levels ++ Source.bytes f ++ CloseTag.bytes e ++ rest ∧
    (levels = [] → e.text = []) ∧ (∀ t ∈ levelChecks levels ++ f.checks, t.validate = none) ∧
    f.lastOpen (innermostOpen levels) = some o ∧ o.validate ≠ none

variable {d d' : Decoder} {levels : List Level} {f : Source} {o : OpenTag}

lemma Rejects.exists_message {src : Bytes} (h : Rejects src o) :
    ∃ msg, o.validate = some msg := by
  obtain ⟨levels, f, e, rest, -, -, -, -, hne⟩ := h
  exact Option.ne_none_iff_exists'.mp hne

/-- Where the scanner is inside the open elements. -/
structure Inside (levels : List Level) (d : Decoder) : Prop where
  state : d.state = .outside
  depth : d.mstack.length = levels.length
  current : Points d.heap d.current (innermostOpen levels)

/-- The same with `P` in the place of the messages. -/
structure InsideWith (P : Markup → OpenTag → Prop) (levels : List Level) (d : Decoder) :
    Prop where
  state : d.state = .outside
  depth : d.mstack.length = levels.length
  current : Linked P d.heap d.current (innermostOpen levels)

lemma inside_iff : Inside levels d ↔ InsideWith SameMessage levels d :=
  ⟨fun h => ⟨h.state, h.depth, points_iff.mp h.current⟩,
    fun h => ⟨h.state, h.depth, points_iff.mpr h.current⟩⟩

variable {P : Markup → OpenTag → Prop}

lemma InsideWith.after (hP : Lasting P) (h : InsideWith P levels d) (f : Source) :
    (after f d).state = .outside ∧ (after f d).mstack.length = levels.length ∧
    Linked P (after f d).heap (after f d).current (f.lastOpen (innermostOpen levels)) :=
  ⟨h.state, h.depth, linked_last hP f h.current⟩

lemma InsideWith.opened (hP : Lasting P) (h : InsideWith P levels d) (f : Source)
    (o : OpenTag) : InsideWith P ((f, o) :: levels) (opened o (Scanner.after f d)) where
  state := h.state
  depth := by simp [Scanner.opened, (h.after hP f).2.1]
  current := linked_new _ [] (hP.made o _)

/-- **The elements that are open**, where the tags validated before are accepted. -/
lemma run_enclosing_with (hP : Lasting P) (h : InsideWith P [] d)
    (hchecks : ∀ t ∈ levelChecks levels, t.validate = none) :
    ∃ d', run d (enclosing levels) = .ok d' ∧ InsideWith P levels d' := by
  induction levels with
  | nil => exact ⟨d, rfl, h⟩
  | cons level outer ih =>
      obtain ⟨before, o⟩ := level
      simp only [levelChecks, List.mem_append, or_imp, forall_and] at hchecks
      obtain ⟨d₁, hrun, hinside⟩ := ih hchecks.1
      refine ⟨_, ?_, hinside.opened hP before o⟩
      rw [enclosing, List.append_assoc, run_append_ok hrun,
        run_append_ok (run_accepted before hinside.state hchecks.2)]
      exact run_open (hinside.after hP before).1 o

lemma run_enclosing (h : Inside [] d) (hchecks : ∀ t ∈ levelChecks levels, t.validate = none) :
    ∃ d', run d (enclosing levels) = .ok d' ∧ Inside levels d' := by
  simp only [inside_iff] at h ⊢
  exact run_enclosing_with lasting_sameMessage h hchecks

lemma levelChecks_of_run_ok (h : Inside [] d) {s : Bytes}
    (hrun : run d (enclosing levels ++ s) = .ok d') :
    ∀ t ∈ levelChecks levels, t.validate = none := by
  induction levels generalizing s with
  | nil => exact fun t ht => absurd ht List.not_mem_nil
  | cons level outer ih =>
      obtain ⟨before, o⟩ := level
      rw [enclosing, List.append_assoc, List.append_assoc] at hrun
      have houter := ih hrun
      obtain ⟨d₁, hd₁, hinside⟩ := run_enclosing h houter
      rw [run_append_ok hd₁] at hrun
      intro t ht
      rcases List.mem_append.mp ht with ht | ht
      · exact houter t ht
      · exact checks_of_run_ok hinside.state hrun t ht

lemma linked_modify (hP : Lasting P) {heap : Markups} {current : OpMarkup} {o : Option OpenTag}
    (h : Linked P heap current o) (i : ShMarkup) (s : Bytes) :
    Linked P (heap.modify i fun k => { k with endText := k.endText ++ s }) current o := by
  cases current with
  | none =>
      cases o with
      | none => trivial
      | some o => exact h.elim
  | some mark =>
      cases o with
      | none => exact h.elim
      | some o =>
          obtain ⟨k, hk, hko⟩ := h
          by_cases himark : i = mark
          · refine ⟨{ k with endText := k.endText ++ s }, ?_, hP.endText _ _ _ hko⟩
            rw [himark, List.getElem?_modify_eq, hk]
            rfl
          · exact ⟨k, by rw [List.getElem?_modify_ne _ _ himark, hk], hko⟩

lemma exists_run_closing (hd : d.state = .outside) (e : CloseTag)
    (he : d.mstack = [] → e.text = []) :
    ∃ i, run d (TAG_START :: e.type :: '/'.toUInt8 :: e.text) = .ok { d with
      state := .closing
      heap := d.heap.modify i fun k => { k with endText := k.endText ++ e.text } } := by
  have hstart : step d TAG_START = .ok { d with state := .start } := by simp [step, hd]
  rw [run_cons_ok hstart, run_cons_ok rfl, run_cons_ok rfl]
  by_cases hstack : d.mstack = []
  · have hid : (fun k : Markup => { k with endText := k.endText ++ [] }) = id := by
      simp [funext_iff]
    refine ⟨0, ?_⟩
    rw [he hstack, hid, List.modify_id]
    rfl
  · obtain ⟨back, mstack, hcons⟩ := List.exists_cons_of_ne_nil hstack
    exact ⟨back, run_closing (d := { d with state := .closing }) rfl hcons e.ends⟩

lemma exists_run_close (hd : d.state = .outside) (e : CloseTag)
    (he : d.mstack = [] → e.text = []) :
    ∃ heap, run d e.bytes = close { d with state := .closing, heap := heap } ∧
      ∀ current o, Points d.heap current o → Points heap current o := by
  obtain ⟨i, hclosing⟩ := exists_run_closing hd e he
  refine ⟨_, ?_, fun current o h =>
    points_iff.mpr (linked_modify lasting_sameMessage (points_iff.mp h) i e.text)⟩
  have hbytes : e.bytes = TAG_START :: e.type :: '/'.toUInt8 :: e.text ++ [TAG_END] := rfl
  rw [hbytes, run_append_ok hclosing, run_cons]
  simp only [run_nil, step, if_true]
  exact bind_pure (m := Except Exit) _

/-- **What is current decides** how the tag ends. -/
lemma close_of_points {t : Option OpenTag} (h : Points d.heap d.current t) :
    (∀ heap m, close d = .error (.rejected heap m) → ∃ o, t = some o ∧ o.validate = some m.text) ∧
    ∀ o, t = some o → o.validate ≠ none → ∃ heap m, close d = .error (.rejected heap m) := by
  unfold close
  cases hcurrent : d.current with
  | none =>
      rw [hcurrent] at h
      refine ⟨fun heap m hclose => (nomatch hclose), ?_⟩
      rintro o rfl
      exact h.elim
  | some mark =>
      rw [hcurrent] at h
      cases t with
      | none => exact h.elim
      | some o =>
          have hcheck : d.heap[mark]?.bind Markup.validate = o.validate := h.2
          dsimp only
          rw [hcheck]
          cases hown : o.validate with
          | none =>
              refine ⟨fun heap m hclose => ?_, fun o' ho' hne => ?_⟩
              · dsimp only at hclose
                split at hclose <;> cases hclose
              · cases ho'
                exact absurd hown hne
          | some errmsg =>
              refine ⟨fun heap m hclose => ?_, fun _ _ _ => ⟨_, _, rfl⟩⟩
              cases hclose
              exact ⟨o, rfl, hown⟩

lemma Inside.run_close (h : Inside levels d) (hchecks : ∀ t ∈ f.checks, t.validate = none)
    (e : CloseTag) (he : levels = [] → e.text = []) :
    ∃ d', run d (f.bytes ++ e.bytes) = close d' ∧
      Points d'.heap d'.current (f.lastOpen (innermostOpen levels)) := by
  obtain ⟨hstate, hdepth, hcurrent⟩ := (inside_iff.mp h).after lasting_sameMessage f
  have hnil : (Scanner.after f d).mstack = [] → e.text = [] := by
    intro hnil
    rw [hnil] at hdepth
    exact he (List.length_eq_zero_iff.mp hdepth.symm)
  obtain ⟨heap, hrun, hpoints⟩ := exists_run_close hstate e hnil
  exact ⟨_, (run_append_ok (run_accepted f h.state hchecks) _).trans hrun,
    hpoints _ _ (points_iff.mpr hcurrent)⟩

lemma HasRead.rejected {w : Bytes} {c : UInt8} {heap : Markups} {m : MarkupString}
    (h : HasRead w d) (hstep : Scanner.step d c = .error (.rejected heap m)) :
    ∃ levels f e, w ++ [c] = enclosing levels ++ Source.bytes f ++ CloseTag.bytes e ∧
      (levels = [] → e.text = []) := by
  obtain ⟨hstate, rfl, -⟩ := close_of_rejected hstep
  obtain ⟨-, levels, f, tail, rfl, htail⟩ := h
  rw [Tail, hstate] at htail
  obtain ⟨-, t, e, rfl, he, hopen⟩ := htail
  exact ⟨levels, f, ⟨t, e, he⟩, by simp [CloseTag.bytes], hopen⟩

lemma rejects_of_run (h : Inside [] d) {src : Bytes} {heap : Markups}
    {m : MarkupString} (hrun : run d src = .error (.rejected heap m)) :
    ∃ o, Rejects src o ∧ o.validate = some m.text := by
  have hstart : HasRead [] d := hasRead_nil h.state (List.length_eq_zero_iff.mp h.depth)
  obtain ⟨u, c, v, d', rfl, hu, hread, hstep⟩ := exists_exit hstart hrun
  obtain ⟨levels, f, e, hw, he⟩ := hread.rejected hstep
  rw [List.nil_append] at hw
  have hrejected : run d (u ++ [c]) = .error (.rejected heap m) := by
    rw [run_append_ok hu, run_cons, hstep]
    rfl
  -- what comes before the closing tag is read, so that its tags are accepted
  have hbefore : ∃ s, u = enclosing levels ++ (f.bytes ++ s) := by
    refine ⟨e.bytes.dropLast, ?_⟩
    have hlast := congrArg List.dropLast hw
    rw [List.dropLast_concat] at hlast
    rw [hlast, List.dropLast_append_of_ne_nil (by simp [CloseTag.bytes]), List.append_assoc]
  obtain ⟨s, rfl⟩ := hbefore
  have hlevels := levelChecks_of_run_ok h hu
  obtain ⟨d₁, hd₁, hinside⟩ := run_enclosing h hlevels
  rw [run_append_ok hd₁] at hu
  have hf := checks_of_run_ok hinside.state hu
  obtain ⟨d₂, hd₂, hpoints⟩ := hinside.run_close hf e he
  rw [hw, List.append_assoc, run_append_ok hd₁, hd₂] at hrejected
  obtain ⟨o, ho, hmsg⟩ := (close_of_points hpoints).1 heap m hrejected
  refine ⟨o, ⟨levels, f, e, v, ?_, he, ?_, ho, by simp [hmsg]⟩, hmsg⟩
  · rw [← hw]
    simp
  · intro t ht
    rcases List.mem_append.mp ht with ht | ht
    · exact hlevels t ht
    · exact hf t ht

lemma run_of_rejects (h : Inside [] d) {src : Bytes} (hrejects : Rejects src o) :
    ∃ heap m, run d src = .error (.rejected heap m) ∧ o.validate = some m.text := by
  obtain ⟨levels, f, e, rest, rfl, he, hchecks, ho, hne⟩ := hrejects
  simp only [List.mem_append, or_imp, forall_and] at hchecks
  obtain ⟨d₁, hd₁, hinside⟩ := run_enclosing h hchecks.1
  obtain ⟨d₂, hd₂, hpoints⟩ := hinside.run_close hchecks.2 e he
  obtain ⟨heap, m, hclose⟩ := (close_of_points hpoints).2 o ho hne
  obtain ⟨o', ho', hmsg⟩ := (close_of_points hpoints).1 heap m hclose
  rw [ho] at ho'
  cases ho'
  refine ⟨heap, m, ?_, hmsg⟩
  rw [List.append_assoc, List.append_assoc, run_append_ok hd₁, ← List.append_assoc]
  exact run_append_error (hd₂.trans hclose) rest

end Scanner

namespace MarkupString

variable {m m' : MarkupString} {heap heap' : Markups} {src : Bytes}

/-- **A message** is that of the first tag that is validated and not accepted. -/
theorem decodeMarkup_false_iff (m : MarkupString) (heap : Markups) (src msg : Bytes) :
    (∃ heap' m', m.decodeMarkup heap src = .returned false heap' m' ∧ m'.text = msg) ↔
      ∃ o, Scanner.Rejects src o ∧ o.validate = some msg := by
  have hinside : Scanner.Inside [] { heap := heap, string := { m.reset with source := src } } :=
    ⟨rfl, rfl, trivial⟩
  simp only [decodeMarkup_eq_false]
  constructor
  · rintro ⟨heap', m', hrun, rfl⟩
    exact Scanner.rejects_of_run hinside hrun
  · rintro ⟨o, ho, hmsg⟩
    obtain ⟨heap', m', hrun, hmsg'⟩ := Scanner.run_of_rejects hinside ho
    rw [hmsg] at hmsg'
    exact ⟨heap', m', hrun, (Option.some.inj hmsg').symm⟩

lemma validate_of_rejects (h : m.decodeMarkup heap src = .returned false heap' m') {o : OpenTag}
    (ho : Scanner.Rejects src o) : o.validate = some m'.text := by
  obtain ⟨msg, hmsg⟩ := ho.exists_message
  obtain ⟨heap₁, m₁, hdecode, rfl⟩ := (decodeMarkup_false_iff m heap src msg).mpr ⟨o, ho, hmsg⟩
  rw [h] at hdecode
  cases hdecode
  exact hmsg

lemma returned_false_iff {result : Bool} (h : m.decodeMarkup heap src = .returned result heap' m') :
    result = false ↔ ∃ o, Scanner.Rejects src o := by
  constructor
  · rintro rfl
    obtain ⟨o, ho, -⟩ := (decodeMarkup_false_iff m heap src _).mp ⟨heap', m', h, rfl⟩
    exact ⟨o, ho⟩
  · rintro ⟨o, ho⟩
    obtain ⟨msg, hmsg⟩ := ho.exists_message
    obtain ⟨heap₁, m₁, hdecode, -⟩ := (decodeMarkup_false_iff m heap src msg).mpr ⟨o, ho, hmsg⟩
    rw [h] at hdecode
    cases hdecode
    rfl

/-! ### Tags in the text -/

lemma mem_errorMessage (s : Bytes) : TAG_START ∈ AnsiData.errorMessage s ↔ TAG_START ∈ s := by
  have hprefix : TAG_START ∉ ascii "#-1 INVALID ANSI DEFINITION: " := by decide
  rw [AnsiData.errorMessage, List.mem_append, or_iff_right hprefix]

lemma tag_not_mem_scan {d d' : Scanner.Decoder} (h : Scanner.run d src = .ok d')
    (hd : TAG_START ∉ d.string.text) : TAG_START ∉ d'.string.text := by
  induction src generalizing d with
  | nil =>
      cases h
      exact hd
  | cons c src ih =>
      cases hstep : Scanner.step d c with
      | error x =>
          rw [Scanner.run_cons, hstep] at h
          cases h
      | ok d₁ =>
          rw [Scanner.run_cons_ok hstep] at h
          refine ih h ?_
          rcases Scanner.step_ok hstep with heq | ⟨hc, heq⟩ | ⟨mark, heq⟩
          · rwa [heq]
          · rw [heq]
            simpa [hd] using hc.symm
          · rwa [heq]

lemma SameLength.decodes_plain (h : m.SameLength) (heap : Markups) {s : Bytes}
    (hs : TAG_START ∉ s) :
    ∃ heap' m', m.decodeMarkup heap s = .returned true heap' m' ∧ m'.text = s := by
  obtain ⟨f, rfl, htext, hchecks⟩ := Source.exists_plain hs
  have haccepted : ∀ o ∈ f.checks, o.validate = none := by simp [hchecks]
  refine ⟨_, _, decodeMarkup_accepted haccepted m heap, ?_⟩
  dsimp only
  rw [h.text_reset, htext, List.nil_append]

/-- The text has no start of a tag in it, and decoding it again returns true and leaves it. -/
def Settled (heap : Markups) (m : MarkupString) : Prop :=
  TAG_START ∉ m.text ∧
    ∃ heap' m', m.decodeMarkup heap m.text = .returned true heap' m' ∧ m'.text = m.text

/-- **No tag is left in the text** that a source of any kind is decoded to, exactly if there is
none in the start text that has the scan end with a message, if one has. -/
theorem settled_iff_rejected_plain {tr : List (Strings.Event × Strings)}
    (h : Run Strings.Step {} tr) (m : MarkupString) (hm : m ∈ (final {} tr).objects)
    (heap : Markups) (src : Bytes) (result : Bool) (heap' : Markups) (m' : MarkupString)
    (hdecode : m.decodeMarkup heap src = .returned result heap' m') :
    m'.Settled heap' ↔ ∀ o, Scanner.Rejects src o → TAG_START ∉ o.text := by
  have hlen := Strings.sameLength_of_run h m hm
  have hsettled : m'.Settled heap' ↔ TAG_START ∉ m'.text :=
    ⟨fun hs => hs.1, fun ht => ⟨ht, (hlen.decodeMarkup hdecode).sameLength.decodes_plain heap' ht⟩⟩
  rw [hsettled]
  cases result with
  | false =>
      have htext : ∀ o, Scanner.Rejects src o → (TAG_START ∈ m'.text ↔ TAG_START ∈ o.text) := by
        intro o ho
        rw [OpenTag.eq_errorMessage (validate_of_rejects hdecode ho), mem_errorMessage]
      constructor
      · intro hnot o ho
        rwa [← htext o ho]
      · intro hall
        obtain ⟨o, ho⟩ := (returned_false_iff hdecode).mp rfl
        rw [htext o ho]
        exact hall o ho
  | true =>
      have hnone : ¬ ∃ o, Scanner.Rejects src o := by
        rw [← returned_false_iff hdecode]
        simp
      obtain ⟨d, hrun, rfl, rfl⟩ := decodeMarkup_eq_true.mp hdecode
      have htext := tag_not_mem_scan hrun (by simp [hlen.text_reset])
      exact ⟨fun _ o ho => absurd ⟨o, ho⟩ hnone, fun _ => htext⟩

def emptyElement (c : UInt8) : Bytes :=
  [TAG_START, 'c'.toUInt8, c, TAG_END, TAG_START, 'c'.toUInt8, '/'.toUInt8, TAG_END]

/-- The message has no start of a tag in it. -/
theorem plain_message_settled : (∃ heap m', MarkupString.decodeMarkup {} []
      (emptyElement '?'.toUInt8) = .returned false heap m' ∧ m'.Settled heap) ∧
    ¬ ∃ o, Scanner.Rejects (emptyElement '?'.toUInt8) o ∧ TAG_START ∈ o.text := by
  have hrun : Run Strings.Step {} [(.construct, _)] := .cons rfl (.nil _)
  have hsettled : ∃ heap m', MarkupString.decodeMarkup {} [] (emptyElement '?'.toUInt8) =
      .returned false heap m' ∧ m'.Settled heap :=
    ⟨_, _, rfl, by decide, _, _, rfl, rfl⟩
  refine ⟨hsettled, ?_⟩
  obtain ⟨heap, m', hdecode, hm'⟩ := hsettled
  rintro ⟨o, ho, htag⟩
  exact (settled_iff_rejected_plain hrun {} List.mem_cons_self [] _ false heap m' hdecode).mp hm' o
    ho htag

/-- The start text is itself the start of a tag, and gets into the text with the message. -/
theorem tag_in_message : ∃ heap m', MarkupString.decodeMarkup {} [] (emptyElement TAG_START) =
    .returned false heap m' ∧ TAG_START ∈ m'.text ∧ ¬ m'.Settled heap :=
  ⟨_, _, rfl, by decide, fun h => h.1 (by decide)⟩

end MarkupString

end ForgeMush
