import ForgeMush.Attribution

/-!
What is left of a well-nested source without its tags, and the list of its tags.
-/

namespace ForgeMush

namespace Source

def elements : Source → List (OpenTag × CloseTag)
  | nil => []
  | char _ _ rest => rest.elements
  | element o body e rest => (o, e) :: (body.elements ++ rest.elements)

lemma texts_tags (f : Source) (n : ℕ) (current : OpMarkup) :
    (f.tags n current).map (fun k => (k.startText, k.endText)) =
      f.elements.map fun t => (t.1.text, t.2.text) := by
  induction f generalizing n current with
  | nil => rfl
  | char c _ rest ih => exact ih n current
  | element o body e rest ihbody ihrest =>
      simp only [tags, elements, List.map_cons, List.map_append, ihbody, ihrest]
      rfl

end Source

/-- The call returns true. The text is the source without its tags, the source is kept, and the
markups listed are those of its elements, each with its start text and end text. -/
def Outcome.Strips (f : Source) : Outcome → Prop
  | .returned true heap m => m.text = f.text ∧ m.source = f.bytes ∧
      m.markup.map (fun mark => heap[mark]?.map fun k => (k.startText, k.endText)) =
        f.elements.map fun t => some (t.1.text, t.2.text)
  | _ => False

namespace MarkupString

lemma map_getElem?_append {α : Type*} (h l : List α) :
    (List.range' h.length l.length).map (fun i => (h ++ l)[i]?) = l.map some := by
  refine List.ext_getElem (by simp) fun i hi hi' => ?_
  have hlt : i < l.length := by simpa using hi
  simp [hlt]

/-- **Tags are stripped** from a well-nested source whose start texts are all accepted, and
listed with their texts. -/
theorem decodeMarkup_strips (f : Source) (hopens : ∀ o ∈ f.opens, o.validate = none)
    (heap : Markups) : (decodeMarkup {} heap f.bytes).Strips f := by
  rw [decodeMarkup_accepted (checks_accepted hopens)]
  refine ⟨rfl, rfl, ?_⟩
  have hlist := map_getElem?_append heap (f.tags heap.length none)
  rw [Source.length_tags] at hlist
  calc (List.range' heap.length f.count).map (fun mark =>
        (heap ++ f.tags heap.length none)[mark]?.map fun k => (k.startText, k.endText))
      = ((List.range' heap.length f.count).map fun mark =>
          (heap ++ f.tags heap.length none)[mark]?).map
            (Option.map fun k => (k.startText, k.endText)) := by
        rw [List.map_map]
        rfl
    _ = ((f.tags heap.length none).map fun k => (k.startText, k.endText)).map some := by
        rw [hlist, List.map_map, List.map_map]
        rfl
    _ = f.elements.map fun t => some (t.1.text, t.2.text) := by
        rw [f.texts_tags, List.map_map]
        rfl

theorem ended_stripped : ∃ f : Source,
    f.bytes = ascii "\x02cr\x03a\x02pb\x03b\x02p/x\x03\x02c/y\x03" ∧
    (decodeMarkup {} [] f.bytes).Strips f := by
  refine ⟨.element ⟨'c'.toUInt8, 'r'.toUInt8, [], by decide, by decide⟩ (.char 97 (by decide)
    (.element ⟨'p'.toUInt8, 'b'.toUInt8, [], by decide, by decide⟩ (.char 98 (by decide) .nil)
      ⟨'p'.toUInt8, ['x'.toUInt8], by decide⟩ .nil))
    ⟨'c'.toUInt8, ['y'.toUInt8], by decide⟩ .nil, by decide, decodeMarkup_strips _ ?_ []⟩
  exact List.forall_mem_cons.mpr ⟨by decide, List.forall_mem_singleton.mpr (by decide)⟩

end MarkupString

end ForgeMush
