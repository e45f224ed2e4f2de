import ForgeMush.Grammar
import ForgeMush.Matching

/-!
The format of the definitions of colours that `parse_markup` accepts.

Behind spaces and markers there is nothing, or one definition in one of six forms.
-/

namespace ForgeMush.AnsiData

open Regex

/-- Up to three digits. -/
structure Channel where
  digits : Bytes
  digit : ∀ c ∈ digits, isDigit c
  one : 1 ≤ digits.length
  three : digits.length ≤ 3

structure Gap where
  spaces : Bytes
  space : ∀ c ∈ spaces, isSpace c
  one : 1 ≤ spaces.length

/-- A definition that is well formed. -/
inductive Definition
  /-- Letters with spaces between them, and none at the end. -/
  | letters (w : Bytes) (hw : ∀ c ∈ w, isLetterOrSpace c) (hlast : w.getLast?.any isLower)
  | numbers (w : Bytes) (hw : ∀ c ∈ w, isDigit c) (hone : 1 ≤ w.length)
  | rgb (red : Channel) (gap : Gap) (green : Channel) (gap' : Gap) (blue : Channel)
  /-- In angle brackets or not. -/
  | hex (angled : Bool) (w : Bytes) (hw : ∀ c ∈ w, isHex c) (hsix : w.length = 6)
  | name (w : Bytes) (hw : ∀ c ∈ w, isWord c) (hone : 1 ≤ w.length)

def Definition.bytes : Definition → Bytes
  | letters w _ _ => w
  | numbers w _ _ => w
  | rgb red gap green gap' blue =>
    '<'.toUInt8 :: red.digits ++ gap.spaces ++ green.digits ++ gap'.spaces ++ blue.digits ++
      ['>'.toUInt8]
  | hex true w _ _ => '<'.toUInt8 :: '#'.toUInt8 :: w ++ ['>'.toUInt8]
  | hex false w _ _ => '#'.toUInt8 :: w
  | name w _ _ => '+'.toUInt8 :: w

variable {b s : Bytes}

lemma isWord_of_isDigit {c : UInt8} (h : isDigit c) : isWord c := by
  simp [isWord, h]

lemma isWord_of_isHex {c : UInt8} (h : isHex c) : isWord c := by
  simp only [isHex, Bool.or_eq_true, Bool.and_eq_true, decide_eq_true_eq] at h
  rcases h with h | ⟨hA, hF⟩
  · exact isWord_of_isDigit h
  · have hZ : c ≤ 'Z'.toUInt8 := UInt8.le_trans hF (by decide)
    simp [isWord, isUpper, hA, hZ]

lemma isWord_iff_isLower {c : UInt8} (h : isLetterOrSpace c) : isWord c ↔ isLower c := by
  simp only [isLetterOrSpace, Bool.or_eq_true, decide_eq_true_eq] at h
  rcases h with h | rfl
  · simp [isWord, h]
  · decide

lemma any_getLast {p : UInt8 → Bool} (hall : ∀ c ∈ s, p c) (hone : 1 ≤ s.length) :
    s.getLast?.any p := by
  have hne : s ≠ [] := List.ne_nil_of_length_pos hone
  rw [List.getLast?_eq_getLast_of_ne_nil hne]
  exact hall _ (List.getLast_mem hne)

/-! ### The patterns -/

lemma fits_letters : letters.Fits b s ↔
    (∀ c ∈ s, isLetterOrSpace c) ∧ s.getLast?.any isLower := by
  rw [letters, Pattern.fits_many_edge]
  have hsame : (∀ c ∈ s, isLetterOrSpace c) → (s.getLast?.any isWord ↔ s.getLast?.any isLower) := by
    intro hall
    cases hlast : s.getLast? with
    | none => rfl
    | some c => exact isWord_iff_isLower (hall c (List.mem_of_getLast? hlast))
  constructor
  · rintro ⟨⟨hall, -, -⟩, hlast⟩
    exact ⟨hall, (hsame hall).mp hlast⟩
  · rintro ⟨hall, hlast⟩
    have hone : 1 ≤ s.length := by
      rw [Nat.one_le_iff_ne_zero]
      intro hzero
      rw [List.length_eq_zero_iff.mp hzero] at hlast
      cases hlast
    exact ⟨⟨hall, hone, fun n hn => by cases hn⟩, (hsame hall).mpr hlast⟩

lemma fits_word {p : UInt8 → Bool} (hp : ∀ c, p c → isWord c) {lo : ℕ} {hi : Option ℕ} :
    Pattern.Fits [.many p (lo + 1) hi, .edge isWord] b s ↔ (Item.many p (lo + 1) hi).Word s := by
  rw [Pattern.fits_many_edge, and_iff_left_iff_imp]
  rintro ⟨hall, hlen, -⟩
  exact any_getLast (fun c hc => hp c (hall c hc)) (Nat.le_of_add_left_le hlen)

lemma fits_numbers : numbers.Fits b s ↔ (∀ c ∈ s, isDigit c) ∧ 1 ≤ s.length := by
  rw [numbers, fits_word fun c => isWord_of_isDigit]
  simp [Item.Word]

lemma fits_hex1 : hex1.Fits b s ↔
    ∃ w, s = '#'.toUInt8 :: w ∧ (∀ c ∈ w, isHex c) ∧ w.length = 6 := by
  rw [hex1, Pattern.fits_lit]
  refine exists_congr fun w => and_congr_right fun _ => ?_
  rw [fits_word fun c => isWord_of_isHex]
  simp only [Item.Word, Option.mem_some, forall_eq']
  exact and_congr_right fun _ => ⟨fun h => Nat.le_antisymm h.2 h.1, fun h => ⟨h.ge, h.le⟩⟩

lemma fits_name : name.Fits b s ↔
    ∃ w, s = '+'.toUInt8 :: w ∧ (∀ c ∈ w, isWord c) ∧ 1 ≤ w.length := by
  rw [name, Pattern.fits_lit]
  refine exists_congr fun w => and_congr_right fun _ => ?_
  rw [fits_word fun c => id]
  simp [Item.Word]

lemma fits_hex2 : hex2.Fits b s ↔ ∃ w, s = '<'.toUInt8 :: '#'.toUInt8 :: w ++ ['>'.toUInt8] ∧
    (∀ c ∈ w, isHex c) ∧ w.length = 6 := by
  simp only [hex2, Pattern.fits_lit, Pattern.fits_many, Pattern.fits_opt_edge]
  constructor
  · rintro ⟨_, rfl, _, rfl, w, _, rfl, ⟨hall, hlo, hhi⟩, _, rfl, rfl⟩
    exact ⟨w, rfl, hall, Nat.le_antisymm (hhi 6 rfl) hlo⟩
  · rintro ⟨w, rfl, hall, hlen⟩
    refine ⟨_, rfl, _, rfl, w, _, rfl, ⟨hall, hlen.ge, fun n hn => ?_⟩, [], rfl, rfl⟩
    cases hn
    exact hlen.le

lemma fits_rgb : rgb.Fits b s ↔ ∃ red gap green gap' blue,
    s = (Definition.rgb red gap green gap' blue).bytes := by
  simp only [rgb, Pattern.fits_lit, Pattern.fits_many, Pattern.fits_opt_edge]
  constructor
  · rintro ⟨_, rfl, r, _, rfl, ⟨hr, hr₁, hr₃⟩, g, _, rfl, ⟨hg, hg₁, -⟩, u, _, rfl, ⟨hu, hu₁, hu₃⟩,
      g', _, rfl, ⟨hg', hg'₁, -⟩, v, _, rfl, ⟨hv, hv₁, hv₃⟩, _, rfl, rfl⟩
    refine ⟨⟨r, hr, hr₁, hr₃ 3 rfl⟩, ⟨g, hg, hg₁⟩, ⟨u, hu, hu₁, hu₃ 3 rfl⟩, ⟨g', hg', hg'₁⟩,
      ⟨v, hv, hv₁, hv₃ 3 rfl⟩, ?_⟩
    simp [Definition.bytes]
  · have hword : ∀ k : Channel, (Item.many isDigit 1 (some 3)).Word k.digits := by
      rintro ⟨w, hall, hone, hthree⟩
      refine ⟨hall, hone, fun n hn => ?_⟩
      cases hn
      exact hthree
    have hgap : ∀ k : Gap, (Item.many isSpace 1 none).Word k.spaces :=
      fun k => ⟨k.space, k.one, fun n hn => by cases hn⟩
    rintro ⟨red, gap, green, gap', blue, rfl⟩
    refine ⟨_, rfl, red.digits, _, ?_, hword red, gap.spaces, _, rfl, hgap gap, green.digits, _,
      rfl, hword green, gap'.spaces, _, rfl, hgap gap', blue.digits, _, rfl, hword blue, [], rfl,
      rfl⟩
    simp

/-- **One of the patterns matches** exactly what is well formed. -/
lemma exists_fits_iff : (∃ r ∈ getMatch, r.2.Fits [] s) ↔ ∃ d : Definition, s = d.bytes := by
  simp only [getMatch, List.mem_cons, List.not_mem_nil, or_false, exists_eq_or_imp, exists_eq_left,
    fits_letters, fits_numbers, fits_rgb, fits_hex1, fits_hex2, fits_name]
  constructor
  · rintro (⟨hw, hlast⟩ | ⟨hw, hone⟩ | ⟨red, gap, green, gap', blue, h⟩ | ⟨w, rfl, hw, hsix⟩ |
      ⟨w, rfl, hw, hsix⟩ | ⟨w, rfl, hw, hone⟩)
    · exact ⟨.letters s hw hlast, rfl⟩
    · exact ⟨.numbers s hw hone, rfl⟩
    · exact ⟨.rgb red gap green gap' blue, h⟩
    · exact ⟨.hex false w hw hsix, rfl⟩
    · exact ⟨.hex true w hw hsix, rfl⟩
    · exact ⟨.name w hw hone, rfl⟩
  · rintro ⟨d, rfl⟩
    cases d with
    | letters w hw hlast => exact Or.inl ⟨hw, hlast⟩
    | numbers w hw hone => exact Or.inr (Or.inl ⟨hw, hone⟩)
    | rgb red gap green gap' blue => exact Or.inr (Or.inr (Or.inl ⟨_, _, _, _, _, rfl⟩))
    | hex angled w hw hsix =>
        cases angled with
        | false => exact Or.inr (Or.inr (Or.inr (Or.inl ⟨w, rfl, hw, hsix⟩)))
        | true => exact Or.inr (Or.inr (Or.inr (Or.inr (Or.inl ⟨w, rfl, hw, hsix⟩))))
    | name w hw hone => exact Or.inr (Or.inr (Or.inr (Or.inr (Or.inr ⟨w, rfl, hw, hone⟩))))

/-- **What `parse_markup` accepts**: behind the spaces and markers in front, nothing or a definition
that is well formed. -/
theorem parseMarkup_eq_none_iff (src : Bytes) :
    parseMarkup src = none ↔ strip src = [] ∨ ∃ d : Definition, strip src = d.bytes := by
  have hyields : Loop.Yields (parseTurn src) src (parseMarkup src) := Loop.yields_execute _ src
  have hresult : parseMarkup src = none ↔ Succeeds src src :=
    ⟨fun h => by rwa [h] at hyields, fun h => hyields.unique h⟩
  rw [hresult, succeeds_iff_whole, Whole, firstMatch_eq_length_iff]
  simp only [Pattern.isSome_fullMatch_iff, exists_fits_iff]

end ForgeMush.AnsiData
