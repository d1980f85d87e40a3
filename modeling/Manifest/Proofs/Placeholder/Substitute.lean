import Manifest.Proofs.Placeholder.Gaps

/-! Putting other texts in the place of placeholders. The loop over the spans that scanning finds is
always between characters, and what it builds is the gaps with the other texts between them. -/
namespace Manifest

namespace Template

variable {start : Nat} {s gap w rest : List Char} {m : Span} {ms : List Span}
  {gs : List (List Char)}

def slice? (s : List Char) (m : Span) : Option (List Char) :=
  (Text.dropOctets s m.start).bind fun rest => Text.takeOctets rest (m.stop - m.start)

def behind : Nat → List Span → Nat
  | start, [] => start
  | _, m :: ms => behind m.stop ms

/-- One round of the loop: the gap, and the other text, before what the rest comes to. -/
theorem substituteFrom_span (hstart : m.start = start + Text.width gap)
    (hstop : m.stop = m.start + Text.width w)
    (r : String) (rs : List String) :
    substituteFrom start (gap ++ w ++ rest) (m :: ms) (r :: rs) =
      (substituteFrom m.stop rest ms rs).map (gap ++ r.toList ++ ·) := by
  have hgap : m.start - start = Text.width gap := by omega
  have hboth : m.stop - start = Text.width (gap ++ w) := by
    rw [Text.width_append]
    omega
  rw [substituteFrom, if_pos ⟨by omega, by omega⟩, hgap, hboth, Text.dropOctets_width,
    List.append_assoc gap,
    Text.takeOctets_width]
  cases h : substituteFrom m.stop rest ms rs <;> simp [h]

theorem Cut.substituteFrom_eq_weave (h : Cut start s ms gs) {rs : List String}
    (hrs : rs.length = ms.length) :
    substituteFrom start s ms rs = some (weave gs rs) := by
  induction h generalizing rs with
  | last =>
    obtain rfl := List.length_eq_zero_iff.mp hrs
    simp [substituteFrom, weave]
  | span hstart hstop _ ih =>
    cases rs with
    | nil => cases hrs
    | cons r rs =>
      rw [substituteFrom_span hstart hstop, ih (Nat.succ.inj hrs)]
      rfl

/-- With any number of texts, as many as there are spans for stand behind the first gaps, and the
rest of the text is left as it is. -/
theorem Cut.exists_substituteFrom (h : Cut start s ms gs) (rs : List String) :
    let k := min ms.length rs.length
    ∃ front tail, s = front ++ tail ∧ start + Text.width front = behind start (ms.take k) ∧
      substituteFrom start s ms rs = some (weave (gs.take k) (rs.take k) ++ tail) := by
  induction h generalizing rs with
  | @last start s => exact ⟨[], s, rfl, by simp [behind], by simp [substituteFrom, weave]⟩
  | @span start gap w rest m ms gaps hstart hstop _ ih =>
    cases rs with
    | nil => exact ⟨[], _, rfl, rfl, by simp [substituteFrom, weave]⟩
    | cons r rs =>
      obtain ⟨front, tail, rfl, hbehind, hsubstitute⟩ := ih rs
      have hk : min (m :: ms).length (r :: rs).length = min ms.length rs.length + 1 :=
        Nat.succ_min_succ ..
      refine ⟨gap ++ w ++ front, tail, by rw [List.append_assoc _ front], ?_, ?_⟩
      · rw [hk, List.take_succ_cons, behind, ← hbehind, Text.width_append, Text.width_append]
        omega
      · rw [hk, substituteFrom_span hstart hstop, hsubstitute]
        simp [weave]

/-- The spans have texts, and with these between the gaps the text is as it was. -/
theorem Cut.exists_words (h : Cut start s ms gs) (before : List Char)
    (hbefore : start = Text.width before) :
    ∃ words, List.Forall₂ (fun m w => slice? (before ++ s) m = some w) ms words ∧
      weave gs (words.map String.ofList) = s := by
  induction h generalizing before with
  | @last _ s => exact ⟨[], .nil, by simp [weave]⟩
  | @span start gap w rest m ms gaps hstart hstop _ ih =>
    have hfront : m.stop = Text.width (before ++ gap ++ w) := by
      rw [Text.width_append, Text.width_append]
      omega
    obtain ⟨words, hwords, hweave⟩ := ih _ hfront
    have hslice : slice? (before ++ (gap ++ w ++ rest)) m = some w := by
      have hskip : m.start = Text.width (before ++ gap) := by
        rw [Text.width_append]
        omega
      have hlength : m.stop - m.start = Text.width w := by omega
      rw [slice?, hlength, hskip, List.append_assoc gap, ← List.append_assoc before,
        Text.dropOctets_width]
      exact Text.takeOctets_width w rest
    refine ⟨w :: words, .cons hslice ?_, ?_⟩
    · simpa [List.append_assoc] using hwords
    · simp [weave, hweave]

/-- A placeholder in a stretch of a text is one of the text. -/
theorem exists_occurs_of_hasPlaceholder (before rest : List Char)
    (h : hasPlaceholder (String.ofList gap) = true) :
    ∃ m, Occurs (before ++ (gap ++ rest)) m ∧ Text.width before ≤ m.start ∧
      m.start < Text.width (before ++ gap) := by
  obtain ⟨m, a, w, b, hgap, hw, -, -⟩ := (hasPlaceholder_iff _).mp h
  rw [String.toList_ofList] at hgap
  have hpos := Text.width_pos hw.ne_nil
  refine ⟨⟨Text.width (before ++ a), Text.width (before ++ a ++ w), m.placeholder⟩,
    ⟨before ++ a, w, b ++ rest, by simp [hgap], hw, rfl, rfl⟩, by simp, ?_⟩
  simp only [hgap, Text.width_append]
  omega

/-- No placeholder is written in the gaps between spans that are found from left to right: it would
start before the next of them. -/
theorem Cut.hasPlaceholder_eq_false (h : Cut start s ms gs) (before : List Char)
    (hbefore : start = Text.width before)
    (hms : Leftmost (before ++ s) start ms) :
    ∀ g ∈ gs, hasPlaceholder (String.ofList g) = false := by
  induction h generalizing before with
  | @last start s =>
    refine List.forall_mem_singleton.mpr (Bool.eq_false_iff.mpr fun hs => ?_)
    obtain ⟨m, hm, hle, -⟩ := exists_occurs_of_hasPlaceholder before [] hs
    rw [List.append_nil] at hm
    cases hms with
    | nil hnone => exact absurd (hnone m hm) (by omega)
  | @span start gap w rest m ms gaps hstart hstop _ ih =>
    cases hms with
    | cons _ _ hfirst hrest =>
      refine List.forall_mem_cons.mpr ⟨Bool.eq_false_iff.mpr fun hgap => ?_, ?_⟩
      · obtain ⟨m', hm', hle, hlt⟩ := exists_occurs_of_hasPlaceholder before (w ++ rest) hgap
        rw [← List.append_assoc gap] at hm'
        have hfirst' := hfirst m' hm' (by omega)
        rw [Text.width_append] at hlt
        omega
      · have hfront : m.stop = Text.width (before ++ gap ++ w) := by
          rw [Text.width_append, Text.width_append]
          omega
        have hsame : before ++ (gap ++ w ++ rest) = before ++ gap ++ w ++ rest := by simp
        exact ih _ hfront (hsame ▸ hrest)

theorem Cut.length_eq (h : Cut start s ms gs) : gs.length = ms.length + 1 := by
  induction h with
  | last => rfl
  | span _ _ _ ih => rw [List.length_cons, ih, List.length_cons]

/-- Scanning splits a text and substitution puts it together. There is one way to cut a text at the
spans of its placeholders, and the gaps hold no placeholder. With any texts given, as many as there
are spans for stand between the gaps, behind which the text is left as it is from the end of the
last of them on; with the spans' own texts it is the text it was. -/
theorem substitute_scan (text : String) :
    ∃ gs words, (∀ gs', Cut 0 text.toList (scan text) gs' ↔ gs' = gs) ∧
      gs.length = (scan text).length + 1 ∧
      List.Forall₂ (fun m w => slice? text.toList m = some w) (scan text) words ∧
      weave gs (words.map String.ofList) = text.toList ∧
      (∀ g ∈ gs, hasPlaceholder (String.ofList g) = false) ∧
      (∀ rs, let k := min (scan text).length rs.length
        ∃ front tail, text.toList = front ++ tail ∧
        Text.width front = behind 0 ((scan text).take k) ∧
          substitute? text (scan text) rs =
            some (String.ofList (weave (gs.take k) (rs.take k) ++ tail))) ∧
      (∀ rs, rs.length = (scan text).length →
        substitute? text (scan text) rs = some (String.ofList (fill (pieces text.toList) rs))) ∧
      substitute? text (scan text) (words.map String.ofList) = some text := by
  have hcut := (cut_scan_iff text _).mpr rfl
  obtain ⟨words, hwords, hweave⟩ := hcut.exists_words [] rfl
  have hall : ∀ rs, rs.length = (scan text).length →
      substitute? text (scan text) rs =
        some (String.ofList (weave (gaps (pieces text.toList)) rs)) :=
    fun rs hrs => by rw [substitute?, hcut.substituteFrom_eq_weave hrs, Option.map_some]
  refine ⟨_, words, cut_scan_iff text, hcut.length_eq, hwords, hweave,
    hcut.hasPlaceholder_eq_false [] rfl (leftmost_scan text), fun rs => ?_, fun rs hrs => ?_, ?_⟩
  · obtain ⟨front, tail, htext, hbehind, hsubstitute⟩ := hcut.exists_substituteFrom rs
    rw [Nat.zero_add] at hbehind
    exact ⟨front, tail, htext, hbehind, by rw [substitute?, hsubstitute, Option.map_some]⟩
  · have hlength : rs.length = (placeholders (pieces text.toList)).length := by
      rw [hrs, ← spansFrom_placeholder 0, List.length_map, scan]
    rw [hall rs hrs, fill_eq_weave hlength]
  · rw [hall _ (by rw [List.length_map, hwords.length_eq]), hweave, String.ofList_toList]

/-- A second text is left over where there is one placeholder, and the last stretch is as it was. -/
example : (scan "a ${b} ü").map (fun m => (m.start, m.stop)) = [(2, 6)] ∧
    substitute? "a ${b} ü" (scan "a ${b} ü") ["é", "x"] = some "a é ü" ∧
    substitute? "a ${b} ü" (scan "a ${b} ü") [] = some "a ${b} ü" := by decide

end Template
end Manifest
