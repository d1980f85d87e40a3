import Manifest.Proofs.Placeholder.Grammar

/-! Scanning a text from left to right. The spans found are those of the placeholders that start at
the first place where one can behind the span before. No other placeholder starts outside of
them. -/
namespace Manifest

namespace Text

theorem width_pos {s : List Char} (h : s ≠ []) : 0 < width s := by
  cases s with
  | nil => exact absurd rfl h
  | cons c s => exact Nat.add_pos_left c.utf8Size_pos _

/-- Of two starts of one text the one with fewer octets is a start of the other. -/
theorem exists_append_of_width_le {a a' b b' : List Char} (h : a ++ b = a' ++ b')
    (hw : width a ≤ width a') : ∃ c, a' = a ++ c ∧ b = c ++ b' := by
  rcases List.append_eq_append_iff.mp h with ⟨c, ha, hb⟩ | ⟨c, rfl, rfl⟩
  · exact ⟨c, ha, hb⟩
  · have hc : c = [] := by
      by_contra hc
      have hpos := width_pos hc
      rw [width_append] at hw
      omega
    exact ⟨[], by simp [hc], by simp [hc]⟩

theorem append_inj_of_width {a a' b b' : List Char} (h : a ++ b = a' ++ b')
    (hw : width a = width a') : a = a' ∧ b = b' := by
  obtain ⟨d, rfl, rfl⟩ := exists_append_of_width_le h hw.le
  obtain rfl : d = [] := by
    by_contra hne
    have hpos := width_pos hne
    rw [width_append] at hw
    omega
  simp

theorem utf8ByteSize_ofList_eq_width (s : List Char) :
    (String.ofList s).utf8ByteSize = width s := by
  induction s with
  | nil => simp
  | cons c s ih =>
    rw [← List.singleton_append, String.ofList_append, String.utf8ByteSize_append, ih]
    simp

theorem isValid_width {text : String} {a b : List Char} (h : text.toList = a ++ b) :
    (⟨width a⟩ : String.Pos.Raw).IsValid text := by
  refine String.Pos.Raw.isValid_iff_exists_append.mpr ⟨String.ofList a, String.ofList b, ?_, ?_⟩
  · rw [← String.ofList_append, ← h, String.ofList_toList]
  · ext
    exact (utf8ByteSize_ofList_eq_width a).symm

end Text

namespace Template

open Placeholder

variable {s : List Char} {c : Char} {w rest : List Char} {p : Placeholder} {m m' : Span}

theorem pieces_cons_of_none (h : read (c :: s) = none) :
    pieces (c :: s) = consChar c (pieces s) := by
  rw [pieces, piecesAfter, h]
  rfl

theorem pieces_append_of_written (h : Written w p) (rest : List Char) :
    pieces (w ++ rest) = .placeholder p w :: pieces rest := by
  have hread := read_of_written h rest
  obtain ⟨c, w, rfl⟩ := List.exists_cons_of_ne_nil h.ne_nil
  have hlen : (c :: (w ++ rest)).length - rest.length = w.length + 1 := by
    simp only [List.length_cons, List.length_append]
    omega
  rw [List.cons_append] at hread ⊢
  simp only [pieces, piecesAfter, hread, hlen, Nat.add_sub_cancel]
  rw [piecesAfter_eq, List.take_succ_cons, List.take_left, List.drop_left]
  rfl

/-- A text is empty, or starts with a character at which no placeholder starts, or with a
placeholder. -/
theorem induction_pieces {P : List Char → Prop} (nil : P [])
    (char : ∀ c s, read (c :: s) = none → P s → P (c :: s))
    (placeholder : ∀ w p rest, Written w p → P rest → P (w ++ rest)) (s : List Char) : P s := by
  induction hn : s.length using Nat.strongRecOn generalizing s with
  | _ n ih =>
    cases s with
    | nil => exact nil
    | cons c s =>
      cases h : read (c :: s) with
      | none => exact char c s h (ih s.length (by simp [← hn]) s rfl)
      | some o =>
        obtain ⟨p, rest⟩ := o
        have hlt := read_length_lt h
        obtain ⟨w, hw, he⟩ := read_eq_some_iff.mp h
        rw [he]
        exact placeholder w p rest hw (ih rest.length (hn ▸ hlt) rest rfl)

theorem spansFrom_consChar (start : Nat) (c : Char) (ps : List Piece) :
    spansFrom start (consChar c ps) = spansFrom (start + c.utf8Size) ps := by
  unfold consChar
  split
  · simp [spansFrom, Nat.add_assoc]
  · simp [spansFrom]

/-- A placeholder is written in a text where a span says. -/
def Occurs (s : List Char) (m : Span) : Prop :=
  ∃ before w behind, s = before ++ w ++ behind ∧ Written w m.placeholder ∧
    m.start = Text.width before ∧ m.stop = Text.width (before ++ w)

theorem Occurs.start_lt_stop (h : Occurs s m) : m.start < m.stop := by
  obtain ⟨before, w, behind, -, hw, hstart, hstop⟩ := h
  have hpos := Text.width_pos hw.ne_nil
  rw [hstart, hstop, Text.width_append]
  omega

theorem Occurs.stop_le (h : Occurs s m) : m.stop ≤ Text.width s := by
  obtain ⟨before, w, behind, rfl, -, -, hstop⟩ := h
  rw [hstop, Text.width_append (before ++ w)]
  omega

/-- Behind a stretch of a text, a placeholder that does not start in it starts in the rest. -/
theorem Occurs.of_width_le {a b : List Char} (h : Occurs (a ++ b) m) (ha : Text.width a ≤ m.start) :
    ∃ before w behind, b = before ++ w ++ behind ∧ Written w m.placeholder ∧
      m.start = Text.width (a ++ before) ∧ m.stop = Text.width (a ++ before ++ w) := by
  obtain ⟨before, w, behind, he, hw, hstart, hstop⟩ := h
  rw [hstart] at ha
  rw [List.append_assoc] at he
  obtain ⟨d, rfl, hb⟩ := Text.exists_append_of_width_le he ha
  exact ⟨d, w, behind, by rw [hb, List.append_assoc], hw, hstart, hstop⟩

theorem Occurs.unique (h : Occurs s m) (h' : Occurs s m') (he : m.start = m'.start) : m = m' := by
  obtain ⟨before, w, behind, hs, hw, hstart, hstop⟩ := h
  obtain ⟨before', w', behind', hs', hw', hstart', hstop'⟩ := h'
  rw [List.append_assoc] at hs hs'
  obtain ⟨-, hrest⟩ := Text.append_inj_of_width (hs.symm.trans hs')
    (hstart.symm.trans (he.trans hstart'))
  obtain ⟨rfl, hp⟩ := hw.unique hw' hrest
  cases m
  cases m'
  simp_all

theorem not_occurs_nil (m : Span) : ¬Occurs [] m := by
  rintro ⟨before, w, behind, he, hw, -, -⟩
  have hnil : w = [] := by
    rw [List.nil_eq, List.append_eq_nil_iff, List.append_eq_nil_iff] at he
    exact he.1.2
  exact hw.ne_nil hnil

/-- Spans that are found from left to right: each is that of the placeholder that starts first at or
behind `start`, which is the end of the span before, and behind the last span none starts. -/
inductive Leftmost (s : List Char) : Nat → List Span → Prop
  | nil {start : Nat} (hnone : ∀ m, Occurs s m → m.start < start) : Leftmost s start []
  | cons {start : Nat} {m : Span} {ms : List Span} (hm : Occurs s m) (hle : start ≤ m.start)
      (hfirst : ∀ m', Occurs s m' → start ≤ m'.start → m.start ≤ m'.start)
      (hms : Leftmost s m.stop ms) : Leftmost s start (m :: ms)

theorem Leftmost.unique {start : Nat} {ms ms' : List Span} (h : Leftmost s start ms)
    (h' : Leftmost s start ms') : ms = ms' := by
  induction h generalizing ms' with
  | nil hnone =>
    cases h' with
    | nil => rfl
    | cons hm hle => exact absurd (hnone _ hm) (Nat.not_lt.mpr hle)
  | cons hm hle hfirst _ ih =>
    cases h' with
    | nil hnone => exact absurd (hnone _ hm) (Nat.not_lt.mpr hle)
    | cons hm' hle' hfirst' hms' =>
      have heq := hm.unique hm' (Nat.le_antisymm (hfirst _ hm' hle') (hfirst' _ hm hle))
      subst heq
      rw [ih hms']

theorem Leftmost.of_none {start start' : Nat} {ms : List Span} (h : Leftmost s start' ms)
    (hle : start ≤ start') (hnone : ∀ m, Occurs s m → start ≤ m.start → start' ≤ m.start) :
    Leftmost s start ms := by
  cases h with
  | nil h =>
    refine .nil fun m hm => ?_
    by_contra hs
    have hlt := h m hm
    have hle' := hnone m hm (Nat.not_lt.mp hs)
    omega
  | cons hm hs hfirst hms =>
    exact .cons hm (hle.trans hs) (fun m' hm' hs' => hfirst m' hm' (hnone m' hm' hs')) hms

/-- A placeholder that starts at or behind a character at which none starts does so behind it. -/
theorem Occurs.width_concat_le {a : List Char} (h : Occurs (a ++ c :: s) m)
    (hc : read (c :: s) = none)
    (ha : Text.width a ≤ m.start) : Text.width (a ++ [c]) ≤ m.start := by
  obtain ⟨before, w, behind, he, hw, hstart, -⟩ := h.of_width_le ha
  cases before with
  | nil => exact absurd he (ne_append_of_read_eq_none hc hw behind)
  | cons d before =>
    obtain ⟨rfl, -⟩ := List.cons.inj he
    rw [hstart, Text.width_append, Text.width_append, Text.width_cons, Text.width_cons]
    simp only [Text.width_nil]
    omega

theorem leftmost_spansFrom (a s : List Char) :
    Leftmost (a ++ s) (Text.width a) (spansFrom (Text.width a) (pieces s)) := by
  induction s using induction_pieces generalizing a with
  | nil =>
    refine .nil fun m hm => ?_
    have hlt := hm.start_lt_stop
    have hle := hm.stop_le
    rw [List.append_nil] at hle
    omega
  | char c s hc ih =>
    have hrest := ih (a ++ [c])
    rw [List.append_assoc, List.singleton_append] at hrest
    rw [pieces_cons_of_none hc, spansFrom_consChar]
    have hwidth : Text.width (a ++ [c]) = Text.width a + c.utf8Size := by simp
    rw [hwidth] at hrest
    exact hrest.of_none (by omega) fun m hm ha => hwidth ▸ hm.width_concat_le hc ha
  | placeholder w p rest hw ih =>
    have hrest := ih (a ++ w)
    rw [List.append_assoc, Text.width_append] at hrest
    rw [pieces_append_of_written hw]
    have hm : Occurs (a ++ (w ++ rest)) ⟨Text.width a, Text.width a + Text.width w, p⟩ :=
      ⟨a, w, rest, (List.append_assoc ..).symm, hw, rfl, (Text.width_append ..).symm⟩
    exact .cons hm (Nat.le_refl _) (fun _ _ h => h) hrest

theorem leftmost_scan (text : String) : Leftmost text.toList 0 (scan text) :=
  leftmost_spansFrom [] text.toList

theorem Leftmost.occurs {start : Nat} {ms : List Span} (h : Leftmost s start ms) :
    ∀ m ∈ ms, Occurs s m ∧ start ≤ m.start := by
  induction h with
  | nil => exact List.forall_mem_nil _
  | cons hm hle _ _ ih =>
    refine List.forall_mem_cons.mpr ⟨⟨hm, hle⟩, fun m' hm' => ?_⟩
    obtain ⟨ho, hs⟩ := ih m' hm'
    exact ⟨ho, hle.trans (hm.start_lt_stop.le.trans hs)⟩

theorem Leftmost.pairwise {start : Nat} {ms : List Span} (h : Leftmost s start ms) :
    ms.Pairwise fun m m' => m.stop ≤ m'.start := by
  induction h with
  | nil => exact .nil
  | cons _ _ _ hms ih => exact .cons (fun m' hm' => (hms.occurs m' hm').2) ih

theorem Leftmost.exists_span {start : Nat} {ms : List Span} (h : Leftmost s start ms)
    (hm : Occurs s m) (hle : start ≤ m.start) :
    ∃ m' ∈ ms, m'.start ≤ m.start ∧ m.start < m'.stop := by
  induction h with
  | nil hnone => exact absurd (hnone m hm) (Nat.not_lt.mpr hle)
  | @cons start m' ms _ _ hfirst _ ih =>
    by_cases hlt : m.start < m'.stop
    · exact ⟨m', List.mem_cons_self .., hfirst m hm hle, hlt⟩
    · obtain ⟨m'', hm'', hin⟩ := ih (Nat.not_lt.mp hlt)
      exact ⟨m'', List.mem_cons_of_mem _ hm'', hin⟩

theorem hasPlaceholder_iff (text : String) :
    hasPlaceholder text = true ↔ ∃ m, Occurs text.toList m := by
  have hscan : hasPlaceholder text = true ↔ scan text ≠ [] := by simp [hasPlaceholder]
  rw [hscan]
  constructor
  · intro hne
    obtain ⟨m, ms, he⟩ := List.exists_cons_of_ne_nil hne
    exact ⟨m, ((leftmost_scan text).occurs m (he ▸ List.mem_cons_self ..)).1⟩
  · rintro ⟨m, hm⟩
    obtain ⟨m', hm', -⟩ := (leftmost_scan text).exists_span hm (Nat.zero_le _)
    exact List.ne_nil_of_mem hm'

/-- A character put before a stretch of text starts no placeholder in it that starts none in the
text. -/
theorem ne_of_read_cons {cs behind : List Char} (hc : read (c :: (cs ++ rest)) = none)
    (hcs : ∀ before behind, cs ≠ before ++ w ++ behind) (hw : Written w p) (before : List Char) :
    c :: cs ≠ before ++ w ++ behind := by
  intro he
  cases before with
  | nil =>
    refine ne_append_of_read_eq_none hc hw (behind ++ rest) ?_
    rw [← List.cons_append, he, List.nil_append, List.append_assoc]
  | cons d before => exact hcs before behind (List.cons.inj he).2

theorem ne_of_literal_mem {cs : List Char} (h : .literal cs ∈ pieces s) (hw : Written w p)
    (before behind : List Char) : cs ≠ before ++ w ++ behind := by
  induction s using induction_pieces generalizing cs before behind with
  | nil => cases h
  | char c s hc ih =>
    have hnil : ∀ before behind : List Char, [] ≠ before ++ w ++ behind := by
      intro before behind he
      exact not_occurs_nil ⟨_, _, p⟩ ⟨before, w, behind, he, hw, rfl, rfl⟩
    have hflat := flatMap_pieces s
    rw [pieces_cons_of_none hc] at h
    unfold consChar at h
    split at h
    · rename_i cs' ps hps
      rw [hps] at ih hflat
      rcases List.mem_cons.mp h with he | h
      · cases he
        rw [List.flatMap_cons, Piece.chars] at hflat
        exact ne_of_read_cons (hflat ▸ hc) (ih (List.mem_cons_self ..)) hw before
      · exact ih (List.mem_cons_of_mem _ h) before behind
    · rcases List.mem_cons.mp h with he | h
      · cases he
        have hc' : read (c :: ([] ++ s)) = none := hc
        exact ne_of_read_cons hc' hnil hw before
      · exact ih h before behind
  | placeholder w' p' rest hw' ih =>
    rw [pieces_append_of_written hw'] at h
    rcases List.mem_cons.mp h with he | h
    · cases he
    · exact ih h before behind

theorem hasPlaceholder_of_literal_mem {cs : List Char} (h : .literal cs ∈ pieces s) :
    hasPlaceholder (String.ofList cs) = false := by
  rw [Bool.eq_false_iff, Ne, hasPlaceholder_iff, String.toList_ofList]
  rintro ⟨m, before, w, behind, he, hw, -, -⟩
  exact ne_of_literal_mem h hw before behind he

theorem Occurs.isValid {text : String} (h : Occurs text.toList m) :
    (⟨m.start⟩ : String.Pos.Raw).IsValid text ∧ (⟨m.stop⟩ : String.Pos.Raw).IsValid text := by
  obtain ⟨before, w, behind, he, -, hstart, hstop⟩ := h
  rw [hstart, hstop]
  exact ⟨Text.isValid_width (he.trans (List.append_assoc ..)), Text.isValid_width he⟩

/-- At each place of a text at most one placeholder is written. Scanning finds the spans from left
to right, each of the placeholder that starts first at or behind the end of the span before: they
are the only spans so found. They are not empty, lie in the text between characters, and follow one
another without overlap, and every placeholder starts inside one of them. A text has a placeholder
somewhere just when scanning finds one. -/
theorem scan_leftmost (text : String) :
    (∀ m m', Occurs text.toList m → Occurs text.toList m' → m.start = m'.start → m = m') ∧
    (∀ spans, Leftmost text.toList 0 spans ↔ spans = scan text) ∧
    (∀ m ∈ scan text, Occurs text.toList m ∧ m.start < m.stop ∧ m.stop ≤ text.utf8ByteSize ∧
      (⟨m.start⟩ : String.Pos.Raw).IsValid text ∧ (⟨m.stop⟩ : String.Pos.Raw).IsValid text) ∧
    (scan text).Pairwise (fun m m' => m.stop ≤ m'.start) ∧
    (∀ m, Occurs text.toList m → ∃ m' ∈ scan text, m'.start ≤ m.start ∧ m.start < m'.stop) ∧
    (hasPlaceholder text = true ↔ scan text ≠ []) ∧
    (hasPlaceholder text = true ↔ ∃ m, Occurs text.toList m) := by
  have h := leftmost_scan text
  refine ⟨fun _ _ => Occurs.unique, fun spans => ⟨fun hs => hs.unique h, ?_⟩,
    fun m hm => ?_, h.pairwise,
    fun m hm => h.exists_span hm (Nat.zero_le _), by simp [hasPlaceholder], hasPlaceholder_iff text⟩
  · rintro rfl
    exact h
  · obtain ⟨ho, -⟩ := h.occurs m hm
    have hsize : text.utf8ByteSize = Text.width text.toList := by
      rw [← Text.utf8ByteSize_ofList_eq_width, String.ofList_toList]
    exact ⟨ho, ho.start_lt_stop, hsize ▸ ho.stop_le, ho.isValid⟩

end Template
end Manifest
