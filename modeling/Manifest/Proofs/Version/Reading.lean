import Manifest.Text.Blank
import Manifest.Version
import Manifest.Proofs.Decimal.Digits
import Manifest.Proofs.List.MapM
import Manifest.Proofs.Path.Split
import Mathlib

/-! Texts of versions. Reading accepts exactly the texts of valid versions, so that a version that
is read has been written as its text. -/
namespace Manifest

namespace Version

open Decimal (digits)

variable {part : Part} {mark : Char} {n m : Nat} {s ds rest : List Char} {w : List Char}
  {ws : List (List Char)}

section Numbers

theorem eq_of_readMore (h : readMore part n s = .ok (m, rest)) (hn : n < limit) :
    m < limit ∧ digits n ++ s = digits m ++ rest := by
  induction s generalizing n with
  | nil =>
    obtain ⟨rfl, rfl⟩ : n = m ∧ [] = rest := by simpa [readMore] using h
    exact ⟨hn, rfl⟩
  | cons c s ih =>
    rw [readMore] at h
    split_ifs at h with hc hzero hlt
    · obtain ⟨hm, hs⟩ := ih h hlt
      rw [Decimal.digits_concat (Nat.pos_of_ne_zero hzero) hc] at hs
      exact ⟨hm, by simpa using hs⟩
    · obtain ⟨rfl, rfl⟩ : n = m ∧ c :: s = rest := by simpa using h
      exact ⟨hn, rfl⟩

theorem eq_of_readNumber (h : readNumber part s = .ok (m, rest)) :
    m < limit ∧ s = digits m ++ rest := by
  cases s with
  | nil => cases h
  | cons c s =>
    rw [readNumber] at h
    split_ifs at h with hc
    have hlt : c.toNat - 48 < limit := (Decimal.toNat_lt_of_isDigit hc).2.trans (by decide)
    obtain ⟨hm, hs⟩ := eq_of_readMore h hlt
    rw [Decimal.digits_of_isDigit hc] at hs
    exact ⟨hm, hs⟩

/-- No number goes on into this. -/
def Stops (rest : List Char) : Prop := ∀ c ∈ rest.head?, c.isDigit = false

theorem readMore_append (hn : 0 < n ∨ ds = []) (hds : ∀ c ∈ ds, c.isDigit = true)
    (hlt : Nat.ofDigitChars 10 ds n < limit) (hrest : Stops rest) :
    readMore part n (ds ++ rest) = .ok (Nat.ofDigitChars 10 ds n, rest) := by
  induction ds generalizing n with
  | nil =>
    cases rest with
    | nil => rfl
    | cons c rest =>
      rw [List.nil_append, readMore, if_neg (by simp [hrest c rfl])]
      rfl
  | cons c ds ih =>
    have hpos : 0 < n := hn.resolve_right (List.cons_ne_nil _ _)
    have hc : c.isDigit = true := hds c (by simp)
    have hstep : 10 * n + (c.toNat - '0'.toNat) = n * 10 + (c.toNat - 48) := by
      rw [Nat.mul_comm]
      rfl
    rw [Nat.ofDigitChars_cons, hstep] at hlt ⊢
    have hmono : n * 10 + (c.toNat - 48) ≤ Nat.ofDigitChars 10 ds (n * 10 + (c.toNat - 48)) :=
      Decimal.le_ofDigitChars _ _
    rw [List.cons_append, readMore, if_pos hc, if_neg hpos.ne', if_pos (hmono.trans_lt hlt)]
    exact ih (.inl (by omega)) (fun d hd => hds d (by simp [hd])) hlt

theorem readNumber_digits (hn : n < limit) (hrest : Stops rest) :
    readNumber part (digits n ++ rest) = .ok (n, rest) := by
  have hvalue := Decimal.value_digits n
  rw [Decimal.value_eq_ofDigitChars] at hvalue
  cases hds : digits n with
  | nil => exact absurd hds Nat.toDigits_ne_nil
  | cons c ds =>
    have hdigit : ∀ d ∈ c :: ds, d.isDigit = true := fun d hd =>
      Decimal.isDigit_of_mem_digits (n := n) (hds ▸ hd)
    have hc : c.isDigit = true := hdigit c (by simp)
    have hlead : 0 < c.toNat - 48 ∨ ds = [] := by
      by_cases hzero : c = '0'
      · exact .inr (Decimal.digits_eq_zero_cons (hzero ▸ hds))
      · have hne : c.toNat ≠ 48 := fun h => hzero (Char.toNat_inj.mp h)
        have hge := (Decimal.toNat_lt_of_isDigit hc).1
        exact .inl (by omega)
    rw [hds, Nat.ofDigitChars_cons, Nat.mul_zero, Nat.zero_add] at hvalue
    have hvalue : Nat.ofDigitChars 10 ds (c.toNat - 48) = n := hvalue
    rw [List.cons_append, readNumber, if_pos hc,
      readMore_append hlead (fun d hd => hdigit d (by simp [hd])) (hvalue ▸ hn) hrest, hvalue]

@[simp] theorem readDot_cons (s : List Char) : readDot part ('.' :: s) = .ok s := rfl

theorem readDot_eq_ok_iff : readDot part s = .ok rest ↔ s = '.' :: rest := by
  cases s with
  | nil => simp [readDot]
  | cons c s =>
    rw [readDot]
    split_ifs with hc <;> simp [hc]

end Numbers

section Identifiers

def IsIdentifier (w : List Char) : Prop := w ≠ [] ∧ ∀ c ∈ w, isIdentifierChar c = true

def HasLeadingZero (w : List Char) : Prop := isNumeric w = true ∧ 1 < w.length ∧ w.head? = some '0'

instance (w : List Char) : Decidable (IsIdentifier w) :=
  inferInstanceAs (Decidable (w ≠ [] ∧ ∀ c ∈ w, isIdentifierChar c = true))

instance (w : List Char) : Decidable (HasLeadingZero w) :=
  inferInstanceAs (Decidable (isNumeric w = true ∧ 1 < w.length ∧ w.head? = some '0'))

/-- An identifier that may stand in a part of a version. -/
def Allowed (part : Part) (w : List Char) : Prop :=
  IsIdentifier w ∧ (part = .pre → ¬HasLeadingZero w)

def marked (mark : Char) (ws : List (List Char)) : List Char :=
  if ws.isEmpty then [] else mark :: dotted ws

theorem dotted_cons (w : List Char) (ws : List (List Char)) :
    dotted (w :: ws) = w ++ ws.flatMap ('.' :: ·) := by
  induction ws generalizing w with
  | nil => simp [dotted]
  | cons v vs ih =>
    rw [dotted, ih, List.flatMap_cons, List.cons_append]
    simp

theorem cons_dotted (h : ws ≠ []) : '.' :: dotted ws = ws.flatMap ('.' :: ·) := by
  cases ws with
  | nil => exact absurd rfl h
  | cons w ws => rw [dotted_cons, List.flatMap_cons, List.cons_append]

theorem dotted_splitChars (s : List Char) : dotted (Path.splitChars '.' s) = s := by
  have hjoin := cons_dotted (Path.splitChars_ne_nil '.' s)
  rw [Path.flatMap_splitChars] at hjoin
  exact (List.cons.inj hjoin).2

theorem splitChars_dotted (h : ws ≠ []) (hdot : ∀ w ∈ ws, '.' ∉ w) :
    Path.splitChars '.' (dotted ws) = ws := by
  have hsplit := Path.splitChars_flatMap hdot
  rw [← cons_dotted h, Path.splitChars, if_pos rfl] at hsplit
  exact (List.cons.inj hsplit).2

theorem mem_dotted {c : Char} (hc : c ∈ dotted ws) : c = '.' ∨ ∃ w ∈ ws, c ∈ w := by
  by_cases hws : ws = []
  · rw [hws] at hc
    cases hc
  have hmem : c ∈ ws.flatMap ('.' :: ·) := cons_dotted hws ▸ List.mem_cons_of_mem _ hc
  obtain ⟨w, hw, hc⟩ := List.mem_flatMap.mp hmem
  exact (List.mem_cons.mp hc).imp_right fun hc => ⟨w, hw, hc⟩

theorem checkIdentifier_eq_ok_iff :
    checkIdentifier part w = .ok () ↔ w ≠ [] ∧ (part = .pre → ¬HasLeadingZero w) := by
  unfold checkIdentifier HasLeadingZero
  split_ifs with hempty hzero
  · simp [List.isEmpty_iff.mp hempty]
  · simp [hzero]
  · exact iff_of_true rfl ⟨fun h => hempty (by simp [h]), fun hpart hw => hzero ⟨hpart, hw⟩⟩

theorem forM_eq_ok_iff {α ε : Type} {f : α → Except ε Unit} {xs : List α} :
    xs.forM f = .ok () ↔ ∀ x ∈ xs, f x = .ok () := by
  induction xs with
  | nil => simp [pure, Except.pure]
  | cons x xs ih =>
    rw [List.forall_mem_cons, ← ih]
    cases hx : f x with
    | error e => simp [List.forM, hx, bind, Except.bind]
    | ok u => simp [List.forM, hx, bind, Except.bind]

/-- No identifiers go on into this. -/
def Breaks (rest : List Char) : Prop := ∀ c ∈ rest.head?, (isIdentifierChar c || c == '.') = false

theorem eq_of_readIdentifiers (h : readIdentifiers part s = .ok (ws, rest)) :
    ws ≠ [] ∧ (∀ w ∈ ws, Allowed part w) ∧ s = dotted ws ++ rest := by
  unfold readIdentifiers at h
  extract_lets run words at h
  cases hall : words.forM (checkIdentifier part) with
  | error fault => rw [hall] at h; cases h
  | ok u =>
    rw [hall] at h
    obtain ⟨rfl, rfl⟩ : words = ws ∧ s.drop run.length = rest := Prod.mk.inj (Except.ok.inj h)
    refine ⟨Path.splitChars_ne_nil _ _, fun w hw => ?_, ?_⟩
    · obtain ⟨hne, hzero⟩ := checkIdentifier_eq_ok_iff.mp (forM_eq_ok_iff.mp hall w hw)
      refine ⟨⟨hne, fun c hc => ?_⟩, hzero⟩
      obtain ⟨hrun, hdot⟩ := Path.mem_of_mem_splitChars hw hc
      simpa [hdot] using List.mem_takeWhile_imp hrun
    · have hrun : run ++ s.drop run.length = s :=
        List.prefix_iff_eq_append.mp (List.takeWhile_prefix _)
      rw [dotted_splitChars, hrun]

theorem notMem_of_isIdentifier (h : IsIdentifier w) : '.' ∉ w :=
  fun hdot => absurd (h.2 '.' hdot) (by decide)

theorem readIdentifiers_append (hne : ws ≠ []) (h : ∀ w ∈ ws, Allowed part w)
    (hrest : Breaks rest) :
    readIdentifiers part (dotted ws ++ rest) = .ok (ws, rest) := by
  have hchars : ∀ c ∈ dotted ws, (isIdentifierChar c || c == '.') = true := by
    intro c hc
    rcases mem_dotted hc with rfl | ⟨w, hw, hc⟩
    · decide
    · simp [(h w hw).1.2 c hc]
  have hstop : rest.takeWhile (fun c => isIdentifierChar c || c == '.') = [] := by
    cases rest with
    | nil => rfl
    | cons c rest => rw [List.takeWhile_cons, if_neg (by simp [hrest c rfl])]
  have hrun : (dotted ws ++ rest).takeWhile (fun c => isIdentifierChar c || c == '.') =
    dotted ws := by
    rw [List.takeWhile_append_of_pos hchars, hstop, List.append_nil]
  have hwords : Path.splitChars '.' (dotted ws) = ws :=
    splitChars_dotted hne fun w hw => notMem_of_isIdentifier (h w hw).1
  have hall : ws.forM (checkIdentifier part) = .ok () :=
    forM_eq_ok_iff.mpr fun w hw => checkIdentifier_eq_ok_iff.mpr ⟨(h w hw).1.1, (h w hw).2⟩
  simp only [readIdentifiers, hrun, hwords, hall, List.drop_left]
  rfl

/-- Identifiers behind a mark are read from the mark and themselves, dots between them. -/
theorem eq_of_readMarked {found : Option (List (List Char))}
    (h : readMarked mark part s = .ok (found, rest)) :
    (∀ w ∈ found.getD [], Allowed part w) ∧ s = marked mark (found.getD []) ++ rest := by
  cases s with
  | nil =>
    obtain ⟨rfl, rfl⟩ : found = none ∧ rest = [] := by simpa [readMarked, eq_comm] using h
    exact ⟨nofun, rfl⟩
  | cons c s =>
    rw [readMarked] at h
    split_ifs at h with hc
    · cases hread : readIdentifiers part s with
      | error fault => rw [hread] at h; cases h
      | ok r =>
        rw [hread] at h
        obtain ⟨rfl, rfl⟩ : some r.1 = found ∧ r.2 = rest := Prod.mk.inj (Except.ok.inj h)
        obtain ⟨hne, hallowed, hs⟩ := eq_of_readIdentifiers hread
        refine ⟨hallowed, ?_⟩
        rw [Option.getD_some, marked, if_neg (by simp [hne]), hs, hc]
        rfl
    · obtain ⟨rfl, rfl⟩ : found = none ∧ rest = c :: s := by simpa [eq_comm] using h
      exact ⟨nofun, rfl⟩

theorem eq_of_mem_head?_marked {c : Char} (hc : c ∈ (marked mark ws).head?) : c = mark := by
  rw [marked] at hc
  split_ifs at hc
  · cases hc
  · exact (Option.some.inj hc).symm

theorem readMarked_append (h : ∀ w ∈ ws, Allowed part w) (hrest : Breaks rest)
    (hmark : mark ∉ rest.head?) :
    readMarked mark part (marked mark ws ++ rest) =
      .ok (if ws.isEmpty then none else some ws, rest) := by
  by_cases hws : ws = []
  · subst hws
    cases rest with
    | nil => rfl
    | cons c rest =>
      have hc : c ≠ mark := fun hc => hmark (by simp [hc])
      simp [marked, readMarked, hc]
  · have hempty : ¬ws.isEmpty = true := by simpa using hws
    rw [marked, if_neg hempty, if_neg hempty, List.cons_append, readMarked, if_pos rfl,
      readIdentifiers_append hws h hrest]
    rfl

end Identifiers

/-- A version that can be written: its numbers fit 64 bits, and its identifiers are such. -/
structure Valid (v : Version) : Prop where
  major : v.major < limit
  minor : v.minor < limit
  patch : v.patch < limit
  pre : ∀ w ∈ v.pre, IsIdentifier w ∧ ¬HasLeadingZero w
  build : ∀ w ∈ v.build, IsIdentifier w

variable {v : Version}

theorem toChars_eq (v : Version) :
    v.toChars = digits v.major ++ '.' :: (digits v.minor ++ '.' :: (digits v.patch ++
      (marked '-' v.pre ++ marked '+' v.build))) := by
  simp [toChars, marked, digits]

theorem eq_of_readChars (h : readChars s = .ok v) : v.Valid ∧ v.toChars = s := by
  unfold readChars at h
  split_ifs at h with hempty
  · cases h
  obtain ⟨⟨major, s₁⟩, hmajor, h⟩ := exists_of_bind h
  obtain ⟨s₂, hdot, h⟩ := exists_of_bind h
  obtain ⟨⟨minor, s₃⟩, hminor, h⟩ := exists_of_bind h
  obtain ⟨s₄, hdot', h⟩ := exists_of_bind h
  obtain ⟨⟨patch, s₅⟩, hpatch, h⟩ := exists_of_bind h
  obtain ⟨⟨pre, s₆⟩, hpre, h⟩ := exists_of_bind h
  obtain ⟨⟨build, s₇⟩, hbuild, h⟩ := exists_of_bind h
  cases s₇ with
  | cons c s₇ => cases h
  | nil =>
    obtain rfl : (⟨major, minor, patch, pre.getD [], build.getD []⟩ : Version) = v :=
      Except.ok.inj h
    obtain ⟨hltmajor, hs⟩ := eq_of_readNumber hmajor
    obtain rfl := readDot_eq_ok_iff.mp hdot
    obtain ⟨hltminor, hs₂⟩ := eq_of_readNumber hminor
    obtain rfl := readDot_eq_ok_iff.mp hdot'
    obtain ⟨hltpatch, hs₄⟩ := eq_of_readNumber hpatch
    obtain ⟨hallowed, hs₅⟩ := eq_of_readMarked hpre
    obtain ⟨hallowed', hs₆⟩ := eq_of_readMarked hbuild
    refine ⟨⟨hltmajor, hltminor, hltpatch, fun w hw => ⟨(hallowed w hw).1, (hallowed w hw).2 rfl⟩,
      fun w hw => (hallowed' w hw).1⟩, ?_⟩
    rw [List.append_nil] at hs₆
    rw [toChars_eq, hs, hs₂, hs₄, hs₅, hs₆]

theorem stops_marked (ws vs : List (List Char)) : Stops (marked '-' ws ++ marked '+' vs) := by
  intro c hc
  rw [List.head?_append, Option.mem_def, Option.or_eq_some_iff] at hc
  rcases hc with hc | ⟨-, hc⟩
  · obtain rfl := eq_of_mem_head?_marked hc
    decide
  · obtain rfl := eq_of_mem_head?_marked hc
    decide

theorem readChars_toChars (h : v.Valid) : readChars v.toChars = .ok v := by
  have hstopdot : ∀ s, Stops ('.' :: s) := fun s c hc => by
    obtain rfl : '.' = c := by simpa using hc
    decide
  have hbreaks : Breaks (marked '+' v.build) := fun c hc => by
    obtain rfl := eq_of_mem_head?_marked hc
    decide
  have hmark : '-' ∉ (marked '+' v.build).head? := fun hc =>
    absurd (eq_of_mem_head?_marked hc) (by decide)
  have hpre : ∀ w ∈ v.pre, Allowed .pre w := fun w hw => ⟨(h.pre w hw).1, fun _ => (h.pre w hw).2⟩
  have hbuild : ∀ w ∈ v.build, Allowed .build w := fun w hw => ⟨h.build w hw, nofun⟩
  have hnil : Breaks [] := nofun
  have hnone : '+' ∉ ([] : List Char).head? := nofun
  have hread := readMarked_append hbuild hnil hnone
  rw [List.append_nil] at hread
  rw [toChars_eq, readChars, if_neg (by simp [digits, Nat.toDigits_ne_nil])]
  simp only [readNumber_digits h.major (hstopdot _), ok_bind, readDot_cons,
    readNumber_digits h.minor (hstopdot _), readNumber_digits h.patch (stops_marked _ _),
    readMarked_append hpre hbreaks hmark, hread]
  cases v with
  | mk major minor patch pre build => cases pre <;> cases build <;> rfl

theorem readChars_eq_ok_iff : readChars s = .ok v ↔ v.Valid ∧ v.toChars = s :=
  ⟨eq_of_readChars, fun ⟨h, hs⟩ => hs ▸ readChars_toChars h⟩

/-- Reading accepts exactly the texts of valid versions. -/
theorem read_eq_ok_iff {text : String} : read text = .ok v ↔ v.Valid ∧ v.text = text := by
  rw [read, readChars_eq_ok_iff, Version.text, ← String.toList_inj, String.toList_ofList]

theorem isBlank_of_isIdentifierChar {c : Char} (hc : isIdentifierChar c = true) :
    Text.isBlank c = false := by
  have hrange : 0x2D ≤ c.toNat ∧ c.toNat < 0x80 := by
    simp only [isIdentifierChar, Char.isAlphanum, Char.isAlpha, Char.isUpper, Char.isLower,
      Char.isDigit,
      Bool.or_eq_true, Bool.and_eq_true, decide_eq_true_eq, beq_iff_eq,
      UInt32.le_iff_toNat_le] at hc
    change (((65 ≤ c.toNat ∧ c.toNat ≤ 90) ∨ (97 ≤ c.toNat ∧ c.toNat ≤ 122)) ∨
      (48 ≤ c.toNat ∧ c.toNat ≤ 57)) ∨
      c = '-' at hc
    rcases hc with hc | rfl
    · omega
    · decide
  exact Text.isBlank_of_lt (Nat.lt_of_lt_of_le (by decide) hrange.1) hrange.2

theorem mem_marked {c : Char} (hws : ∀ w ∈ ws, IsIdentifier w) (hc : c ∈ marked mark ws) :
    c = mark ∨ c = '.' ∨ isIdentifierChar c = true := by
  rw [marked] at hc
  split_ifs at hc
  · cases hc
  refine (List.mem_cons.mp hc).imp_right fun hc => (mem_dotted hc).imp_right ?_
  rintro ⟨w, hw, hc⟩
  exact (hws w hw).2 c hc

theorem isBlank_of_mem_toChars (h : v.Valid) {c : Char} (hc : c ∈ v.toChars) :
    Text.isBlank c = false := by
  have hdigit : ∀ n, c ∈ digits n → isIdentifierChar c = true := fun n hc => by
    simp [isIdentifierChar, Char.isAlphanum, Decimal.isDigit_of_mem_digits hc]
  have hkind : (c = '-' ∨ c = '+') ∨ c = '.' ∨ isIdentifierChar c = true := by
    simp only [toChars_eq, List.mem_append, List.mem_cons] at hc
    rcases hc with hc | hc | hc | hc | hc | hc | hc
    · exact .inr (.inr (hdigit _ hc))
    · exact .inr (.inl hc)
    · exact .inr (.inr (hdigit _ hc))
    · exact .inr (.inl hc)
    · exact .inr (.inr (hdigit _ hc))
    · exact (mem_marked (fun w hw => (h.pre w hw).1) hc).imp_left .inl
    · exact (mem_marked h.build hc).imp_left .inr
  rcases hkind with (rfl | rfl) | rfl | hc
  · decide
  · decide
  · decide
  · exact isBlank_of_isIdentifierChar hc

theorem trim_text (h : v.Valid) : Text.trim v.text = v.text := by
  rw [Text.trim, Version.text, String.toList_ofList, Text.trimChars_of_forall fun _ =>
    isBlank_of_mem_toChars h]

end Version
end Manifest
