import Manifest.Placeholder
import Mathlib

/-! How placeholders are written. Reading at the start of a text finds just what the grammar derives
there, so that a text has at most one placeholder at each place. -/
namespace Manifest.Placeholder

variable {s rest path : List Char} {p : Placeholder}

/-- How a placeholder ends behind its path: at once, or with a query between tildes. White space
around the query is not part of it. -/
inductive Ending (path : List Char) : List Char → Placeholder → Prop
  | bare : Ending path ['}'] ⟨String.ofList path, none⟩
  | query {body behind : List Char} (hne : body ≠ []) (hbody : '~' ∉ body)
      (hbehind : ∀ c ∈ behind, Text.isBlank c) :
      Ending path ('~' :: (body ++ '~' :: (behind ++ ['}'])))
        ⟨String.ofList path, some (String.ofList (Text.trimChars body))⟩

/-- How a placeholder is written: a dollar sign and an open brace, a path between white space, and
an end. -/
inductive Written : List Char → Placeholder → Prop
  | intro {before path behind ending : List Char} {p : Placeholder}
      (hbefore : ∀ c ∈ before, Text.isBlank c) (hpath : ∀ c ∈ path, isPathChar c)
      (hbehind : ∀ c ∈ behind, Text.isBlank c) (hending : Ending path ending p) :
      Written ('$' :: '{' :: (before ++ (path ++ (behind ++ ending)))) p

theorem isBlank_of_isPathChar {c : Char} (h : isPathChar c) : Text.isBlank c = false := by
  have hbounds : 0x2D ≤ c.toNat ∧ c.toNat ≤ 0x7A := by
    simp only [isPathChar, Char.isAlphanum, Char.isAlpha, Char.isUpper, Char.isLower, Char.isDigit,
      Bool.or_eq_true, Bool.and_eq_true, decide_eq_true_eq, beq_iff_eq, ge_iff_le,
      UInt32.le_iff_toNat_le] at h
    rcases h with ((rfl | rfl) | rfl) | (h | h) | h
    · decide
    · decide
    · decide
    all_goals exact ⟨Nat.le_trans (by decide) h.1, Nat.le_trans h.2 (by decide)⟩
  simp only [Text.isBlank, Bool.or_eq_false_iff, Bool.and_eq_false_iff, decide_eq_false_iff_not,
    beq_eq_false_iff_ne]
  omega

theorem skip_append {blanks : List Char} (h : ∀ c ∈ blanks, Text.isBlank c) (s : List Char) :
    skip (blanks ++ s) = skip s := List.dropWhile_append_of_pos h

theorem skip_cons {c : Char} (h : Text.isBlank c = false) (s : List Char) :
    skip (c :: s) = c :: s := by
  simp [skip, h]

theorem exists_blanks_append_skip (s : List Char) :
    ∃ blanks, (∀ c ∈ blanks, Text.isBlank c) ∧ s = blanks ++ skip s :=
  ⟨s.takeWhile Text.isBlank, fun _ hc => List.mem_takeWhile_imp hc,
    List.takeWhile_append_dropWhile.symm⟩

theorem exists_of_readEnd (h : readEnd path s = some (p, rest)) :
    ∃ ending, Ending path ending p ∧ s = ending ++ rest := by
  unfold readEnd at h
  split at h
  · cases h
    exact ⟨_, .bare, rfl⟩
  · rename_i s
    simp only at h
    split at h
    · rename_i t ht
      split at h
      · rename_i u hu
        split at h
        · cases h
        · rename_i hne
          cases h
          obtain ⟨behind, hbehind, he⟩ := exists_blanks_append_skip t
          have hs : s = s.takeWhile (· != '~') ++ '~' :: (behind ++ '}' :: rest) := by
            rw [← hu, ← he, ← ht, List.takeWhile_append_dropWhile]
          refine ⟨_, .query (by simpa using hne) (fun hmem => ?_) hbehind, ?_⟩
          · simpa using List.mem_takeWhile_imp hmem
          · simpa using hs
      · cases h
    · cases h
  · cases h

theorem readEnd_of_ending {ending : List Char} (h : Ending path ending p) (rest : List Char) :
    readEnd path (ending ++ rest) = some (p, rest) := by
  cases h with
  | bare => rfl
  | @query body behind hne hbody hbehind =>
    have hall : ∀ c ∈ body, (c != '~') = true := by
      intro c hc
      simpa using fun he : c = '~' => hbody (he ▸ hc)
    have hlist : '~' :: (body ++ '~' :: (behind ++ ['}'])) ++ rest =
        '~' :: (body ++ '~' :: (behind ++ '}' :: rest)) := by simp
    have htake : (body ++ '~' :: (behind ++ '}' :: rest)).takeWhile (· != '~') = body := by
      rw [List.takeWhile_append_of_pos hall]
      simp
    have hdrop : (body ++ '~' :: (behind ++ '}' :: rest)).dropWhile (· != '~') =
        '~' :: (behind ++ '}' :: rest) := by
      rw [List.dropWhile_append_of_pos hall]
      simp
    have hskip : skip (behind ++ '}' :: rest) = '}' :: rest := by
      rw [skip_append hbehind, skip_cons (by decide)]
    simp only [hlist, readEnd, htake, hdrop, hskip]
    simp [hne]

theorem exists_cons_of_ending {ending : List Char} (h : Ending path ending p) :
    ∃ c t, ending = c :: t ∧ Text.isBlank c = false ∧ isPathChar c = false := by
  cases h with
  | bare => exact ⟨'}', [], rfl, by decide, by decide⟩
  | query => exact ⟨'~', _, rfl, by decide, by decide⟩

/-- White space and an end behind a path start with a character that no path has. -/
theorem exists_cons_of_blanks {behind : List Char} {c : Char}
    (hbehind : ∀ c ∈ behind, Text.isBlank c)
    (hc : isPathChar c = false) (t : List Char) :
    ∃ d u, behind ++ c :: t = d :: u ∧ isPathChar d = false := by
  cases behind with
  | nil => exact ⟨c, t, rfl, hc⟩
  | cons d behind =>
    refine ⟨d, behind ++ c :: t, rfl, ?_⟩
    by_contra hd
    have hblank := hbehind d (List.mem_cons_self ..)
    rw [isBlank_of_isPathChar (by simpa using hd)] at hblank
    cases hblank

theorem read_path {before behind : List Char} {c : Char} (hbefore : ∀ c ∈ before, Text.isBlank c)
    (hpath : ∀ c ∈ path, isPathChar c) (hbehind : ∀ c ∈ behind, Text.isBlank c)
    (hblank : Text.isBlank c = false) (hc : isPathChar c = false) (t : List Char) :
    read ('$' :: '{' :: (before ++ (path ++ (behind ++ c :: t)))) = readEnd path (c :: t) := by
  have hend : skip (behind ++ c :: t) = c :: t := by
    rw [skip_append hbehind, skip_cons hblank]
  cases path with
  | nil =>
    -- All the white space stands before the empty path then.
    simp only [read, List.nil_append, skip_append hbefore, hend, List.takeWhile_cons,
      List.dropWhile_cons, hc, Bool.false_eq_true, if_false, skip_cons hblank]
  | cons d path =>
    have hd : Text.isBlank d = false := isBlank_of_isPathChar (hpath d (List.mem_cons_self ..))
    obtain ⟨a, u, hu, ha⟩ := exists_cons_of_blanks hbehind hc t
    have htake : (d :: path ++ (behind ++ c :: t)).takeWhile isPathChar = d :: path := by
      rw [List.takeWhile_append_of_pos hpath, hu, List.takeWhile_cons_of_neg (by simp [ha]),
        List.append_nil]
    have hdrop : (d :: path ++ (behind ++ c :: t)).dropWhile isPathChar = behind ++ c :: t := by
      rw [List.dropWhile_append_of_pos hpath, hu, List.dropWhile_cons_of_neg (by simp [ha])]
    have hskip : skip (before ++ (d :: path ++ (behind ++ c :: t))) =
        d :: path ++ (behind ++ c :: t) := by
      rw [skip_append hbefore, List.cons_append, skip_cons hd]
    simp only [read, hskip, htake, hdrop, hend]

theorem read_of_written {w : List Char} (h : Written w p) (rest : List Char) :
    read (w ++ rest) = some (p, rest) := by
  cases h with
  | @intro before path behind ending p hbefore hpath hbehind hending =>
    obtain ⟨c, t, rfl, hblank, hc⟩ := exists_cons_of_ending hending
    have hread := readEnd_of_ending hending rest
    rw [List.cons_append] at hread
    simp only [List.cons_append, List.append_assoc]
    rw [read_path hbefore hpath hbehind hblank hc, hread]

theorem exists_of_read (h : read s = some (p, rest)) : ∃ w, Written w p ∧ s = w ++ rest := by
  unfold read at h
  split at h
  · rename_i s
    obtain ⟨before, hbefore, hs⟩ := exists_blanks_append_skip s
    obtain ⟨behind, hbehind, ht⟩ := exists_blanks_append_skip ((skip s).dropWhile isPathChar)
    obtain ⟨ending, hending, he⟩ := exists_of_readEnd h
    have hpath : ∀ c ∈ (skip s).takeWhile isPathChar, isPathChar c := fun _ hc =>
      List.mem_takeWhile_imp hc
    have hword : skip s = (skip s).takeWhile isPathChar ++ (behind ++ (ending ++ rest)) := by
      rw [← he, ← ht, List.takeWhile_append_dropWhile]
    refine ⟨_, .intro hbefore hpath hbehind hending, ?_⟩
    simp only [List.cons_append, List.append_assoc]
    rw [← hword, ← hs]
  · cases h

/-- What is read at the start of a text is the placeholder that is written there. -/
theorem read_eq_some_iff : read s = some (p, rest) ↔ ∃ w, Written w p ∧ s = w ++ rest := by
  constructor
  · exact exists_of_read
  · rintro ⟨w, h, rfl⟩
    exact read_of_written h rest

theorem ne_append_of_read_eq_none (h : read s = none) {w : List Char} (hw : Written w p)
    (rest : List Char) : s ≠ w ++ rest := by
  rintro rfl
  cases h.symm.trans (read_of_written hw rest)

theorem Written.unique {w w' : List Char} {p p' : Placeholder} {rest rest' : List Char}
    (h : Written w p) (h' : Written w' p') (he : w ++ rest = w' ++ rest') : w = w' ∧ p = p' := by
  have hread := read_of_written h rest
  rw [he, read_of_written h' rest'] at hread
  cases hread
  exact ⟨List.append_cancel_right he, rfl⟩

theorem Written.ne_nil {w : List Char} (h : Written w p) : w ≠ [] := by
  cases h
  exact List.cons_ne_nil _ _

end Manifest.Placeholder
