import Manifest.Path

/-! The pieces of a text between separators. Text and pieces determine each other, as long as the
pieces are free of the separator. -/
namespace Manifest.Path

variable {x : Char}

theorem splitChars_append (c : Char) (s t : List Char) :
    splitChars c (s ++ c :: t) = splitChars c s ++ splitChars c t := by
  induction s with
  | nil => simp [splitChars]
  | cons d s ih =>
    by_cases hd : d = c
    · simp [splitChars, hd, ih]
    · rw [List.cons_append, splitChars, if_neg hd, splitChars, if_neg hd, ih]
      cases hs : splitChars c s with
      | nil => exact absurd hs (splitChars_ne_nil c s)
      | cons w ws => simp

theorem splitChars_of_notMem {w : List Char} (h : x ∉ w) : splitChars x w = [w] := by
  induction w with
  | nil => rfl
  | cons c w ih =>
    rw [List.mem_cons, not_or] at h
    have hne : c ≠ x := fun he => h.1 he.symm
    rw [splitChars, if_neg hne, ih h.2]

theorem splitChars_flatMap {ws : List (List Char)} (h : ∀ w ∈ ws, x ∉ w) :
    splitChars x (ws.flatMap (x :: ·)) = [] :: ws := by
  cases ws with
  | nil => rfl
  | cons w ws =>
    have hpieces : splitChars x (w ++ ws.flatMap (x :: ·)) = w :: ws := by
      induction ws generalizing w with
      | nil =>
        rw [List.flatMap_nil, List.append_nil]
        exact splitChars_of_notMem (h w (by simp))
      | cons v vs ih =>
        have hw : x ∉ w := h w (by simp)
        have hvs : ∀ u ∈ v :: vs, x ∉ u := fun u hu => h u (List.mem_cons_of_mem _ hu)
        rw [List.flatMap_cons, List.cons_append, splitChars_append,
          splitChars_of_notMem hw, ih v hvs,
          List.singleton_append]
    rw [List.flatMap_cons, List.cons_append, splitChars, if_pos rfl, hpieces]

/-- The pieces with a separator in front of each are the text with one in front. -/
theorem flatMap_splitChars (x : Char) (s : List Char) :
    (splitChars x s).flatMap (x :: ·) = x :: s := by
  induction s with
  | nil => rfl
  | cons c s ih =>
    rw [splitChars]
    split
    · rename_i hc
      rw [List.flatMap_cons, ih, hc]
      rfl
    · cases hs : splitChars x s with
      | nil => exact absurd hs (splitChars_ne_nil x s)
      | cons w ws =>
        rw [hs, List.flatMap_cons, List.cons_append, List.cons.injEq] at ih
        simp [ih.2]

theorem mem_of_mem_splitChars {s w : List Char} {c : Char} (hw : w ∈ splitChars x s) (hc : c ∈ w) :
    c ∈ s ∧ c ≠ x := by
  induction s generalizing w with
  | nil =>
    obtain rfl : w = [] := by simpa [splitChars] using hw
    cases hc
  | cons d s ih =>
    rw [splitChars] at hw
    split at hw
    · rcases List.mem_cons.mp hw with rfl | hw
      · cases hc
      · exact ⟨List.mem_cons_of_mem _ (ih hw hc).1, (ih hw hc).2⟩
    · rename_i hd
      cases hs : splitChars x s with
      | nil => exact absurd hs (splitChars_ne_nil x s)
      | cons v vs =>
        rw [hs] at ih hw
        rcases List.mem_cons.mp hw with rfl | hw
        · rcases List.mem_cons.mp hc with rfl | hc
          · exact ⟨List.mem_cons_self .., hd⟩
          · have hboth := ih (List.mem_cons_self ..) hc
            exact ⟨List.mem_cons_of_mem _ hboth.1, hboth.2⟩
        · have hboth := ih (List.mem_cons_of_mem _ hw) hc
          exact ⟨List.mem_cons_of_mem _ hboth.1, hboth.2⟩

end Manifest.Path
