import Manifest.Proofs.Path.Split

/-! Expanding paths: what a leading dot adds to the keys of a path, and when expanding a path that
is expanded already leads elsewhere. -/
namespace Manifest.Path

@[simp] theorem segments_empty : segments "" = [] := by
  simp [segments, segmentsBetween, splitChars]

theorem segments_append_dot (a b : String) :
    segments (a ++ "." ++ b) = segments a ++ segments b := by
  have hlist : (a ++ "." ++ b).toList = a.toList ++ '.' :: b.toList := by simp
  simp only [segments, segmentsBetween, hlist, splitChars_append, List.filter_append,
    List.map_append]

def Relative (path : String) : Prop := path.toList.head? = some '.'

instance (path : String) : Decidable (Relative path) :=
  inferInstanceAs (Decidable (path.toList.head? = some '.'))

theorem exists_toList_of_relative {path : String} (h : Relative path) :
    ∃ rest, path.toList = '.' :: rest := by
  unfold Relative at h
  cases hp : path.toList with
  | nil => simp [hp] at h
  | cons c rest =>
    simp only [hp, List.head?_cons, Option.some.injEq] at h
    exact ⟨rest, by rw [h]⟩

theorem segments_of_toList {path : String} {rest : List Char} (h : path.toList = '.' :: rest) :
    segments path = segments (String.ofList rest) := by
  simp [segments, segmentsBetween, h, splitChars]

variable {home : Option String} {path : String}

theorem expand_of_absolute (h : ¬Relative path) : expand home path = path := by
  unfold expand
  split
  · rename_i rest hp
    exact absurd (show Relative path by simp [Relative, hp]) h
  · rfl

theorem expand_of_toList {rest : List Char} (h : path.toList = '.' :: rest) :
    expand home path =
      if rest.isEmpty then home.getD ""
      else if home.getD "" = "" then String.ofList rest
      else home.getD "" ++ "." ++ String.ofList rest := by
  simp only [expand, h]

theorem segments_expand (h : Relative path) :
    segments (expand home path) = segments (home.getD "") ++ segments path := by
  obtain ⟨rest, hp⟩ := exists_toList_of_relative h
  rw [expand_of_toList hp, segments_of_toList hp]
  split
  · rename_i hr
    rw [List.isEmpty_iff.mp hr, String.ofList_nil, segments_empty, List.append_nil]
  · split
    · rename_i hh
      simp [hh]
    · exact segments_append_dot _ _

theorem expand_filter_home (home : Option String) (path : String) :
    expand (home.filter (· ≠ "")) path = expand home path := by
  have hhome : (home.filter (· ≠ "")).getD "" = home.getD "" := by
    cases home with
    | none => rfl
    | some text => by_cases h : text = "" <;> simp [Option.filter, h]
  unfold expand
  rw [hhome]

/-- The expanded path starts with a dot only if the home path does, unless that is empty. -/
theorem relative_home_of_relative_expand (hh : home.getD "" ≠ "") (h : Relative path)
    (he : Relative (expand home path)) : Relative (home.getD "") := by
  obtain ⟨rest, hp⟩ := exists_toList_of_relative h
  rw [expand_of_toList hp] at he
  split at he
  · exact he
  · have hne : (home.getD "").toList ≠ [] := fun hn => hh (String.toList_eq_nil_iff.mp hn)
    simpa [Relative, hh, List.head?_append, List.head?_eq_some_head hne] using he

theorem relative_expand (hh : Relative (home.getD "")) (h : Relative path) :
    Relative (expand home path) := by
  obtain ⟨rest, hp⟩ := exists_toList_of_relative h
  rw [expand_of_toList hp]
  split
  · exact hh
  · obtain ⟨rest', hp'⟩ := exists_toList_of_relative hh
    have hne : home.getD "" ≠ "" := by
      rintro he
      simp [he] at hp'
    rw [if_neg hne]
    simp [Relative, hp']

/-- Paths that are something else when they are expanded twice: path and home path both start with a
dot, and the home path has keys. -/
def Doubled (home : Option String) (path : String) : Prop :=
  Relative path ∧ Relative (home.getD "") ∧ segments (home.getD "") ≠ []

instance (home : Option String) (path : String) : Decidable (Doubled home path) :=
  inferInstanceAs (Decidable (_ ∧ _ ∧ _))

theorem segments_expand_expand (home : Option String) (path : String) :
    segments (expand home (expand home path)) =
      (if Doubled home path then segments (home.getD "") else []) ++
        segments (expand home path) := by
  by_cases he : Relative (expand home path)
  · have h : Relative path := Decidable.of_not_not fun h => h (expand_of_absolute h ▸ he)
    rw [segments_expand he]
    by_cases hk : segments (home.getD "") = []
    · simp [hk]
    · have hne : home.getD "" ≠ "" := fun hh => hk (by rw [hh, segments_empty])
      rw [if_pos ⟨h, relative_home_of_relative_expand hne h he, hk⟩]
  · have hd : ¬Doubled home path := fun hd => he (relative_expand hd.2.1 hd.1)
    rw [expand_of_absolute he, if_neg hd, List.nil_append]

end Manifest.Path
