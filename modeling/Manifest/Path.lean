/-! Paths to the nodes of a document: as dotted text, and as exact sequences of keys. -/
namespace Manifest

/-- The exact keys that lead from the root to a node; a key may hold dots or be empty. -/
abbrev Keys := List String

instance : LawfulBEq Keys := inferInstanceAs (LawfulBEq (List String))

namespace Path

def splitChars (c : Char) : List Char → List (List Char)
  | [] => [[]]
  | d :: s =>
    if d = c then [] :: splitChars c s
    else
      match splitChars c s with
      | [] => [[d]]
      | w :: ws => (d :: w) :: ws

theorem splitChars_ne_nil (c : Char) (s : List Char) : splitChars c s ≠ [] := by
  cases s with
  | nil => simp [splitChars]
  | cons d s =>
    simp only [splitChars]
    split
    · simp
    · split <;> simp

/-- The pieces of a text between occurrences of a character, without the empty ones. -/
def segmentsBetween (c : Char) (text : String) : List String :=
  ((splitChars c text.toList).filter fun w => !w.isEmpty).map String.ofList

/-- The keys of a dotted path. Empty pieces count for nothing, so the empty path is the root. -/
def segments (path : String) : Keys := segmentsBetween '.' path

/-- The keys with dots between them, as messages show them. -/
def dotted (keys : Keys) : String := String.intercalate "." keys

@[simp] theorem dotted_nil : dotted [] = "" := rfl

/-- The absolute path that a path denotes. A leading dot stands for the home path, when there is one
that is not empty. -/
def expand (home : Option String) (path : String) : String :=
  let home := home.getD ""
  match path.toList with
  | '.' :: rest =>
    if rest.isEmpty then home
    else if home = "" then String.ofList rest
    else home ++ "." ++ String.ofList rest
  | _ => path

/-- The position that a key denotes in a sequence: decimal digits after an optional plus sign. -/
def position? (key : String) : Option Nat :=
  let ds := match key.toList with
    | '+' :: ds => ds
    | ds => ds
  if !ds.isEmpty && ds.all Char.isDigit then some (Nat.ofDigitChars 10 ds 0) else none

def ofPosition (n : Nat) : String := String.ofList (Nat.toDigits 10 n)

@[simp] theorem position?_ofPosition (n : Nat) : position? (ofPosition n) = some n := by
  have hd : ∀ c ∈ Nat.toDigits 10 n, c.isDigit = true := fun c hc =>
    Nat.isDigit_of_mem_toDigits (by decide) (by decide) hc
  have hne : Nat.toDigits 10 n ≠ [] := Nat.toDigits_ne_nil
  simp only [position?, ofPosition, String.toList_ofList]
  split
  · rename_i ds h
    have := hd '+' (by rw [h]; simp)
    exact absurd this (by decide)
  · rw [if_pos, Nat.ofDigitChars_ten_toDigits]
    simp only [Bool.and_eq_true, Bool.not_eq_true', List.isEmpty_eq_false_iff, List.all_eq_true]
    exact ⟨hne, hd⟩

end Path
end Manifest
