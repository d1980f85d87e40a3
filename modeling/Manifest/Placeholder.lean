import Manifest.Text.Blank
import Manifest.Text.Offset
import Manifest.Text.Utf8

/-! Placeholders in text: `$`, then in braces a path and perhaps a query between tildes. A text is
split into pieces, literal and placeholder; spans of placeholders are offsets in octets. -/
namespace Manifest

structure Placeholder where
  path : String
  query : Option String
  deriving DecidableEq, Repr

namespace Placeholder

def isPathChar (c : Char) : Bool :=
  c == '-' || c == '.' || c == '_' || c.isAlphanum

def skip (s : List Char) : List Char := s.dropWhile Text.isBlank

theorem skip_length_le (s : List Char) : (skip s).length ≤ s.length :=
  (List.dropWhile_sublist _).length_le

/-- The end of a placeholder behind its path: a query between tildes, if any, and the closing brace.
A query of white space alone is the empty query. -/
def readEnd (path : List Char) : List Char → Option (Placeholder × List Char)
  | '}' :: rest => some (⟨String.ofList path, none⟩, rest)
  | '~' :: s =>
    let body := s.takeWhile (· != '~')
    match s.dropWhile (· != '~') with
    | '~' :: s =>
      match skip s with
      | '}' :: rest =>
        if body.isEmpty then none
        else some (⟨String.ofList path, some (String.ofList (Text.trimChars body))⟩, rest)
      | _ => none
    | _ => none
  | _ => none

def read : List Char → Option (Placeholder × List Char)
  | '$' :: '{' :: s =>
    let s := skip s
    readEnd (s.takeWhile isPathChar) (skip (s.dropWhile isPathChar))
  | _ => none

@[simp] theorem read_nil : read [] = none := rfl

theorem readEnd_length_lt {path s rest : List Char} {p : Placeholder}
    (h : readEnd path s = some (p, rest)) : rest.length < s.length := by
  unfold readEnd at h
  split at h
  · simp only [Option.some.injEq, Prod.mk.injEq] at h
    simp [← h.2]
  · rename_i s
    simp only at h
    split at h
    · rename_i t ht
      split at h
      · rename_i u hu
        split at h
        · simp at h
        · simp only [Option.some.injEq, Prod.mk.injEq] at h
          have h1 := (List.dropWhile_sublist (fun c : Char => c != '~') (l := s)).length_le
          have h2 := skip_length_le t
          rw [ht] at h1; rw [hu] at h2
          simp only [List.length_cons] at *
          rw [← h.2]; omega
      · simp at h
    · simp at h
  · simp at h

theorem read_length_lt {s rest : List Char} {p : Placeholder}
    (h : read s = some (p, rest)) : rest.length < s.length := by
  unfold read at h
  split at h
  · rename_i s
    have h1 := readEnd_length_lt h
    have h2 := skip_length_le ((skip s).dropWhile isPathChar)
    have h3 := (List.dropWhile_sublist isPathChar (l := skip s)).length_le
    have h4 := skip_length_le s
    simp only [List.length_cons]
    omega
  · simp at h

end Placeholder

/-- A stretch of text: as it stands, or a placeholder with the characters it is written in. -/
inductive Piece
  | literal (chars : List Char)
  | placeholder (p : Placeholder) (chars : List Char)
  deriving DecidableEq, Repr

def Piece.chars : Piece → List Char
  | .literal cs => cs
  | .placeholder _ cs => cs

namespace Template

/-- Puts a literal character before pieces, in one piece with a literal that comes first. -/
def consChar (c : Char) : List Piece → List Piece
  | .literal cs :: ps => .literal (c :: cs) :: ps
  | ps => .literal [c] :: ps

/-- The pieces of a text of which the first `n` characters have been taken already. -/
def piecesAfter : Nat → List Char → List Piece
  | _, [] => []
  | n + 1, _ :: s => piecesAfter n s
  | 0, c :: s =>
    match Placeholder.read (c :: s) with
    | some (p, rest) =>
      let n := (c :: s).length - rest.length
      .placeholder p ((c :: s).take n) :: piecesAfter (n - 1) s
    | none => consChar c (piecesAfter 0 s)

/-- The pieces of a text: each placeholder starts at the first place where one can after the end of
the one before. -/
def pieces (s : List Char) : List Piece := piecesAfter 0 s

theorem piecesAfter_eq (n : Nat) (s : List Char) : piecesAfter n s = pieces (s.drop n) := by
  induction s generalizing n with
  | nil => cases n <;> rfl
  | cons c s ih =>
    cases n with
    | zero => rfl
    | succ n => simp only [piecesAfter, List.drop_succ_cons]; exact ih n

@[simp] theorem flatMap_consChar (c : Char) (ps : List Piece) :
    (consChar c ps).flatMap Piece.chars = c :: ps.flatMap Piece.chars := by
  unfold consChar
  split <;> simp [Piece.chars]

/-- Nothing is lost: the pieces put together are the text. -/
theorem flatMap_piecesAfter (n : Nat) (s : List Char) :
    (piecesAfter n s).flatMap Piece.chars = s.drop n := by
  induction s generalizing n with
  | nil => cases n <;> rfl
  | cons c s ih =>
    cases n with
    | succ n => simpa [piecesAfter] using ih n
    | zero =>
      simp only [piecesAfter]
      split
      · rename_i p rest h
        have hlt := Placeholder.read_length_lt h
        have hn : (c :: s).length - rest.length = ((c :: s).length - rest.length - 1) + 1 := by
          omega
        rw [List.flatMap_cons, ih, Piece.chars, hn, List.take_succ_cons, Nat.add_sub_cancel,
          List.cons_append, List.take_append_drop, List.drop_zero]
      · simp [ih]

theorem flatMap_pieces (s : List Char) : (pieces s).flatMap Piece.chars = s := by
  simpa [pieces] using flatMap_piecesAfter 0 s

end Template

/-- A placeholder and the octets it takes in a text: from `start` up to before `stop`. -/
structure Span where
  start : Nat
  stop : Nat
  placeholder : Placeholder
  deriving DecidableEq, Repr

namespace Template

def spansFrom (start : Nat) : List Piece → List Span
  | [] => []
  | .literal cs :: ps => spansFrom (start + Text.width cs) ps
  | .placeholder p cs :: ps =>
    ⟨start, start + Text.width cs, p⟩ :: spansFrom (start + Text.width cs) ps

def scan (text : String) : List Span := spansFrom 0 (pieces text.toList)

def hasPlaceholder (text : String) : Bool := !(scan text).isEmpty

/-- The text with spans, in order, replaced by other texts. `s` is what is left of the text from
octet `done` on. A span without a replacement stays as it is; spans that overlap or do not fall
between characters give nothing. -/
def substituteFrom (done : Nat) (s : List Char) : List Span → List String → Option (List Char)
  | m :: ms, r :: rs =>
    if done ≤ m.start ∧ m.start ≤ m.stop then do
      let gap ← Text.takeOctets s (m.start - done)
      let rest ← Text.dropOctets s (m.stop - done)
      let tail ← substituteFrom m.stop rest ms rs
      return gap ++ r.toList ++ tail
    else none
  | _, _ => some s

def substitute? (text : String) (spans : List Span) (replacements : List String) : Option String :=
  (substituteFrom 0 text.toList spans replacements).map String.ofList

def placeholders : List Piece → List Placeholder
  | [] => []
  | .literal _ :: ps => placeholders ps
  | .placeholder p _ :: ps => p :: placeholders ps

/-- The pieces with each placeholder replaced by a text; those without one stay as written. -/
def fill : List Piece → List String → List Char
  | [], _ => []
  | .literal cs :: ps, rs => cs ++ fill ps rs
  | .placeholder _ _ :: ps, r :: rs => r.toList ++ fill ps rs
  | .placeholder _ cs :: ps, [] => cs ++ fill ps []

@[simp] theorem fill_nil_right (ps : List Piece) : fill ps [] = ps.flatMap Piece.chars := by
  induction ps with
  | nil => rfl
  | cons p ps ih => cases p <;> simp [fill, Piece.chars, ih]

theorem spansFrom_placeholder (start : Nat) (ps : List Piece) :
    (spansFrom start ps).map Span.placeholder = placeholders ps := by
  induction ps generalizing start with
  | nil => rfl
  | cons p ps ih => cases p <;> simp [spansFrom, placeholders, ih]

end Template
end Manifest
