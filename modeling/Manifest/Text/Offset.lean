/-! Offsets in octets into a text given by its characters. -/
namespace Manifest.Text

/-- The octets that characters take. -/
def width : List Char → Nat
  | [] => 0
  | c :: cs => c.utf8Size + width cs

@[simp] theorem width_nil : width [] = 0 := rfl
@[simp] theorem width_cons (c : Char) (cs : List Char) :
    width (c :: cs) = c.utf8Size + width cs := rfl
@[simp] theorem width_append (a b : List Char) : width (a ++ b) = width a + width b := by
  induction a with
  | nil => simp
  | cons c a ih => simp [ih, Nat.add_assoc]

/-- The characters from an octet offset on, when the offset falls between characters. -/
def dropOctets : List Char → Nat → Option (List Char)
  | s, 0 => some s
  | [], _ + 1 => none
  | c :: s, n + 1 => if c.utf8Size ≤ n + 1 then dropOctets s (n + 1 - c.utf8Size) else none

/-- The characters before an octet offset, when the offset falls between characters. -/
def takeOctets : List Char → Nat → Option (List Char)
  | _, 0 => some []
  | [], _ + 1 => none
  | c :: s, n + 1 =>
    if c.utf8Size ≤ n + 1 then (takeOctets s (n + 1 - c.utf8Size)).map (c :: ·) else none

theorem dropOctets_width (before behind : List Char) :
    dropOctets (before ++ behind) (width before) = some behind := by
  induction before with
  | nil => rw [List.nil_append, width_nil, dropOctets]
  | cons c before ih =>
    obtain ⟨n, hn⟩ := Nat.exists_eq_add_of_le' (show 1 ≤ width (c :: before) from
      Nat.add_pos_left c.utf8Size_pos _)
    have hle : c.utf8Size ≤ n + 1 := by rw [← hn]; simp
    have hrest : n + 1 - c.utf8Size = width before := by rw [← hn]; simp
    rw [hn, List.cons_append, dropOctets, if_pos hle, hrest, ih]

theorem takeOctets_width (before behind : List Char) :
    takeOctets (before ++ behind) (width before) = some before := by
  induction before with
  | nil => simp [takeOctets]
  | cons c before ih =>
    obtain ⟨n, hn⟩ := Nat.exists_eq_add_of_le' (show 1 ≤ width (c :: before) from
      Nat.add_pos_left c.utf8Size_pos _)
    have hle : c.utf8Size ≤ n + 1 := by rw [← hn]; simp
    have hrest : n + 1 - c.utf8Size = width before := by rw [← hn]; simp
    rw [hn, List.cons_append, takeOctets, if_pos hle, hrest, ih]
    rfl

end Manifest.Text
