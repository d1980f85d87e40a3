import Manifest.Text.Utf8
import Mathlib.Data.String.Basic

/-! The order of texts by code points is the order of their UTF-8 octets. -/
namespace Manifest.Text.Utf8

variable {m n : Nat} {x y : List UInt8}

theorem cons_lt_cons (hm : m < 256) (hn : n < 256) :
    UInt8.ofNat m :: x < UInt8.ofNat n :: y ↔ m < n ∨ m = n ∧ x < y := by
  rw [List.cons_lt_cons_iff, UInt8.ofNat_lt_iff_lt hm hn, ← UInt8.toNat_inj,
    UInt8.toNat_ofNat_of_lt' hm, UInt8.toNat_ofNat_of_lt' hn]

theorem octets_append_lt {c d : Char} (h : c < d) (x y : List UInt8) :
    octets c ++ x < octets d ++ y := by
  have hlt : c.toNat < d.toNat := h
  have hd : d.toNat < 0x110000 := by
    rcases d.valid with hv | ⟨-, hv⟩
    · exact hv.trans (by decide)
    · exact hv
  unfold octets
  generalize c.toNat = m, d.toNat = n at hlt hd
  -- A character of more octets has a greater first one; with as many, the digits to the base 64
  -- decide.
  have hpow : Nat.pow 64 0 = 1 ∧ Nat.pow 64 1 = 64 ∧ Nat.pow 64 2 = 4096 := by decide
  simp only [hpow]
  split_ifs <;> try omega
  all_goals
    simp only [List.cons_append, List.nil_append]
    repeat rw [cons_lt_cons (by omega) (by omega)]
    omega

theorem octets_ne_nil (c : Char) : octets c ≠ [] := by
  unfold octets
  dsimp only
  split_ifs <;> simp

theorem flatMap_octets_lt {cs ds : List Char} (h : cs < ds) :
    cs.flatMap octets < ds.flatMap octets := by
  induction h with
  | @nil d ds =>
    rw [List.flatMap_nil, List.flatMap_cons]
    cases hd : octets d with
    | nil => exact absurd hd (octets_ne_nil d)
    | cons => exact .nil
  | rel h => exact octets_append_lt h _ _
  | cons _ ih => exact List.append_left_lt ih

/-- Texts are in the order of their octets. -/
theorem encode_lt_encode {s t : String} : encode s < encode t ↔ s < t := by
  have hlt : ∀ {s t : String}, s < t → encode s < encode t := fun h =>
    flatMap_octets_lt (String.lt_iff_toList_lt.mp h)
  refine ⟨fun h => ?_, hlt⟩
  rcases lt_trichotomy s t with hst | rfl | hts
  · exact hst
  · exact absurd h (List.lt_irrefl _)
  · exact absurd (hlt hts) (List.lt_asymm h)

end Manifest.Text.Utf8
