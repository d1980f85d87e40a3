import Manifest.Proofs.Text.Octets
import Manifest.Url

/-! Percent-encoded text read back: what is encoded with the percent sign among the reserved
characters decodes to the octets of the text, and holds no reserved character that could be taken
for a separator. -/
namespace Manifest

namespace Text.Utf8

theorem encode_injective {s t : String} (h : encode s = encode t) : s = t := by
  rcases lt_trichotomy s t with hlt | heq | hgt
  · have hoctets := encode_lt_encode.mpr hlt
    rw [h] at hoctets
    exact absurd hoctets (List.lt_irrefl _)
  · exact heq
  · have hoctets := encode_lt_encode.mpr hgt
    rw [h] at hoctets
    exact absurd hoctets (List.lt_irrefl _)

theorem flatMap_octets_injective {a b : List Char}
    (h : a.flatMap octets = b.flatMap octets) : a = b := by
  have hencode : encode (String.ofList a) = encode (String.ofList b) := by simpa [encode] using h
  simpa using congrArg String.toList (encode_injective hencode)

end Text.Utf8

namespace Url

open Text.Utf8 (octets)

variable {reserved cs s : List Char} {c x : Char}

theorem digit?_upperDigit : ∀ n < 16, digit? 16 (upperDigit n) = some n := by decide

theorem decode_percent (b : UInt8) (s : List Char) : decode (percent b ++ s) = b :: decode s := by
  have hb : b.toNat < 256 := b.toNat_lt
  have hhigh := digit?_upperDigit (b.toNat / 16) (by omega)
  have hlow := digit?_upperDigit (b.toNat % 16) (by omega)
  have hsum : b.toNat / 16 * 16 + b.toNat % 16 = b.toNat := by omega
  simp [percent, decode, hhigh, hlow, hsum]

theorem decode_flatMap_percent (bs : List UInt8) (s : List Char) :
    decode (bs.flatMap percent ++ s) = bs ++ decode s := by
  induction bs with
  | nil => rfl
  | cons b bs ih => rw [List.flatMap_cons, List.append_assoc, decode_percent, ih, List.cons_append]

theorem decode_cons_of_ne (h : c ≠ '%') (s : List Char) :
    decode (c :: s) = octets c ++ decode s := by
  rw [decode.eq_def]
  split
  · contradiction
  · rename_i heq
    exact absurd (List.cons.inj heq).1 h
  · rename_i heq
    obtain ⟨rfl, rfl⟩ := List.cons.inj heq
    rfl

theorem encode_cons (reserved : List Char) (c : Char) (cs : List Char) :
    encode reserved (c :: cs) =
      (if isControl c || 0x80 ≤ c.toNat || reserved.contains c then (octets c).flatMap percent
        else [c]) ++
        encode reserved cs := rfl

theorem decode_encode (h : '%' ∈ reserved) (cs : List Char) :
    decode (encode reserved cs) = cs.flatMap octets := by
  induction cs with
  | nil => rfl
  | cons c cs ih =>
    rw [encode_cons, List.flatMap_cons]
    split
    · rw [decode_flatMap_percent, ih]
    · rename_i hplain
      have hc : c ≠ '%' := by
        rintro rfl
        exact hplain (by simp [h])
      rw [List.singleton_append, decode_cons_of_ne hc, ih]

theorem mem_percent {b : UInt8} (h : x ∈ percent b) : x = '%' ∨ ∃ n < 16, x = upperDigit n := by
  have hb : b.toNat < 256 := b.toNat_lt
  rcases List.mem_cons.mp h with rfl | h
  · exact .inl rfl
  · rcases List.mem_cons.mp h with rfl | h
    · exact .inr ⟨_, by omega, rfl⟩
    · exact .inr ⟨_, by omega, List.mem_singleton.mp h⟩

theorem encode_eq_self (h : ∀ c ∈ cs, isControl c = false ∧ c.toNat < 0x80 ∧ c ∉ reserved) :
    encode reserved cs = cs := by
  induction cs with
  | nil => rfl
  | cons c cs ih =>
    obtain ⟨⟨hcontrol, hascii, hplain⟩, hcs⟩ := List.forall_mem_cons.mp h
    have hnot : (isControl c || 0x80 ≤ c.toNat || reserved.contains c) = false := by
      simp [hcontrol, hascii, hplain]
    rw [encode_cons, hnot, ih hcs]
    rfl

theorem isControl_of_isAlpha (h : c.isAlpha = true) : isControl c = false ∧ c.toNat < 0x80 := by
  have hletter : (decide (65 ≤ c.val ∧ c.val ≤ 90) || (97 ≤ c.val && c.val ≤ 122)) = true := h
  have hrange : (65 ≤ c.toNat ∧ c.toNat ≤ 90) ∨ (97 ≤ c.toNat ∧ c.toNat ≤ 122) := by
    simpa [UInt32.le_iff_toNat_le] using hletter
  refine ⟨?_, by omega⟩
  simp only [isControl, Bool.or_eq_false_iff, decide_eq_false_iff_not, beq_eq_false_iff_ne]
  omega

/-- A reserved character is not left in what is encoded, unless percent-encoding puts it there. -/
theorem notMem_encode (h : x ∈ reserved) (hpercent : x ≠ '%') (hdigit : ∀ n < 16, x ≠ upperDigit n)
    (cs : List Char) : x ∉ encode reserved cs := by
  intro hx
  obtain ⟨c, -, hc⟩ := List.mem_flatMap.mp hx
  split at hc
  · obtain ⟨b, -, hb⟩ := List.mem_flatMap.mp hc
    rcases mem_percent hb with rfl | ⟨n, hn, rfl⟩
    · exact hpercent rfl
    · exact hdigit n hn rfl
  · rename_i hplain
    rw [List.mem_singleton] at hc
    subst hc
    exact hplain (by simp [h])

theorem percent_mem_segmentReserved (scheme : List Char) : '%' ∈ segmentReserved scheme := by
  simp [segmentReserved]

theorem separator_notMem_encode (scheme cs : List Char) (hx : x ∈ ['/', '?', '#']) :
    x ∉ encode (segmentReserved scheme) cs := by
  have hreserved : x ∈ segmentReserved scheme := by
    simp only [List.mem_cons, List.not_mem_nil, or_false] at hx
    rcases hx with rfl | rfl | rfl <;> simp [segmentReserved, pathReserved]
  have hpercent : x ≠ '%' := by
    rintro rfl
    simp at hx
  have hdigit : ∀ n < 16, x ≠ upperDigit n := by
    simp only [List.mem_cons, List.not_mem_nil, or_false] at hx
    rcases hx with rfl | rfl | rfl <;> decide
  exact notMem_encode hreserved hpercent hdigit cs

end Url
end Manifest
