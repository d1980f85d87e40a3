import Manifest.Moment.Format
import Manifest.Text.Blank
import Manifest.Proofs.Decimal.Digits
import Mathlib.Data.List.TakeWhile

/-! Numbers in a given count of decimal places: the ways of writing and of reading them agree. -/
namespace Manifest

open Calendar

namespace Decimal

/-- The digits are those of a number in a given count of places. -/
structure Places (width n : Nat) (ds : List Char) : Prop where
  isDigit : ∀ c ∈ ds, c.isDigit = true
  length : ds.length = width
  value : Decimal.value ds = n

namespace Places

variable {width n k : Nat} {ds es rest : List Char}

theorem lt (h : Places width n ds) : n < 10 ^ width := by
  rw [← h.value, ← h.length]
  exact value_lt h.isDigit

theorem unique (h : Places width n ds) (h' : Places width n es) : ds = es :=
  eq_of_value_eq h.isDigit h'.isDigit (h.length.trans h'.length.symm) (h.value.trans h'.value.symm)

theorem append {m : Nat} (h : Places width n ds) (h' : Places k m es) :
    Places (width + k) (n * 10 ^ k + m) (ds ++ es) where
  isDigit c hc := (List.mem_append.mp hc).elim (h.isDigit c) (h'.isDigit c)
  length := by rw [List.length_append, h.length, h'.length]
  value := by rw [value_append, h.value, h'.value, h'.length]

theorem zeros (k : Nat) : Places k 0 (List.replicate k '0') where
  isDigit c hc := by
    obtain rfl := List.eq_of_mem_replicate hc
    decide
  length := List.length_replicate
  value := value_replicate_zero k

theorem take (h : Places width n ds) (hk : k ≤ width) :
    Places k (n / 10 ^ (width - k)) (ds.take k) := by
  have hinit : ∀ c ∈ ds.take k, c.isDigit = true :=
    fun c hc => h.isDigit c (List.mem_of_mem_take hc)
  have hlength : (ds.take k).length = k := by rw [List.length_take, h.length, Nat.min_eq_left hk]
  have htail := value_lt fun c (hc : c ∈ ds.drop k) => h.isDigit c (List.mem_of_mem_drop hc)
  have hsplit := value_append (ds.take k) (ds.drop k)
  rw [List.take_append_drop, h.value] at hsplit
  rw [List.length_drop, h.length] at htail hsplit
  refine ⟨hinit, hlength, ?_⟩
  rw [hsplit, Nat.add_comm, Nat.add_mul_div_right _ _ (Nat.pow_pos (by decide)),
    Nat.div_eq_of_lt htail, Nat.zero_add]

theorem cons {c : Char} (h : Places (width + 1) n (c :: ds)) :
    c.isDigit = true ∧ Places width (Decimal.value ds) ds ∧
      (c.toNat - 48) * 10 ^ width + Decimal.value ds = n := by
  have hlength : ds.length = width := by simpa using h.length
  refine ⟨h.isDigit c (List.mem_cons_self ..),
    ⟨fun d hd => h.isDigit d (List.mem_cons_of_mem _ hd), hlength, rfl⟩, ?_⟩
  have hsplit := value_append [c] ds
  rw [List.singleton_append, h.value, hlength] at hsplit
  rw [hsplit]
  simp [Decimal.value]

theorem exists_cons (h : Places width n ds) (hwidth : 0 < width) :
    ∃ c es, ds = c :: es ∧ c.isDigit = true := by
  cases ds with
  | nil =>
    have := h.length
    simp at this
    omega
  | cons c es => exact ⟨c, es, rfl, h.isDigit c (List.mem_cons_self ..)⟩

theorem readDigits (h : Places width n ds) :
    Datetime.readDigits width (ds ++ rest) = some (n, rest) := by
  induction ds generalizing width n with
  | nil =>
    obtain rfl := h.length
    obtain rfl := h.value
    rfl
  | cons c ds ih =>
    obtain rfl := h.length
    obtain ⟨hc, hrest, hn⟩ := h.cons
    rw [List.cons_append, List.length_cons, Datetime.readDigits, if_pos hc, ih hrest, ← hn]
    rfl

end Places

theorem places_pad (width n : Nat) :
    Places (width - (digits n).length + (digits n).length) n (pad width n) := by
  have hdigits : Places (digits n).length n (digits n) :=
    ⟨fun c => isDigit_of_mem_digits, rfl, value_digits n⟩
  have hpad := (Places.zeros (width - (digits n).length)).append hdigits
  rwa [Nat.zero_mul, Nat.zero_add] at hpad

theorem places_pad_of_lt {width n : Nat} (hwidth : 0 < width) (h : n < 10 ^ width) :
    Places width n (pad width n) := by
  have hlength : (digits n).length ≤ width := (Nat.length_toDigits_le_iff (by decide) hwidth).mpr h
  have hpad := places_pad width n
  rwa [Nat.sub_add_cancel hlength] at hpad

theorem pad_ne_nil (width n : Nat) : pad width n ≠ [] :=
  List.append_ne_nil_of_right_ne_nil _ Nat.toDigits_ne_nil

end Decimal

namespace Moment

variable {width n k : Nat} {ds rest : List Char}

theorem isBlank_of_isDigit {c : Char} (hc : c.isDigit = true) : Text.isBlank c = false := by
  have hrange := Decimal.toNat_lt_of_isDigit hc
  exact Text.isBlank_of_lt (by omega) (by omega)

theorem skip_cons {c : Char} (hc : Text.isBlank c = false) (s : List Char) :
    skip (c :: s) = c :: s := by
  rw [skip, List.dropWhile_cons_of_neg (by simp [hc])]

theorem skip_places (h : Decimal.Places width n ds) (hwidth : 0 < width) :
    skip (ds ++ rest) = ds ++ rest := by
  obtain ⟨c, es, rfl, hc⟩ := h.exists_cons hwidth
  exact skip_cons (isBlank_of_isDigit hc) _

theorem readNumber_places (h : Decimal.Places width n ds) (hwidth : 0 < width) :
    readNumber width (ds ++ rest) = some (n, rest) := by
  have htake : ((ds ++ rest).take width).takeWhile Char.isDigit = ds := by
    rw [← h.length, List.take_left, List.takeWhile_eq_self_iff]
    exact h.isDigit
  obtain ⟨c, es, hds, -⟩ := h.exists_cons hwidth
  have hne : ds.isEmpty = false := by rw [hds]; rfl
  simp [readNumber, skip_places h hwidth, htake, hne, h.value]

/-- With the digits of a fraction cut off behind some places, the nanoseconds that they denote. -/
theorem fractionValue_places (h : Decimal.Places k n ds) (hk : k ≤ 9) :
    Datetime.fractionValue ds = n * 10 ^ (9 - k) := by
  have htake : ds.take 9 = ds := List.take_of_length_le (h.length ▸ hk)
  rw [Datetime.fractionValue, htake, h.value, h.length, Nat.pow_eq]

theorem places_fractionDigits {nanosecond : Nat} (h : nanosecond < 10 ^ 9) (hk : k ≤ 9) :
    Decimal.Places k (nanosecond / 10 ^ (9 - k)) (fractionDigits nanosecond k) :=
  (Decimal.places_pad_of_lt (by decide) h).take hk

theorem fractionDigits_fractionValue {nanosecond : Nat} (h : nanosecond < 10 ^ 9) (hk : k ≤ 9) :
    fractionDigits (Datetime.fractionValue (fractionDigits nanosecond k)) k =
      fractionDigits nanosecond k := by
  have hplaces := places_fractionDigits h hk
  rw [fractionValue_places hplaces hk]
  have hlt : nanosecond / 10 ^ (9 - k) * 10 ^ (9 - k) < 10 ^ 9 :=
    lt_of_le_of_lt (Nat.div_mul_le_self _ _) h
  have hagain := places_fractionDigits hlt hk
  rw [Nat.mul_div_cancel _ (Nat.pow_pos (by decide))] at hagain
  exact hagain.unique hplaces

/-- Two places are as they are when a number is filled up to two. -/
theorem twoPlaces_zero (h : n < 100) : twoPlaces .zero n = pad 2 n := by
  have hchar : ∀ d < 10, (Char.ofNat (48 + d)).isDigit = true ∧
    (Char.ofNat (48 + d)).toNat - 48 = d := by decide
  have htens := hchar (n / 10) (by omega)
  have hones := hchar (n % 10) (by omega)
  have hplaces : Decimal.Places 2 n (twoPlaces .zero n) := by
    refine ⟨?_, rfl, ?_⟩
    · simp [twoPlaces, htens.1, hones.1]
    · simp only [twoPlaces, Decimal.value, List.foldl_cons, List.foldl_nil, htens.2, hones.2]
      omega
  exact hplaces.unique (Decimal.places_pad_of_lt (by decide) h)

end Moment
end Manifest
