import Manifest.Decimal.Text
import Mathlib.Data.List.Induction
import Mathlib.Data.Nat.Digits.Defs

/-! The decimal digits of a number: what they denote, and where they end. -/
namespace Manifest.Decimal

variable {n : Nat} {c : Char} {s rest : List Char}

theorem spanDigits_append {ds : List Char} (hds : ∀ c ∈ ds, c.isDigit = true)
    (hrest : ∀ c ∈ rest.head?, c.isDigit = false) : spanDigits (ds ++ rest) = (ds, rest) := by
  have hstop : rest.takeWhile Char.isDigit = [] ∧ rest.dropWhile Char.isDigit = rest := by
    cases rest with
    | nil => exact ⟨rfl, rfl⟩
    | cons c rest =>
      have hc := hrest c rfl
      simp [hc]
  rw [spanDigits, List.takeWhile_append_of_pos hds, List.dropWhile_append_of_pos hds,
    hstop.1, hstop.2,
    List.append_nil]

theorem eq_of_spanDigits {ds : List Char} (h : spanDigits s = (ds, rest)) :
    (∀ c ∈ ds, c.isDigit = true) ∧ s = ds ++ rest := by
  obtain ⟨rfl, rfl⟩ : s.takeWhile Char.isDigit = ds ∧ s.dropWhile Char.isDigit = rest :=
    Prod.mk.inj h
  exact ⟨fun c hc => List.all_eq_true.mp List.all_takeWhile c hc,
    List.takeWhile_append_dropWhile.symm⟩

theorem isDigit_of_mem_digits (hc : c ∈ digits n) : c.isDigit = true :=
  Nat.isDigit_of_mem_toDigits (by decide) (by decide) hc

theorem value_eq_ofDigitChars (ds : List Char) : value ds = Nat.ofDigitChars 10 ds 0 := by
  have hstep : ∀ m (c : Char), m * 10 + (c.toNat - 48) = 10 * m + (c.toNat - '0'.toNat) :=
    fun m c => by
    rw [Nat.mul_comm]
    rfl
  simp only [value, Nat.ofDigitChars, hstep]

theorem value_digits (n : Nat) : value (digits n) = n := by
  rw [value_eq_ofDigitChars]
  exact Nat.ofDigitChars_ten_toDigits

theorem toNat_lt_of_isDigit (hc : c.isDigit = true) : 48 ≤ c.toNat ∧ c.toNat - 48 < 10 := by
  simp only [Char.isDigit, Bool.and_eq_true, decide_eq_true_eq] at hc
  have hbounds : 48 ≤ c.toNat ∧ c.toNat ≤ 57 := hc
  omega

theorem digits_of_isDigit (hc : c.isDigit = true) : digits (c.toNat - 48) = [c] := by
  have hlt := toNat_lt_of_isDigit hc
  rw [digits, Nat.toDigits_of_lt_base hlt.2, List.cons.injEq, ← Char.toNat_inj,
    Nat.toNat_digitChar_of_lt_ten hlt.2]
  exact ⟨by omega, rfl⟩

theorem digits_concat (hn : 0 < n) (hc : c.isDigit = true) :
    digits (n * 10 + (c.toNat - 48)) = digits n ++ [c] := by
  rw [← digits_of_isDigit hc, digits, digits, digits,
    Nat.toDigits_append_toDigits (by decide) hn (toNat_lt_of_isDigit hc).2, Nat.mul_comm]

theorem value_concat (ds : List Char) (c : Char) :
    value (ds ++ [c]) = value ds * 10 + (c.toNat - 48) := by
  rw [value, List.foldl_append]
  rfl

theorem value_append (as bs : List Char) :
    value (as ++ bs) = value as * 10 ^ bs.length + value bs := by
  rw [value_eq_ofDigitChars, value_eq_ofDigitChars, value_eq_ofDigitChars, Nat.ofDigitChars_append,
    Nat.ofDigitChars_eq_ofDigitChars_zero, Nat.mul_comm]

theorem value_replicate_zero (k : Nat) : value (List.replicate k '0') = 0 := by
  rw [value_eq_ofDigitChars, Nat.ofDigitChars_replicate_zero, Nat.mul_zero]

theorem value_lt {ds : List Char} (h : ∀ c ∈ ds, c.isDigit = true) : value ds < 10 ^ ds.length := by
  induction ds using List.reverseRecOn with
  | nil => decide
  | append_singleton ds c ih =>
    have hinit := ih fun d hd => h d (List.mem_append_left _ hd)
    have hlast := toNat_lt_of_isDigit (h c (by simp))
    rw [value_concat, List.length_append, List.length_singleton, Nat.pow_succ]
    omega

/-- Digits that do not begin with a zero are those of the number that they denote. -/
theorem digits_value {ds : List Char} (h : ∀ c ∈ ds, c.isDigit = true) (hne : ds ≠ [])
    (hhead : ds.head? ≠ some '0') :
    digits (value ds) = ds := by
  induction ds using List.reverseRecOn with
  | nil => exact absurd rfl hne
  | append_singleton as c ih =>
    have hc : c.isDigit = true := h c (by simp)
    cases as with
    | nil =>
      have hvalue : value [c] = c.toNat - 48 := by simp [value]
      rw [List.nil_append, hvalue, digits_of_isDigit hc]
    | cons d as =>
      have hinit := ih (fun e he => h e (List.mem_append_left _ he)) (List.cons_ne_nil d as) hhead
      have hpos : 0 < value (d :: as) := by
        refine Nat.pos_of_ne_zero fun hzero => hhead ?_
        rw [hzero] at hinit
        rw [← hinit]
        rfl
      rw [value_concat, digits_concat hpos hc, hinit]

theorem eq_of_value_eq {as bs : List Char} (ha : ∀ c ∈ as, c.isDigit = true)
    (hb : ∀ c ∈ bs, c.isDigit = true)
    (hlen : as.length = bs.length) (h : value as = value bs) : as = bs := by
  induction as using List.reverseRecOn generalizing bs with
  | nil => exact (List.eq_nil_of_length_eq_zero hlen.symm).symm
  | append_singleton as a ih =>
    rcases List.eq_nil_or_concat bs with rfl | ⟨bs, b, rfl⟩
    · simp at hlen
    · rw [List.concat_eq_append] at *
      rw [value_concat, value_concat] at h
      have hlast := toNat_lt_of_isDigit (ha a (by simp))
      have hlast' := toNat_lt_of_isDigit (hb b (by simp))
      obtain rfl : a = b := Char.toNat_inj.mp (by omega)
      have hinit : as = bs := ih (fun c hc => ha c (List.mem_append_left _ hc))
        (fun c hc => hb c (List.mem_append_left _ hc)) (by simpa using hlen) (by omega)
      rw [hinit]

theorem le_ofDigitChars (n : Nat) (ds : List Char) : n ≤ Nat.ofDigitChars 10 ds n := by
  induction ds generalizing n with
  | nil => exact le_rfl
  | cons c ds ih =>
    rw [Nat.ofDigitChars_cons]
    exact le_trans (by omega) (ih _)

theorem digits_eq_zero_cons (h : digits n = '0' :: s) : s = [] := by
  induction n using Nat.base_induction 10 (by decide) generalizing s with
  | single m hm =>
    rw [digits, Nat.toDigits_of_lt_base hm] at h
    exact (List.cons.inj h).2.symm
  | digit m k hk hm ih =>
    rw [digits, ← Nat.toDigits_append_toDigits (by decide) hm hk] at h
    cases hds : digits m with
    | nil => exact absurd hds Nat.toDigits_ne_nil
    | cons c ds =>
      rw [digits] at hds
      rw [hds, List.cons_append, List.cons.injEq] at h
      obtain ⟨rfl, -⟩ := h
      have hnil := ih hds
      have hzero := value_digits m
      rw [digits, hds, hnil] at hzero
      exact absurd hzero hm.ne

end Manifest.Decimal
