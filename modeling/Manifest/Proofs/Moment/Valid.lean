import Manifest.Moment
import Manifest.Proofs.Decimal.Digits
import Mathlib.Tactic.SplitIfs

/-! Moments that a clock can show: every text that is read gives one, and so does moving the clock
to universal time. -/
namespace Manifest

open Calendar

namespace Calendar.Date

variable {d : Date}

theorem isValid_iff : d.isValid = true ↔
    (1 ≤ d.month ∧ d.month ≤ 12) ∧ 1 ≤ d.day ∧ d.day ≤ daysInMonth d.year d.month := by
  simp [isValid, and_assoc]

theorem one_le_daysInMonth (year : Int) (month : Nat) : 1 ≤ daysInMonth year month := by
  unfold daysInMonth
  split
  · split <;> decide
  all_goals decide

theorem isValid_next (h : d.isValid = true) : d.next.isValid = true := by
  obtain ⟨hmonth, hday⟩ := isValid_iff.mp h
  unfold next
  split_ifs with hwithin hyear
  · exact isValid_iff.mpr ⟨hmonth, Nat.le_add_left .., hwithin⟩
  · exact isValid_iff.mpr ⟨⟨Nat.le_add_left .., hyear⟩, Nat.le_refl _, one_le_daysInMonth ..⟩
  · exact isValid_iff.mpr ⟨by simp, Nat.le_refl _, one_le_daysInMonth ..⟩

theorem isValid_previous (h : d.isValid = true) : d.previous.isValid = true := by
  obtain ⟨hmonth, hday⟩ := isValid_iff.mp h
  unfold previous
  split_ifs with hwithin hyear
  · exact isValid_iff.mpr
      ⟨hmonth, Nat.le_sub_one_of_lt hwithin, Nat.le_trans (Nat.sub_le ..) hday.2⟩
  · exact isValid_iff.mpr ⟨⟨Nat.le_sub_one_of_lt hyear, Nat.le_trans (Nat.sub_le ..) hmonth.2⟩,
      one_le_daysInMonth .., Nat.le_refl _⟩
  · exact isValid_iff.mpr ⟨by simp, by simp, Nat.le_refl _⟩

end Calendar.Date

namespace Datetime

theorem lt_of_readDigits {width n : Nat} {s rest : List Char}
    (h : readDigits width s = some (n, rest)) :
    n < 10 ^ width := by
  induction width generalizing s n rest with
  | zero =>
    obtain ⟨rfl, -⟩ := Prod.mk.inj (Option.some.inj h)
    decide
  | succ width ih =>
    cases s with
    | nil => cases h
    | cons c s =>
      rw [readDigits] at h
      split_ifs at h with hc
      obtain ⟨⟨v, rest'⟩, hv, heq⟩ := Option.map_eq_some_iff.mp h
      obtain ⟨rfl, -⟩ := Prod.mk.inj heq
      have hfirst := (Decimal.toNat_lt_of_isDigit hc).2
      have hrest := ih hv
      calc (c.toNat - 48) * 10 ^ width + v < (c.toNat - 48) * 10 ^ width + 10 ^ width := by omega
        _ = (c.toNat - 48 + 1) * 10 ^ width := (Nat.succ_mul ..).symm
        _ ≤ 10 * 10 ^ width := Nat.mul_le_mul_right _ hfirst
        _ = 10 ^ (width + 1) := (Nat.pow_succ').symm

end Datetime

namespace Moment

/-- Day and time of day exist, and the clock is less than a day off universal time. -/
structure Valid (m : Moment) : Prop where
  date : m.date.isValid = true
  time : m.time.isValid = true
  offset : m.offset.natAbs < 1440

variable {m : Moment} {s rest : List Char}

theorem isValid_time_iff {t : Time} : t.isValid = true ↔
    t.hour ≤ 23 ∧ t.minute ≤ 59 ∧ t.second ≤ 60 ∧ t.nanosecond < 1000000000 := by
  simp [Time.isValid, and_assoc]

theorem Valid.toUniversal (h : m.Valid) : m.toUniversal.Valid where
  date := by
    have hdate := h.date
    simp only [Moment.toUniversal, shift]
    split_ifs
    · exact Date.isValid_previous hdate
    · exact Date.isValid_next hdate
    · exact hdate
  time := by
    have htime := isValid_time_iff.mp h.time
    simp only [Moment.toUniversal, shift]
    refine isValid_time_iff.mpr ⟨?_, ?_, htime.2.2⟩
    · simp only
      omega
    · simp only
      omega
  offset := Nat.zero_lt_succ _

theorem valid_of_isValid {d : Date} {t : Time} (h : isValid d t = true) :
    (⟨d, t, 0⟩ : Moment).Valid ∧ yearInRange d.year = true := by
  simp only [isValid, Bool.and_eq_true] at h
  exact ⟨⟨h.1.2, h.2, Nat.zero_lt_succ _⟩, h.1.1⟩

theorem natAbs_lt_of_readOffset {offset : Int} (h : readOffset s = some (offset, rest)) :
    offset.natAbs < 1440 := by
  cases s with
  | nil => cases h
  | cons c s =>
    rw [readOffset] at h
    split_ifs at h with hz hplus hminus
    · obtain ⟨rfl, -⟩ := Prod.mk.inj (Option.some.inj h)
      decide
    -- both signs are followed by the same
    all_goals
      simp only [Option.bind_eq_bind, Option.bind_some, Option.bind_none, Option.bind_eq_some_iff,
        reduceCtorEq] at h
    all_goals
      obtain ⟨⟨hour, s₁⟩, -, s₂, -, ⟨minute, s₃⟩, -, h⟩ := h
      simp only at h
      split_ifs at h with hrange
      obtain ⟨rfl, -⟩ := Prod.mk.inj (Option.some.inj h)
      omega

theorem isValid_of_readDate {d : Date} (h : Datetime.readDate s = some (d, rest)) :
    d.isValid = true ∧ yearInRange d.year = true := by
  simp only [Datetime.readDate, Option.bind_eq_bind, Option.bind_eq_some_iff] at h
  obtain ⟨⟨year, s₁⟩, hyear, s₂, -, ⟨month, s₃⟩, -, s₄, -, ⟨day, s₅⟩, -, h⟩ := h
  simp only at h
  split_ifs at h with hvalid
  obtain ⟨rfl, -⟩ := Prod.mk.inj (Option.some.inj h)
  have hlt := Datetime.lt_of_readDigits hyear
  simp only [yearInRange, Bool.and_eq_true, decide_eq_true_eq]
  exact ⟨hvalid, by omega⟩

theorem isValid_of_readTime {t : Time} (h : Datetime.readTime s = some (t, rest)) :
    t.isValid = true := by
  simp only [Datetime.readTime, Option.bind_eq_bind, Option.bind_eq_some_iff] at h
  obtain ⟨⟨hour, s₁⟩, -, s₂, -, ⟨minute, s₃⟩, -, s₄, -, ⟨second, s₅⟩, -,
    ⟨nanosecond, s₆⟩, -, h⟩ := h
  simp only at h
  split_ifs at h with hvalid
  obtain ⟨rfl, -⟩ := Prod.mk.inj (Option.some.inj h)
  exact hvalid

theorem isValid_of_readDelimitedTime {t : Time}
    (h : Datetime.readDelimitedTime s = some (t, rest)) :
    t.isValid = true := by
  unfold Datetime.readDelimitedTime at h
  split at h
  · exact isValid_of_readTime h
  · exact isValid_of_readTime h
  · exact isValid_of_readTime h
  · cases h

theorem valid_of_readFull (h : readFull s = some m) : m.Valid ∧ yearInRange m.date.year = true := by
  simp only [readFull, Option.bind_eq_bind, Option.bind_eq_some_iff] at h
  obtain ⟨⟨date, s₁⟩, hdate, ⟨time, s₂⟩, htime, ⟨offset, s₃⟩, hoffset, h⟩ := h
  simp only at h
  split_ifs at h
  obtain rfl := Option.some.inj h
  obtain ⟨hdate, hyear⟩ := isValid_of_readDate hdate
  exact ⟨⟨hdate, isValid_of_readDelimitedTime htime, natAbs_lt_of_readOffset hoffset⟩, hyear⟩

theorem valid_of_readLoose {delimiter : List Char → Option (List Char)}
    (h : readLoose delimiter s = some m) :
    m.Valid ∧ yearInRange m.date.year = true := by
  simp only [readLoose, Option.bind_eq_bind, Option.bind_eq_some_iff] at h
  obtain ⟨⟨date, s₁⟩, -, s₂, -, ⟨time, s₃⟩, -, h⟩ := h
  simp only [Bool.and_eq_true] at h
  split_ifs at h with hvalid
  obtain rfl := Option.some.inj h
  exact valid_of_isValid hvalid.2

theorem valid_of_readDay (h : readDay s = some m) : m.Valid ∧ yearInRange m.date.year = true := by
  simp only [readDay, Option.bind_eq_bind, Option.bind_eq_some_iff] at h
  obtain ⟨⟨date, s₁⟩, -, h⟩ := h
  simp only [Bool.and_eq_true] at h
  split_ifs at h with hvalid
  obtain rfl := Option.some.inj h
  exact valid_of_isValid hvalid.2

theorem valid_of_ofText? {t : String} (h : ofText? t = some m) :
    m.Valid ∧ yearInRange m.date.year = true := by
  simp only [ofText?, readChars, Option.orElse_eq_some] at h
  rcases h with h | ⟨-, h | ⟨-, h | ⟨-, h⟩⟩⟩
  · exact valid_of_readFull h
  · exact valid_of_readLoose h
  · exact valid_of_readLoose h
  · exact valid_of_readDay h

end Moment
end Manifest
