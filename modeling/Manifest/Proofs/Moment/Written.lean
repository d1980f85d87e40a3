import Manifest.Proofs.Moment.Digits
import Manifest.Proofs.Moment.Valid

/-! Moments that are written in the full spelling, and days that are written alone, are read back as
they are. -/
namespace Manifest

open Calendar

namespace Moment

variable {d : Date} {t : Time} {m : Moment} {o : Int} {ds rest : List Char}

def dayText (d : Date) : List Char :=
  yearText .zero d.year ++ '-' :: pad 2 d.month ++ '-' :: pad 2 d.day

theorem stampText_eq (m : Moment) (fraction : List Char) :
    m.stampText fraction = dayText m.date ++ 'T' :: (clockText m.time ++ fraction) := by
  simp [stampText, dayText]

theorem expect_cons (c : Char) (s : List Char) : Datetime.expect c (c :: s) = some s := if_pos rfl

section Days

theorem yearText_of_le {year : Int} (h : 0 ≤ year ∧ year ≤ 9999) :
    yearText .zero year = pad 4 year.natAbs := by
  have hnonneg : ¬year < 0 := by omega
  simp [yearText, h, integerText, hnonneg, fillLeft, pad]

theorem yearText_of_not_le {year : Int} (h : ¬(0 ≤ year ∧ year ≤ 9999)) :
    yearText .zero year = (if year < 0 then '-' else '+') :: pad 4 year.natAbs := by
  rw [yearText, if_neg h]
  by_cases hneg : year < 0 <;> simp [integerText, hneg, fillLeft, pad]

theorem signed_pad (sign : Int) (width n : Nat) (hrest : ∀ c ∈ rest.head?, c.isDigit = false) :
    readYear.signed sign (pad width n ++ rest) = some (sign * n, rest) := by
  have hplaces := Decimal.places_pad width n
  have hvalue := hplaces.value
  have hspan := Decimal.spanDigits_append hplaces.isDigit hrest
  obtain ⟨c, ds, hds⟩ := List.exists_cons_of_ne_nil (Decimal.pad_ne_nil width n)
  rw [hds] at hvalue hspan ⊢
  simp only [readYear.signed, hspan, hvalue]

theorem readYear_of_isDigit {c : Char} (hc : c.isDigit = true) (s : List Char) :
    readYear (c :: s) = (readNumber 4 (c :: s)).map fun (n, rest) => ((n : Int), rest) := by
  rw [readYear, skip_cons (isBlank_of_isDigit hc)]
  split
  · rename_i heq
    obtain ⟨rfl, -⟩ := List.cons.inj heq
    cases hc
  · rename_i heq
    obtain ⟨rfl, -⟩ := List.cons.inj heq
    cases hc
  · rfl

theorem readYear_yearText (year : Int) (hrest : ∀ c ∈ rest.head?, c.isDigit = false) :
    readYear (yearText .zero year ++ rest) = some (year, rest) := by
  by_cases h : 0 ≤ year ∧ year ≤ 9999
  · have hplaces : Decimal.Places 4 year.natAbs (pad 4 year.natAbs) :=
      Decimal.places_pad_of_lt (by decide) (by omega)
    obtain ⟨c, ds, hds, hc⟩ := hplaces.exists_cons (by decide)
    have hread : readNumber 4 (pad 4 year.natAbs ++ rest) = some (year.natAbs, rest) :=
      readNumber_places hplaces (by decide)
    have habs : (year.natAbs : Int) = year := by omega
    rw [yearText_of_le h, hds, List.cons_append, readYear_of_isDigit hc, ← List.cons_append,
      ← hds, hread,
      Option.map_some]
    exact congrArg (fun y : Int => some (y, rest)) habs
  · rw [yearText_of_not_le h, List.cons_append, readYear]
    split_ifs with hneg
    · have habs : -1 * (year.natAbs : Int) = year := by omega
      rw [skip_cons (by decide)]
      simp only [signed_pad _ _ _ hrest, habs]
    · have habs : 1 * (year.natAbs : Int) = year := by omega
      rw [skip_cons (by decide)]
      simp only [signed_pad _ _ _ hrest, habs]

theorem places_month (h : d.isValid = true) : Decimal.Places 2 d.month (pad 2 d.month) := by
  obtain ⟨hmonth, -⟩ := Date.isValid_iff.mp h
  exact Decimal.places_pad_of_lt (by decide) (by omega)

theorem places_day (h : d.isValid = true) : Decimal.Places 2 d.day (pad 2 d.day) := by
  obtain ⟨-, hday⟩ := Date.isValid_iff.mp h
  have hle := daysInMonth_le d.year d.month
  exact Decimal.places_pad_of_lt (by decide) (by omega)

theorem readLooseDate_dayText (h : d.isValid = true) :
    readLooseDate (dayText d ++ rest) = some (d, rest) := by
  have hdash : ∀ s : List Char, ∀ c ∈ ('-' :: s).head?, c.isDigit = false := fun s c hc => by
    obtain rfl := Option.some.inj hc
    decide
  simp only [dayText, List.append_assoc, List.cons_append, readLooseDate,
    readYear_yearText _ (hdash _),
    Option.bind_eq_bind, Option.bind_some, expect_cons,
    readNumber_places (places_month h) (by decide),
    readNumber_places (places_day h) (by decide)]
  rfl

theorem readDate_dayText (h : d.isValid = true) (hyear : 0 ≤ d.year ∧ d.year ≤ 9999) :
    Datetime.readDate (dayText d ++ rest) = some (d, rest) := by
  have hplaces : Decimal.Places 4 d.year.natAbs (pad 4 d.year.natAbs) :=
    Decimal.places_pad_of_lt (by decide) (by omega)
  have habs : (d.year.natAbs : Int) = d.year := by omega
  simp only [dayText, yearText_of_le hyear, List.append_assoc, List.cons_append, Datetime.readDate,
    hplaces.readDigits, Option.bind_eq_bind, Option.bind_some, expect_cons,
    (places_month h).readDigits,
    (places_day h).readDigits, habs, h, if_true]

/-- The full spelling wants four digits for the year and no sign. -/
theorem readDate_dayText_eq_none (hyear : ¬(0 ≤ d.year ∧ d.year ≤ 9999)) :
    Datetime.readDate (dayText d ++ rest) = none := by
  rw [dayText, yearText_of_not_le hyear]
  split_ifs <;> rfl

theorem readChars_dayText (h : d.isValid = true) (hyear : yearInRange d.year = true) :
    readChars (dayText d) = some ⟨d, ⟨0, 0, 0, 0⟩, 0⟩ := by
  have hloose : readLooseDate (dayText d) = some (d, []) := by
    have hend : readLooseDate (dayText d ++ []) = some (d, []) := readLooseDate_dayText h
    rwa [List.append_nil] at hend
  have hfull : readFull (dayText d) = none := by
    have hend : Datetime.readDate (dayText d ++ []) = some (d, []) ∨
      Datetime.readDate (dayText d ++ []) = none :=
      (Decidable.em (0 ≤ d.year ∧ d.year ≤ 9999)).imp (readDate_dayText h) readDate_dayText_eq_none
    rw [List.append_nil] at hend
    rcases hend with hdate | hdate <;> simp [readFull, hdate, Datetime.readDelimitedTime]
  have hmark : readLoose (Datetime.expect 'T') (dayText d) = none := by
    simp [readLoose, hloose, Datetime.expect]
  have hblank : readLoose (fun s => some (skip s)) (dayText d) = none := by
    simp [readLoose, hloose, skip, readLooseTime, readNumber]
  have hvalid : isValid d ⟨0, 0, 0, 0⟩ = true := by simp [isValid, h, hyear, Time.isValid]
  have hday : readDay (dayText d) = some ⟨d, ⟨0, 0, 0, 0⟩, 0⟩ := by simp [readDay, hloose, hvalid]
  rw [readChars, hfull, hmark, hblank, hday]
  rfl

end Days

section Stamps

variable {n k : Nat}

theorem readOffset_offsetText (h : o.natAbs < 1440) :
    readOffset (offsetText .colon o) = some (o, []) := by
  have hhour : Decimal.Places 2 (o.natAbs / 60) (pad 2 (o.natAbs / 60)) :=
    Decimal.places_pad_of_lt (by decide) (by omega)
  have hminute : Decimal.Places 2 (o.natAbs % 60) (pad 2 (o.natAbs % 60)) :=
    Decimal.places_pad_of_lt (by decide) (by omega)
  have hend : Datetime.readDigits 2 (pad 2 (o.natAbs % 60) ++ []) = some (o.natAbs % 60, []) :=
    hminute.readDigits
  rw [List.append_nil] at hend
  have hrange : o.natAbs / 60 ≤ 23 ∧ o.natAbs % 60 ≤ 59 := by omega
  by_cases hneg : o < 0
  · have habs : -1 * (((o.natAbs / 60 : Nat) : Int) * 60 + (o.natAbs % 60 : Nat)) = o := by omega
    have hz : ¬('-' = 'Z' ∨ '-' = 'z') := by decide
    have hplus : '-' ≠ '+' := by decide
    simp only [offsetText, hneg, if_true, List.cons_append, readOffset, if_neg hz,
      if_neg hplus, true_or,
      Option.bind_eq_bind, Option.bind_some, hhour.readDigits, expect_cons, hend, hrange,
      and_self, habs]
  · have habs : 1 * (((o.natAbs / 60 : Nat) : Int) * 60 + (o.natAbs % 60 : Nat)) = o := by omega
    have hz : ¬('+' = 'Z' ∨ '+' = 'z') := by decide
    simp only [offsetText, hneg, if_false, List.cons_append, readOffset, if_neg hz, if_true,
      Option.bind_eq_bind, Option.bind_some, hhour.readDigits, expect_cons, hend, hrange,
      and_self, habs]

theorem readFraction_places (hplaces : Decimal.Places k n ds) (hpos : 0 < k)
    (hrest : ∀ c ∈ rest.head?, c.isDigit = false) :
    Datetime.readFraction ('.' :: (ds ++ rest)) = some (Datetime.fractionValue ds, rest) := by
  have hspan := Decimal.spanDigits_append hplaces.isDigit hrest
  obtain ⟨c, es, rfl, -⟩ := hplaces.exists_cons hpos
  simp only [Datetime.readFraction, hspan]

theorem isValid_fractionValue (h : t.isValid = true) (hplaces : Decimal.Places k n ds)
    (hk : k ≤ 9) :
    ({ t with nanosecond := Datetime.fractionValue ds } : Time).isValid = true := by
  obtain ⟨hhour, hminute, hsecond, -⟩ := isValid_time_iff.mp h
  refine isValid_time_iff.mpr ⟨hhour, hminute, hsecond, ?_⟩
  calc Datetime.fractionValue ds = n * 10 ^ (9 - k) := fractionValue_places hplaces hk
    _ < 10 ^ k * 10 ^ (9 - k) := Nat.mul_lt_mul_of_pos_right hplaces.lt (Nat.pow_pos (by decide))
    _ = 10 ^ 9 := by rw [← Nat.pow_add, Nat.add_sub_cancel' hk]

theorem readTime_clockText (h : t.isValid = true) (hplaces : Decimal.Places k n ds) (hpos : 0 < k)
    (hk : k ≤ 9)
    (hrest : ∀ c ∈ rest.head?, c.isDigit = false) :
    Datetime.readTime (clockText t ++ '.' :: (ds ++ rest)) =
      some ({ t with nanosecond := Datetime.fractionValue ds }, rest) := by
  obtain ⟨hhour, hminute, hsecond, -⟩ := isValid_time_iff.mp h
  have hhour : Decimal.Places 2 t.hour (pad 2 t.hour) :=
    Decimal.places_pad_of_lt (by decide) (by omega)
  have hminute : Decimal.Places 2 t.minute (pad 2 t.minute) :=
    Decimal.places_pad_of_lt (by decide) (by omega)
  have hsecond : Decimal.Places 2 t.second (pad 2 t.second) :=
    Decimal.places_pad_of_lt (by decide) (by omega)
  have hvalid := isValid_fractionValue h hplaces hk
  simp only [clockText, List.append_assoc, List.cons_append, Datetime.readTime, hhour.readDigits,
    hminute.readDigits,
    hsecond.readDigits, Option.bind_eq_bind, Option.bind_some, expect_cons,
    readFraction_places hplaces hpos hrest,
    hvalid, if_true]

/-- The full spelling is read back, with the digits of the fraction that it shows. -/
theorem readFull_stampText (hdate : m.date.isValid = true) (htime : m.time.isValid = true)
    (hyear : 0 ≤ m.date.year ∧ m.date.year ≤ 9999) (hplaces : Decimal.Places k n ds) (hpos : 0 < k)
    (hk : k ≤ 9)
    {zone : List Char} (hzone : readOffset zone = some (o, []))
    (hstop : ∀ c ∈ zone.head?, c.isDigit = false) :
    readFull (m.stampText ('.' :: ds) ++ zone) =
      some ⟨m.date, { m.time with nanosecond := Datetime.fractionValue ds }, o⟩ := by
  have hclock := readTime_clockText htime hplaces hpos hk hstop
  simp only [stampText_eq, List.append_assoc, List.cons_append, readFull,
    readDate_dayText hdate hyear,
    Option.bind_eq_bind, Option.bind_some, Datetime.readDelimitedTime, hclock, hzone,
    List.isEmpty_nil, if_true]

end Stamps

section Texts

variable {c : Char}

def IsStampChar (c : Char) : Prop := c.isDigit = true ∨ c ∈ ['+', '-', '.', ':', 'T', 'Z']

theorem isBlank_of_isStampChar (hc : IsStampChar c) : Text.isBlank c = false := by
  rcases hc with hc | hc
  · exact isBlank_of_isDigit hc
  · simp only [List.mem_cons, List.not_mem_nil, or_false] at hc
    rcases hc with rfl | rfl | rfl | rfl | rfl | rfl <;> decide

theorem isStampChar_of_mem_pad {width n : Nat} (hc : c ∈ pad width n) : IsStampChar c :=
  .inl ((Decimal.places_pad width n).isDigit c hc)

theorem isStampChar_of_mem_dayText (hc : c ∈ dayText d) : IsStampChar c := by
  have hyear : c ∈ yearText .zero d.year → IsStampChar c := fun hc => by
    by_cases h : 0 ≤ d.year ∧ d.year ≤ 9999
    · rw [yearText_of_le h] at hc
      exact isStampChar_of_mem_pad hc
    · rw [yearText_of_not_le h, List.mem_cons] at hc
      refine hc.elim (fun hc => .inr ?_) isStampChar_of_mem_pad
      split_ifs at hc <;> simp [hc]
  simp only [dayText, List.mem_append, List.mem_cons] at hc
  rcases hc with (hc | rfl | hc) | rfl | hc
  · exact hyear hc
  · exact .inr (by decide)
  · exact isStampChar_of_mem_pad hc
  · exact .inr (by decide)
  · exact isStampChar_of_mem_pad hc

theorem isStampChar_of_mem_stampText {fraction : List Char}
    (hfraction : ∀ c ∈ fraction, IsStampChar c)
    (hc : c ∈ m.stampText fraction) : IsStampChar c := by
  simp only [stampText_eq, clockText, List.mem_append, List.mem_cons] at hc
  rcases hc with hc | rfl | ((hc | rfl | hc) | rfl | hc) | hc
  · exact isStampChar_of_mem_dayText hc
  · exact .inr (by decide)
  · exact isStampChar_of_mem_pad hc
  · exact .inr (by decide)
  · exact isStampChar_of_mem_pad hc
  · exact .inr (by decide)
  · exact isStampChar_of_mem_pad hc
  · exact hfraction c hc

theorem isStampChar_of_mem_offsetText (hc : c ∈ offsetText .colon o) : IsStampChar c := by
  simp only [offsetText, List.mem_append, List.mem_cons] at hc
  rcases hc with (hc | hc) | rfl | hc
  · refine .inr ?_
    split_ifs at hc <;> simp [hc]
  · exact isStampChar_of_mem_pad hc
  · exact .inr (by decide)
  · exact isStampChar_of_mem_pad hc

theorem ofText?_ofList {s : List Char} (h : ∀ c ∈ s, IsStampChar c) :
    ofText? (String.ofList s) = readChars s := by
  rw [ofText?, String.toList_ofList, Text.trimChars_of_forall fun c hc =>
    isBlank_of_isStampChar (h c hc)]

theorem ofText?_dayText (h : d.isValid = true) (hyear : yearInRange d.year = true) :
    ofText? (String.ofList (dayText d)) = some ⟨d, ⟨0, 0, 0, 0⟩, 0⟩ := by
  rw [ofText?_ofList fun _ => isStampChar_of_mem_dayText, readChars_dayText h hyear]

/-- An offset as it stands behind a time of day. -/
structure Zone (o : Int) (zone : List Char) : Prop where
  read : readOffset zone = some (o, [])
  chars : ∀ c ∈ zone, IsStampChar c
  stop : ∀ c ∈ zone.head?, c.isDigit = false

theorem zone_offsetText (h : o.natAbs < 1440) : Zone o (offsetText .colon o) where
  read := readOffset_offsetText h
  chars _ := isStampChar_of_mem_offsetText
  stop c hc := by
    obtain rfl := Option.some.inj hc
    split_ifs <;> decide

theorem zone_universal : Zone 0 ['Z'] where
  read := rfl
  chars c hc := by
    obtain rfl := List.mem_singleton.mp hc
    exact .inr (by decide)
  stop c hc := by
    obtain rfl := Option.some.inj hc
    decide

/-- The full spelling with some digits of the fraction of a second. -/
def fullText (m : Moment) (digits : Nat) (zone : List Char) : List Char :=
  m.stampText ('.' :: fractionDigits m.time.nanosecond digits) ++ zone

def cut (m : Moment) (digits : Nat) : Moment :=
  { m with time := { m.time with
    nanosecond := Datetime.fractionValue (fractionDigits m.time.nanosecond digits) } }

variable {k : Nat} {zone : List Char}

theorem ofText?_fullText (hdate : m.date.isValid = true) (htime : m.time.isValid = true)
    (hyear : 0 ≤ m.date.year ∧ m.date.year ≤ 9999) (hpos : 0 < k) (hk : k ≤ 9)
    (hzone : Zone o zone) :
    ofText? (String.ofList (m.fullText k zone)) = some { m.cut k with offset := o } := by
  obtain ⟨-, -, -, hnano⟩ := isValid_time_iff.mp htime
  have hplaces := places_fractionDigits hnano hk
  have hall : ∀ c ∈ m.fullText k zone, IsStampChar c := fun c hc => by
    refine (List.mem_append.mp hc).elim (isStampChar_of_mem_stampText fun c hc => ?_)
      (hzone.chars c)
    rcases List.mem_cons.mp hc with rfl | hc
    · exact .inr (by decide)
    · exact .inl (hplaces.isDigit c hc)
  rw [ofText?_ofList hall, readChars, fullText,
    readFull_stampText hdate htime hyear hplaces hpos hk hzone.read hzone.stop]
  rfl

theorem cut_nine (h : m.time.isValid = true) : m.cut 9 = m := by
  obtain ⟨-, -, -, hnano⟩ := isValid_time_iff.mp h
  have hplaces := places_fractionDigits hnano (le_refl 9)
  have hvalue := fractionValue_places hplaces (le_refl 9)
  simp only [Nat.sub_self, Nat.pow_zero, Nat.div_one, Nat.mul_one] at hvalue
  rw [cut, hvalue]

theorem fullText_cut (h : m.time.isValid = true) (hk : k ≤ 9) :
    (m.cut k).fullText k zone = m.fullText k zone := by
  obtain ⟨-, -, -, hnano⟩ := isValid_time_iff.mp h
  simp only [fullText, cut, fractionDigits_fractionValue hnano hk]
  rfl

end Texts

section Formats

theorem format?_day (h : m.Valid) :
    m.format? "%Y-%m-%d" = some (String.ofList (dayText m.date)) := by
  have hmonth := Decimal.Places.lt (places_month h.date)
  have hday := Decimal.Places.lt (places_day h.date)
  have hread : readFormat "%Y-%m-%d".toList =
      some [zeroed .year, .literal ['-'], zeroed .month, .literal ['-'], zeroed .day] := by decide
  have hitems :
    [zeroed .year, .literal ['-'], zeroed .month, .literal ['-'], zeroed .day].flatMap m.itemText =
      dayText m.date := by
    simp [itemText, numberText, zeroed, twoPlaces_zero hmonth, twoPlaces_zero hday, dayText]
  rw [format?, hread, Option.map_some, hitems]

theorem format?_year (m : Moment) :
    m.format? "%Y" = some (String.ofList (yearText .zero m.date.year)) := by
  have hread : readFormat "%Y".toList = some [zeroed .year] := by decide
  rw [format?, hread, Option.map_some, List.flatMap_singleton]
  rfl

def stampItems : List Item :=
  [zeroed .year, .literal ['-'], zeroed .month, .literal ['-'], zeroed .day, .literal ['T'],
    zeroed .hour,
    .literal [':'], zeroed .minute, .literal [':'], zeroed .second]

theorem flatMap_stampItems (h : m.Valid) : stampItems.flatMap m.itemText = m.stampText [] := by
  have hmonth := Decimal.Places.lt (places_month h.date)
  have hday := Decimal.Places.lt (places_day h.date)
  obtain ⟨hhour, hminute, hsecond, -⟩ := isValid_time_iff.mp h.time
  have hhour : m.time.hour < 100 := by omega
  have hminute : m.time.minute < 100 := by omega
  have hsecond : m.time.second < 100 := by omega
  simp [stampItems, itemText, numberText, zeroed, twoPlaces_zero hmonth, twoPlaces_zero hday,
    twoPlaces_zero hhour,
    twoPlaces_zero hminute, twoPlaces_zero hsecond, stampText, clockText]

theorem format?_full (h : m.Valid) {format : String} {k : Nat} {items : List Item}
    (hread : readFormat format.toList = some (stampItems ++ .fraction true k :: items)) :
    m.format? format = some (String.ofList (m.fullText k (items.flatMap m.itemText))) := by
  rw [format?, hread, Option.map_some, List.flatMap_append, flatMap_stampItems h]
  simp [itemText, fullText, stampText]

theorem format?_instant (h : m.Valid) : m.format? "%Y-%m-%dT%H:%M:%S%.9f%:z" =
    some (String.ofList (m.fullText 9 (offsetText .colon m.offset))) := by
  have hread : readFormat "%Y-%m-%dT%H:%M:%S%.9f%:z".toList =
      some (stampItems ++ [.fraction true 9, .offset .colon]) := by decide
  rw [format?_full h hread, List.flatMap_singleton]
  rfl

theorem format?_universal (h : m.Valid) :
    m.format? "%Y-%m-%dT%H:%M:%S%.6fZ" = some (String.ofList (m.fullText 6 ['Z'])) := by
  have hread : readFormat "%Y-%m-%dT%H:%M:%S%.6fZ".toList =
      some (stampItems ++ [.fraction true 6, .literal ['Z']]) := by decide
  rw [format?_full h hread, List.flatMap_singleton]
  rfl

end Formats

end Moment
end Manifest
