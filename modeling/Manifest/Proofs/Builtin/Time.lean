import Manifest.Proofs.Function.Registry
import Manifest.Proofs.Moment.Written

/-! What the functions on time answer, and that it is read back by them: days, moments in the full
spelling, and the present moment. -/
namespace Manifest.Builtin

open Moment

variable {name format t s : String} {y : Value} {m : Moment}

theorem formatMoment_of_ofText? (h : ofText? t = some m) (hformat : m.format? format = some s) :
    formatMoment name (.string t) format = .ok (.string s) := by
  simp [formatMoment, Value.string?, h, hformat]

theorem formatMoment_eq_ok_iff : formatMoment name (.string t) format = .ok y ↔
    ∃ m s, ofText? t = some m ∧ m.format? format = some s ∧ y = .string s := by
  constructor
  · intro h
    simp only [formatMoment, Value.string?, Option.getD_some] at h
    cases hm : ofText? t with
    | none => simp [hm] at h
    | some m =>
      cases hs : m.format? format with
      | none => simp [hm, hs] at h
      | some s =>
        simp only [hm, hs, Except.ok.injEq] at h
        exact ⟨m, s, rfl, hs, h.symm⟩
  · rintro ⟨m, s, hm, hs, rfl⟩
    exact formatMoment_of_ofText? hm hs

/-- The functions that write the moment that a text spells by a format of their own. -/
theorem answer_of_mem_formatted (h : (name, format) ∈ [("year", "%Y"), ("date", "%Y-%m-%d")])
    (t : String)
    (c : Context) :
    Registry.builtin.answer name [.string t] c = formatMoment name (.string t) format := by
  have hget : Registry.builtin.get? name =
      some (unary .string fun v => formatMoment name v format) := by
    refine Registry.get?_builtin ?_
    simp only [List.mem_cons, Prod.mk.injEq, List.not_mem_nil, or_false] at h
    rcases h with ⟨rfl, rfl⟩ | ⟨rfl, rfl⟩ <;> simp [timeFunctions, unary]
  exact Registry.answer_unary hget rfl c

theorem answer_year (t : String) (c : Context) :
    Registry.builtin.answer "year" [.string t] c = formatMoment "year" (.string t) "%Y" :=
  answer_of_mem_formatted (by simp) t c

theorem answer_date (t : String) (c : Context) :
    Registry.builtin.answer "date" [.string t] c = formatMoment "date" (.string t) "%Y-%m-%d" :=
  answer_of_mem_formatted (by simp) t c

theorem answer_format (t format : String) (c : Context) :
    Registry.builtin.answer "format_datetime" [.string t, .string format] c =
      formatMoment "format_datetime" (.string t) format := by
  have hget : Registry.builtin.get? "format_datetime" = some ⟨⟨[.string, .string]⟩, fun args =>
      Run.ofExcept (formatMoment "format_datetime" (args.head?.getD .null)
        ((args[1]?.bind Value.string?).getD ""))⟩ :=
    Registry.get?_builtin (by simp [timeFunctions])
  rw [Registry.answer_of_get? hget rfl]
  rfl

theorem answer_now (c : Context) :
    Registry.builtin.answer "now_utc" [] c = .ok (.string c.environment.universalTime) := by
  have hget : Registry.builtin.get? "now_utc" = some (environmental Environment.universalTime) :=
    Registry.get?_builtin (by simp [timeFunctions])
  rw [Registry.answer_of_get? hget rfl]
  rfl

/-- Days and moments that are written are read back. A day is that of its own text, and of the same
year. A moment of the years 0 to 9999 that is written with all of its parts is the one that its text
spells. The present moment is written as it is shown. -/
theorem written_moments_read_back (c : Context) :
    (∀ t r, Registry.builtin.answer "date" [.string t] c = .ok r → ∃ s y, r = .string s ∧
      Registry.builtin.answer "date" [.string s] c = .ok (.string s) ∧
      Registry.builtin.answer "year" [.string t] c = .ok y ∧
      Registry.builtin.answer "year" [.string s] c = .ok y) ∧
    (∀ t m, Moment.ofText? t = some m → 0 ≤ m.date.year ∧ m.date.year ≤ 9999 →
      let format := "%Y-%m-%dT%H:%M:%S%.9f%:z"
      ∃ s, Registry.builtin.answer "format_datetime" [.string t, .string format] c =
        .ok (.string s) ∧
        Moment.ofText? s = some m ∧
        Registry.builtin.answer "format_datetime" [.string s, .string format] c = .ok (.string s)) ∧
    (c.environment.now.Valid →
      0 ≤ c.environment.now.toUniversal.date.year ∧ c.environment.now.toUniversal.date.year ≤ 9999 →
      ∃ s, Registry.builtin.answer "now_utc" [] c = .ok (.string s) ∧
        Registry.builtin.answer "format_datetime" [.string s, .string "%Y-%m-%dT%H:%M:%S%.6fZ"] c =
          .ok (.string s)) := by
  refine ⟨fun t r h => ?_, fun t m h hyear => ?_, fun hnow hyear => ?_⟩
  · rw [answer_date] at h
    obtain ⟨m, s, hm, hs, rfl⟩ := formatMoment_eq_ok_iff.mp h
    obtain ⟨hvalid, hrange⟩ := valid_of_ofText? hm
    rw [format?_day hvalid, Option.some.injEq] at hs
    subst hs
    have hread := ofText?_dayText hvalid.date hrange
    have hmidnight := (valid_of_ofText? hread).1
    simp only [answer_date, answer_year]
    exact ⟨_, _, rfl, formatMoment_of_ofText? hread (format?_day hmidnight),
      formatMoment_of_ofText? hm (format?_year m), formatMoment_of_ofText? hread (format?_year _)⟩
  · obtain ⟨hvalid, -⟩ := valid_of_ofText? h
    have hread := ofText?_fullText hvalid.date hvalid.time hyear (by decide) (le_refl 9)
      (zone_offsetText hvalid.offset)
    rw [cut_nine hvalid.time] at hread
    simp only [answer_format]
    exact ⟨_, formatMoment_of_ofText? h (format?_instant hvalid), hread,
      formatMoment_of_ofText? hread (format?_instant hvalid)⟩
  · have hvalid := hnow.toUniversal
    have hread :=
      ofText?_fullText hvalid.date hvalid.time hyear (by decide) (by decide : 6 ≤ 9) zone_universal
    have hshown : c.environment.universalTime =
      String.ofList (c.environment.now.toUniversal.fullText 6 ['Z']) := rfl
    have hcut : (c.environment.now.toUniversal.cut 6).Valid := (valid_of_ofText? hread).1
    have hagain := format?_universal hcut
    rw [fullText_cut hvalid.time (by decide)] at hagain
    simp only [answer_now, answer_format, hshown]
    exact ⟨_, rfl, formatMoment_of_ofText? hread hagain⟩

/-- A loosely spelled day, a leap second on a clock that is ahead, and a present moment on a clock
that is behind. -/
theorem written_moments_read_back_leap_second :
    let c : Context :=
      { environment := Environment.capture ⟨⟨2024, 2, 29⟩, ⟨23, 30, 15, 123456789⟩, -60⟩ []
        network := .script [] }
    (∃ s y, Value.string "-0004-02-29" = .string s ∧
      Registry.builtin.answer "date" [.string s] c = .ok (.string s) ∧
      Registry.builtin.answer "year" [.string " -4-2-29"] c = .ok y ∧
      Registry.builtin.answer "year" [.string s] c = .ok y) ∧
    (∃ s, Registry.builtin.answer "format_datetime"
        [.string "2016-12-31T23:59:60.5+01:00", .string "%Y-%m-%dT%H:%M:%S%.9f%:z"] c =
          .ok (.string s) ∧
      Moment.ofText? s = some ⟨⟨2016, 12, 31⟩, ⟨23, 59, 60, 500000000⟩, 60⟩ ∧
      Registry.builtin.answer "format_datetime" [.string s, .string "%Y-%m-%dT%H:%M:%S%.9f%:z"] c =
        .ok (.string s)) ∧
    ∃ s, Registry.builtin.answer "now_utc" [] c = .ok (.string s) ∧
      Registry.builtin.answer "format_datetime" [.string s, .string "%Y-%m-%dT%H:%M:%S%.6fZ"] c =
        .ok (.string s) := by
  intro c
  have hback := written_moments_read_back c
  exact ⟨hback.1 " -4-2-29" _ rfl,
    hback.2.1 "2016-12-31T23:59:60.5+01:00" _ (by decide) (by decide),
    hback.2.2 ⟨by decide, by decide, by decide⟩ (by decide)⟩

end Manifest.Builtin
