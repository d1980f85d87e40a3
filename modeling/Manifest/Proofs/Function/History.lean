import Manifest.Proofs.Function.Checked
import Manifest.Proofs.Text.Octets
import Manifest.Proofs.Value.Normal
import Mathlib.Data.List.Induction

/-! Registrations, one after another. What a registry holds under a name is told by the
registrations alone: it is the function of the latest one that took effect. -/
namespace Manifest

variable {σ : Type}

/-- A registration of a function, of a body with its signature, or of a function that gives way to
another of its name unless forced. -/
inductive Registration (σ : Type)
  | function (name : String) (f : Function σ)
  | closure (name : String) (signature : Signature) (body : List Value → Run σ Value)
  | checked (name : String) (f : Function σ) (force : Bool)

namespace Registration

def name : Registration σ → String
  | .function name _ | .closure name _ _ | .checked name _ _ => name

def registered : Registration σ → Function σ
  | .function _ f | .checked _ f _ => f
  | .closure _ signature body => ⟨signature, body⟩

def replaces : Registration σ → Bool
  | .function .. | .closure .. => true
  | .checked _ _ force => force

end Registration

namespace Registry

open Registration (name registered replaces)

def perform (r : Registry σ) : Registration σ → Except Error Unit × Registry σ
  | .function name f => (.ok (), r.register name f)
  | .closure name signature body => (.ok (), r.register name ⟨signature, body⟩)
  | .checked name f force =>
    match r.registerUnlessTaken name f force with
    | .ok r' => (.ok (), r')
    | .error e => (.error e, r)

def after (start : Registry σ) (history : List (Registration σ)) : Registry σ :=
  history.foldl (fun r c => (r.perform c).2) start

/-- A registration behind others has an effect: it replaces, or its name has neither been there from
the start nor been given before. -/
def TakesEffect (start : Registry σ) (before : List (Registration σ)) (c : Registration σ) : Prop :=
  c.replaces = true ∨ c.name ∉ start.names ∧ c.name ∉ before.map name

/-- The registration at a position of a history is of a name, and took effect there. -/
structure EffectiveAt (start : Registry σ) (history : List (Registration σ)) (k : String) (i : Nat)
    (c : Registration σ) : Prop where
  getElem? : history[i]? = some c
  name_eq : c.name = k
  takesEffect : TakesEffect start (history.take i) c

variable {start r : Registry σ} {history : List (Registration σ)} {c d : Registration σ}
  {k : String} {i : Nat}
  {f : Function σ}

theorem after_concat (start : Registry σ) (history : List (Registration σ)) (c : Registration σ) :
    start.after (history ++ [c]) = ((start.after history).perform c).2 := by
  rw [after, List.foldl_append]
  rfl

theorem contains_iff_mem_names : r.contains k = true ↔ k ∈ r.names := by
  rw [contains, Option.isSome_iff_ne_none, ne_eq, ← notMem_names_iff, not_not]

theorem mem_names_register : k ∈ (r.register c.name f).names ↔ k = c.name ∨ k ∈ r.names :=
  Assoc.mem_keys_insert

theorem perform_of_replaces (h : c.replaces = true ∨ c.name ∉ r.names) :
    r.perform c = (.ok (), r.register c.name c.registered) := by
  cases c with
  | function => rfl
  | closure => rfl
  | checked name f force =>
    have hfree : (!force && r.contains name) = false := by
      rw [Bool.and_eq_false_iff, Bool.not_eq_false', ← Bool.not_eq_true (r.contains name),
        contains_iff_mem_names]
      exact h
    rw [perform, registerUnlessTaken, hfree]
    rfl

theorem perform_of_taken (hreplaces : c.replaces = false) (htaken : c.name ∈ r.names) :
    r.perform c = (.error (.alreadyRegistered c.name), r) := by
  cases c with
  | function => cases hreplaces
  | closure => cases hreplaces
  | checked name f force =>
    obtain rfl : force = false := hreplaces
    have hcontains : r.contains name = true := contains_iff_mem_names.mpr htaken
    rw [perform, registerUnlessTaken, hcontains]
    rfl

/-- The names of a registry are those from the start and all that have been given, be it in vain. -/
theorem mem_names_after :
    k ∈ (start.after history).names ↔ k ∈ start.names ∨ k ∈ history.map name := by
  induction history using List.reverseRecOn with
  | nil => simp [after]
  | append_singleton history c ih =>
    rw [after_concat, List.map_append, List.mem_append, ← or_assoc, ← ih, List.map_singleton,
      List.mem_singleton]
    by_cases h : c.replaces = true ∨ c.name ∉ (start.after history).names
    · rw [perform_of_replaces h, mem_names_register, or_comm]
    · rw [not_or, not_not, Bool.not_eq_true] at h
      rw [perform_of_taken h.1 h.2]
      exact ⟨.inl, fun hk => hk.elim id fun hk => hk ▸ h.2⟩

theorem takesEffect_iff :
    TakesEffect start history c ↔ c.replaces = true ∨ c.name ∉ (start.after history).names := by
  rw [mem_names_after, not_or, TakesEffect]

theorem perform_of_takesEffect (h : TakesEffect start history c) :
    (start.after history).perform c =
      (.ok (), (start.after history).register c.name c.registered) :=
  perform_of_replaces (takesEffect_iff.mp h)

theorem perform_of_not_takesEffect (h : ¬TakesEffect start history c) :
    (start.after history).perform c =
      (.error (.alreadyRegistered c.name), start.after history) := by
  rw [takesEffect_iff, not_or, not_not, Bool.not_eq_true] at h
  exact perform_of_taken h.1 h.2

theorem EffectiveAt.lt_length (h : EffectiveAt start history k i c) : i < history.length :=
  (List.getElem?_eq_some_iff.mp h.getElem?).1

theorem getElem?_concat_eq_some_iff :
    (history ++ [c])[i]? = some d ↔ history[i]? = some d ∨ i = history.length ∧ d = c := by
  rcases Nat.lt_trichotomy i history.length with h | rfl | h
  · simp [List.getElem?_append_left h, h.ne]
  · simp [eq_comm]
  · have hlength : (history ++ [c]).length ≤ i := by rwa [List.length_append]
    simp [List.getElem?_eq_none hlength, List.getElem?_eq_none h.le, h.ne']

theorem effectiveAt_concat : EffectiveAt start (history ++ [c]) k i d ↔
    EffectiveAt start history k i d ∨ i = history.length ∧ d = c ∧ c.name = k ∧
      TakesEffect start history c := by
  constructor
  · rintro ⟨hi, hname, heffect⟩
    rcases getElem?_concat_eq_some_iff.mp hi with hi | ⟨rfl, rfl⟩
    · have hlt := (List.getElem?_eq_some_iff.mp hi).1
      rw [List.take_append_of_le_length hlt.le] at heffect
      exact .inl ⟨hi, hname, heffect⟩
    · rw [List.take_left] at heffect
      exact .inr ⟨rfl, rfl, hname, heffect⟩
  · rintro (h | ⟨rfl, rfl, hname, heffect⟩)
    · refine ⟨getElem?_concat_eq_some_iff.mpr (.inl h.getElem?), h.name_eq, ?_⟩
      rw [List.take_append_of_le_length h.lt_length.le]
      exact h.takesEffect
    · refine ⟨getElem?_concat_eq_some_iff.mpr (.inr ⟨rfl, rfl⟩), hname, ?_⟩
      rwa [List.take_left]

/-- A registry finds the function of the latest registration of a name that took effect, or what it
had from the start if none did. -/
theorem get?_after_eq_some_iff : (start.after history).get? k = some f ↔
    (∃ i c, EffectiveAt start history k i c ∧ (∀ j d, EffectiveAt start history k j d → j ≤ i) ∧
      c.registered = f) ∨
      (∀ i c, ¬EffectiveAt start history k i c) ∧ start.get? k = some f := by
  induction history using List.reverseRecOn with
  | nil =>
    have hnone : ∀ i c, ¬EffectiveAt start [] k i c :=
      fun i c h => absurd h.lt_length (Nat.not_lt_zero i)
    constructor
    · exact fun h => .inr ⟨hnone, h⟩
    · rintro (⟨i, c, h, -⟩ | ⟨-, h⟩)
      · exact absurd h (hnone i c)
      · exact h
  | append_singleton history c ih =>
    rw [after_concat]
    by_cases h : c.name = k ∧ TakesEffect start history c
    · have hlast : EffectiveAt start (history ++ [c]) k history.length c :=
        effectiveAt_concat.mpr (.inr ⟨rfl, rfl, h⟩)
      rw [perform_of_takesEffect h.2, get?_register, if_pos h.1]
      constructor
      · intro hf
        refine .inl ⟨_, c, hlast, fun j d hd => ?_, Option.some.inj hf⟩
        have hlt := hd.lt_length
        rw [List.length_append, List.length_singleton] at hlt
        omega
      · rintro (⟨i, d, hd, hmax, rfl⟩ | ⟨hnone, -⟩)
        · rcases effectiveAt_concat.mp hd with hd | ⟨-, rfl, -⟩
          · exact absurd (hmax _ _ hlast) (Nat.not_le.mpr hd.lt_length)
          · rfl
        · exact absurd hlast (hnone _ _)
    · have hsame : ∀ i d, EffectiveAt start (history ++ [c]) k i d ↔
        EffectiveAt start history k i d := fun i d =>
        effectiveAt_concat.trans (or_iff_left fun ⟨_, _, h'⟩ => h h')
      have hget : ((start.after history).perform c).2.get? k = (start.after history).get? k := by
        by_cases heffect : TakesEffect start history c
        · rw [perform_of_takesEffect heffect, get?_register, if_neg fun hname => h ⟨hname, heffect⟩]
        · rw [perform_of_not_takesEffect heffect]
      simp only [hget, ih, hsame]

/-- The names of a registry are those that it had from the start, and those of registrations that
took effect. -/
theorem mem_names_after_iff : k ∈ (start.after history).names ↔
    k ∈ start.names ∨ ∃ i c, EffectiveAt start history k i c := by
  constructor
  · intro hk
    obtain ⟨f, hf⟩ := Option.isSome_iff_exists.mp (contains_iff_mem_names.mpr hk)
    rcases get?_after_eq_some_iff.mp hf with ⟨i, c, h, -⟩ | ⟨-, h⟩
    · exact .inr ⟨i, c, h⟩
    · exact .inl (contains_iff_mem_names.mp (Option.isSome_of_eq_some h))
  · rintro (hk | ⟨i, c, h⟩)
    · exact mem_names_after.mpr (.inl hk)
    · exact mem_names_after.mpr
        (.inr (List.mem_map.mpr ⟨c, List.mem_of_getElem? h.getElem?, h.name_eq⟩))

theorem pairwise_names_after (h : start.names.Pairwise (· < ·)) :
    (start.after history).names.Pairwise (· < ·) := by
  induction history using List.reverseRecOn with
  | nil => exact h
  | append_singleton history c ih =>
    rw [after_concat]
    by_cases heffect : TakesEffect start history c
    · rw [perform_of_takesEffect heffect]
      exact Assoc.pairwise_insert ih _ _
    · rw [perform_of_not_takesEffect heffect]
      exact ih

/-- The latest registration counts. Behind a history the registry is told by those registrations
that took effect: they give its names, in ascending order of their octets, and what it holds under
each. One that takes effect puts its function under its name, and one that does not is an error and
changes nothing. -/
structure LatestCounts (start : Registry σ) (history : List (Registration σ)) : Prop where
  get? : ∀ k f, (start.after history).get? k = some f ↔
    (∃ i c, EffectiveAt start history k i c ∧ (∀ j d, EffectiveAt start history k j d → j ≤ i) ∧
      c.registered = f) ∨
      (∀ i c, ¬EffectiveAt start history k i c) ∧ start.get? k = some f
  contains : ∀ k, (start.after history).contains k = true ↔
    k ∈ start.names ∨ ∃ i c, EffectiveAt start history k i c
  names : ∀ k, k ∈ (start.after history).names ↔
    k ∈ start.names ∨ ∃ i c, EffectiveAt start history k i c
  ascending : (start.after history).names.Pairwise fun a b =>
    Text.Utf8.encode a < Text.Utf8.encode b
  effect : ∀ c, TakesEffect start history c →
    (start.after history).perform c = (.ok (), (start.after history).register c.name c.registered)
  refusal : ∀ c, ¬TakesEffect start history c →
    (start.after history).perform c = (.error (.alreadyRegistered c.name), start.after history)

theorem latestCounts (h : start.names.Pairwise (· < ·)) (history : List (Registration σ)) :
    start.LatestCounts history where
  get? _ _ := get?_after_eq_some_iff
  contains _ := contains_iff_mem_names.trans mem_names_after_iff
  names _ := mem_names_after_iff
  ascending := (pairwise_names_after h).imp Text.Utf8.encode_lt_encode.mpr
  effect _ := perform_of_takesEffect
  refusal _ := perform_of_not_takesEffect

end Registry
end Manifest
