import Manifest.Proofs.Function.Registry

/-! What stands between a call and the body of the function that it names: the name, the number of
the arguments, and the type of each. A body that is run is run once, and one that is refused its
arguments is not run at all. -/
namespace Manifest

namespace ArgType

/-- A type without alternatives that is one of those of a type, however deep they are nested. -/
inductive Leaf : ArgType → ArgType → Prop
  | self {l : ArgType} (h : ∀ types, l ≠ .oneOf types) : Leaf l l
  | oneOf {l t : ArgType} {types : List ArgType} (ht : t ∈ types) (h : Leaf l t) :
    Leaf l (.oneOf types)

/-- A value is of a type without alternatives. -/
inductive Fits : ArgType → Value → Prop
  | any (v : Value) : Fits .any v
  | string (s : String) : Fits .string (.string s)
  | int (n : Int64) : Fits .number (.int n)
  | float (x : Float) : Fits .number (.float x)
  | list (items : List Value) : Fits .list (.sequence items)
  | mapping (entries : List (String × Value)) : Fits .mapping (.mapping entries)

/-- A value is of one of the types that a type leaves open. -/
def Admits (t : ArgType) (v : Value) : Prop := ∃ l, Leaf l t ∧ Fits l v

variable {t : ArgType} {types : List ArgType} {v : Value}

theorem accepts_iff_admits_of_ne (h : ∀ types, t ≠ .oneOf types) :
    t.accepts v = true ↔ t.Admits v := by
  constructor
  · intro hv
    refine ⟨t, .self h, ?_⟩
    cases t with
    | any => exact .any v
    | oneOf types => exact absurd rfl (h types)
    | string | number | list | mapping => cases v <;> first | constructor | simp [accepts] at hv
  · rintro ⟨l, hl, hv⟩
    cases hl with
    | self => cases hv <;> rw [accepts]
    | oneOf => exact absurd rfl (h _)

theorem admits_oneOf_iff : (oneOf types).Admits v ↔ ∃ t ∈ types, t.Admits v := by
  refine ⟨fun ⟨l, hl, hv⟩ => ?_, fun ⟨t, ht, l, hl, hv⟩ => ⟨l, .oneOf ht hl, hv⟩⟩
  cases hl with
  | self h => exact absurd rfl (h types)
  | oneOf ht hl => exact ⟨_, ht, l, hl, hv⟩

mutual

theorem accepts_iff_admits : (t : ArgType) → (v : Value) → (t.accepts v = true ↔ t.Admits v)
  | .any, _ | .string, _ | .number, _ | .list, _ | .mapping, _ => accepts_iff_admits_of_ne nofun
  | .oneOf types, v => by
    rw [accepts, admits_oneOf_iff]
    exact acceptsOne_iff_admits types v

theorem acceptsOne_iff_admits : (types : List ArgType) → (v : Value) →
    (acceptsOne types v = true ↔ ∃ t ∈ types, t.Admits v)
  | [], v => by simp [acceptsOne]
  | t :: ts, v => by
    rw [acceptsOne, Bool.or_eq_true, accepts_iff_admits t v, acceptsOne_iff_admits ts v]
    simp

end

end ArgType

namespace Signature

variable {s : Signature} {name : String} {args vs : List Value} {ts : List ArgType} {e : Error}

/-- The mismatch that is told is the first: all arguments before it are accepted. -/
theorem mismatch?_eq_some_iff {position q : Nat} {t : ArgType} {v : Value} :
    mismatch? position ts vs = some (q, t, v) ↔
      ∃ i, q = position + i ∧ ts[i]? = some t ∧ vs[i]? = some v ∧ ¬t.Admits v ∧
        ∀ j < i, ∀ t' v', ts[j]? = some t' → vs[j]? = some v' → t'.Admits v' := by
  induction ts generalizing position vs with
  | nil => simp [mismatch?]
  | cons t₀ ts ih =>
    cases vs with
    | nil => simp [mismatch?]
    | cons v₀ vs =>
      -- The first mismatch is at the first parameter, or else further on.
      rw [mismatch?, ← Nat.or_exists_add_one]
      by_cases h : t₀.Admits v₀
      · have hfirst : ∀ t' v', (t₀ :: ts)[0]? = some t' → (v₀ :: vs)[0]? = some v' →
          t'.Admits v' := by
          intro t' v' ht' hv'
          cases ht'
          cases hv'
          exact h
        rw [if_pos ((ArgType.accepts_iff_admits t₀ v₀).mpr h), ih, or_iff_right ?_]
        · refine exists_congr fun i => ?_
          rw [Nat.forall_lt_succ_left, and_iff_right hfirst, Nat.add_right_comm]
          rfl
        · rintro ⟨-, ht, hv, hnot, -⟩
          cases ht
          cases hv
          exact hnot h
      · rw [if_neg (mt (ArgType.accepts_iff_admits t₀ v₀).mp h), or_iff_left ?_]
        · constructor
          · intro he
            cases he
            exact ⟨rfl, rfl, rfl, h, fun j hj => absurd hj (Nat.not_lt_zero j)⟩
          · rintro ⟨rfl, ht, hv, -, -⟩
            cases ht
            cases hv
            rfl
        · rintro ⟨i, -, -, -, -, hbefore⟩
          exact h (hbefore 0 (Nat.succ_pos i) t₀ v₀ rfl rfl)

theorem mismatch?_eq_none_iff (position : Nat) (h : vs.length = ts.length) :
    mismatch? position ts vs = none ↔ List.Forall₂ ArgType.Admits ts vs := by
  induction ts generalizing position vs with
  | nil =>
    obtain rfl := List.length_eq_zero_iff.mp h
    simp [mismatch?]
  | cons t ts ih =>
    cases vs with
    | nil => cases h
    | cons v vs =>
      rw [mismatch?, List.forall₂_cons, ← ArgType.accepts_iff_admits]
      split
      · rename_i hv
        rw [ih _ (Nat.succ.inj h)]
        simp [hv]
      · rename_i hv
        simp [hv]

theorem check_eq_ok_iff :
    s.check name args = .ok () ↔ List.Forall₂ ArgType.Admits s.params args := by
  unfold check
  split
  · rename_i hlength
    exact ⟨nofun, fun h => absurd h.length_eq.symm hlength⟩
  · rename_i hlength
    rw [← mismatch?_eq_none_iff 1 (not_not.mp hlength)]
    split <;> simp_all

/-- Why arguments do not pass: there are too few or too many, or else one, the first of them, is of
another type. -/
inductive Mismatch (s : Signature) (args : List Value) : String → Prop
  | count (h : args.length ≠ s.params.length) :
    Mismatch s args s!"expected {s.params.length} argument(s), got {args.length}"
  | type {i : Nat} {t : ArgType} {v : Value} (hlength : args.length = s.params.length)
    (ht : s.params[i]? = some t)
      (hv : args[i]? = some v) (hnot : ¬t.Admits v)
      (hbefore : ∀ j < i, ∀ t' v', s.params[j]? = some t' → args[j]? = some v' → t'.Admits v') :
    Mismatch s args s!"argument {i + 1} must be {t.name}, got {v.typeName}"

theorem Mismatch.check_eq {cause : String} (h : s.Mismatch args cause) (name : String) :
    s.check name args = .error (.arityOrType name cause) := by
  cases h with
  | count hcount => rw [check, if_pos hcount]
  | @type i t v hlength ht hv hnot hbefore =>
    have hfirst : mismatch? 1 s.params args = some (1 + i, t, v) :=
      mismatch?_eq_some_iff.mpr ⟨i, rfl, ht, hv, hnot, hbefore⟩
    rw [check, if_neg (not_not.mpr hlength), hfirst, Nat.add_comm]

theorem exists_mismatch_of_check (h : s.check name args = .error e) :
    ∃ cause, s.Mismatch args cause := by
  unfold check at h
  split at h
  · rename_i hcount
    exact ⟨_, .count hcount⟩
  · rename_i hlength
    split at h
    · rename_i hfirst
      obtain ⟨i, -, ht, hv, hnot, hbefore⟩ := mismatch?_eq_some_iff.mp hfirst
      exact ⟨_, .type (not_not.mp hlength) ht hv hnot hbefore⟩
    · cases h

/-- Arguments pass, or there is a reason why they do not: their number, or that one is of another
type. -/
theorem exists_mismatch_iff : (∃ cause, s.Mismatch args cause) ↔
    args.length ≠ s.params.length ∨ ∃ (i : Nat) (t : ArgType) (v : Value), s.params[i]? = some t ∧
      args[i]? = some v ∧
      ¬t.Admits v := by
  constructor
  · rintro ⟨_, hcount | ⟨-, ht, hv, hnot, -⟩⟩
    · exact .inl hcount
    · exact .inr ⟨_, _, _, ht, hv, hnot⟩
  · intro h
    cases hcheck : s.check "" args with
    | error e => exact exists_mismatch_of_check hcheck
    | ok =>
      have hargs := check_eq_ok_iff.mp hcheck
      rcases h with hcount | ⟨i, t, v, ht, hv, hnot⟩
      · exact absurd hargs.length_eq.symm hcount
      · obtain ⟨hi, rfl⟩ := List.getElem?_eq_some_iff.mp ht
        obtain ⟨hi', rfl⟩ := List.getElem?_eq_some_iff.mp hv
        exact absurd (hargs.get hi hi') hnot

end Signature

variable {σ : Type}

/-- A state, and the bodies that have been run, each with its name and arguments. Since a body may
fail with any error, only such a record tells whether it has been run. -/
abbrev WithRuns (σ : Type) := σ × List (String × List Value)

def Function.recorded (name : String) (f : Function σ) : Function (WithRuns σ) where
  signature := f.signature
  body args := Run.ofStep fun (s, runs) =>
    ((Run.exec (f.body args) s).1, (Run.exec (f.body args) s).2, runs ++ [(name, args)])

namespace Registry

variable {r : Registry σ} {name : String} {args : List Value} {f : Function σ}

def recorded (r : Registry σ) : Registry (WithRuns σ) :=
  ⟨r.entries.map fun e => (e.1, e.2.recorded e.1)⟩

theorem get?_recorded (r : Registry σ) (name : String) :
    r.recorded.get? name = (r.get? name).map (Function.recorded name) :=
  Assoc.find?_map Function.recorded name r.entries

theorem exec_call_recorded (r : Registry σ) (name : String) (args : List Value) (s : σ)
    (runs : List (String × List Value)) :
    (Run.exec (r.recorded.call name args) (s, runs)).1 = (Run.exec (r.call name args) s).1 ∧
      (Run.exec (r.recorded.call name args) (s, runs)).2.1 = (Run.exec (r.call name args) s).2 := by
  rw [call, call, get?_recorded]
  cases r.get? name with
  | none => exact ⟨rfl, rfl⟩
  | some f =>
    simp only [Option.map_some, Function.recorded]
    split <;> exact ⟨rfl, rfl⟩

theorem notMem_names_iff : name ∉ r.names ↔ r.get? name = none :=
  (Assoc.find?_eq_none_iff name r.entries).symm

theorem exec_recorded_of_notMem (h : name ∉ r.names) (args : List Value) (s : σ)
    (runs : List (String × List Value)) :
    Run.exec (r.recorded.call name args) (s, runs) = (.error (.unknownFunction name), s, runs) := by
  rw [call, get?_recorded, notMem_names_iff.mp h]
  rfl

theorem exec_recorded_of_mismatch {cause : String} (hf : r.get? name = some f)
    (h : f.signature.Mismatch args cause) (s : σ) (runs : List (String × List Value)) :
    Run.exec (r.recorded.call name args) (s, runs) =
      (.error (.arityOrType name cause), s, runs) := by
  rw [call, get?_recorded, hf]
  simp only [Option.map_some, Function.recorded, h.check_eq]
  rfl

theorem exec_recorded_of_forall₂ (hf : r.get? name = some f)
    (hargs : List.Forall₂ ArgType.Admits f.signature.params args) (s : σ)
    (runs : List (String × List Value)) :
    Run.exec (r.recorded.call name args) (s, runs) =
      ((Run.exec (f.body args) s).1, (Run.exec (f.body args) s).2, runs ++ [(name, args)]) := by
  have hcheck : f.signature.check name args = .ok () := Signature.check_eq_ok_iff.mpr hargs
  rw [call, get?_recorded, hf]
  simp only [Option.map_some, Function.recorded, hcheck]
  rfl

/-- A call is one of a name that is not there, or is one with arguments that do not pass, or else
passes. -/
theorem notMem_or_mismatch_or_forall₂ (r : Registry σ) (name : String) (args : List Value) :
    name ∉ r.names ∨ ∃ f, r.get? name = some f ∧
      ((∃ cause, f.signature.Mismatch args cause) ∨
        List.Forall₂ ArgType.Admits f.signature.params args) := by
  cases hf : r.get? name with
  | none => exact .inl (notMem_names_iff.mpr hf)
  | some f =>
    refine .inr ⟨f, rfl, ?_⟩
    cases hcheck : f.signature.check name args with
    | error e => exact .inl (Signature.exists_mismatch_of_check hcheck)
    | ok => exact .inr (Signature.check_eq_ok_iff.mp hcheck)

theorem exec_recorded_eq_error {e : Error} {s : σ} {runs : List (String × List Value)}
    (h : Run.exec (r.recorded.call name args) (s, runs) = (.error e, s, runs)) :
    name ∉ r.names ∧ e = .unknownFunction name ∨
      ∃ f cause, r.get? name = some f ∧ f.signature.Mismatch args cause ∧
        e = .arityOrType name cause := by
  rcases r.notMem_or_mismatch_or_forall₂ name args with hname | ⟨f, hf, ⟨cause, hmismatch⟩ | hargs⟩
  · cases h.symm.trans (exec_recorded_of_notMem hname args s runs)
    exact .inl ⟨hname, rfl⟩
  · cases h.symm.trans (exec_recorded_of_mismatch hf hmismatch s runs)
    exact .inr ⟨f, cause, hf, hmismatch, rfl⟩
  · rw [exec_recorded_of_forall₂ hf hargs] at h
    have hlength := congrArg (fun p => p.2.2.length) h
    simp at hlength

/-- Calls check before they run. A call is one of a name that is not there, or is one with arguments
that do not pass, or else is one run of the body; the first two leave the state and the record as
they were, and tell why they failed. -/
structure Checks (r : Registry σ) : Prop where
  /-- The record changes neither what is answered nor the state that is left. -/
  recorded : ∀ name args s runs,
    (Run.exec (r.recorded.call name args) (s, runs)).1 = (Run.exec (r.call name args) s).1 ∧
      (Run.exec (r.recorded.call name args) (s, runs)).2.1 = (Run.exec (r.call name args) s).2
  unknown : ∀ name args s runs, name ∉ r.names ↔
    Run.exec (r.recorded.call name args) (s, runs) = (.error (.unknownFunction name), s, runs)
  refused : ∀ name args s runs f, r.get? name = some f →
    ((∃ cause, Run.exec (r.recorded.call name args) (s, runs) =
      (.error (.arityOrType name cause), s, runs)) ↔
      args.length ≠ f.signature.params.length ∨ ∃ (i : Nat) (t : ArgType) (v : Value),
        f.signature.params[i]? = some t ∧ args[i]? = some v ∧ ¬t.Admits v)
  told : ∀ name args s runs f cause, r.get? name = some f →
    (Run.exec (r.recorded.call name args) (s, runs) = (.error (.arityOrType name cause), s, runs) ↔
      f.signature.Mismatch args cause)
  runs : ∀ name args s runs f, r.get? name = some f → args.length = f.signature.params.length →
    (∀ (i : Nat) (t : ArgType) (v : Value), f.signature.params[i]? = some t → args[i]? = some v →
      t.Admits v) →
    Run.exec (r.recorded.call name args) (s, runs) =
      ((Run.exec (f.body args) s).1, (Run.exec (f.body args) s).2, runs ++ [(name, args)])

theorem checks (r : Registry σ) : r.Checks := by
  have htold : ∀ name args s runs f cause, r.get? name = some f →
      (Run.exec (r.recorded.call name args) (s, runs) =
        (.error (.arityOrType name cause), s, runs) ↔
        f.signature.Mismatch args cause) := by
    intro name args s runs f cause hf
    refine ⟨fun h => ?_, fun h => exec_recorded_of_mismatch hf h s runs⟩
    rcases exec_recorded_eq_error h with ⟨-, he⟩ | ⟨g, cause', hg, hmismatch, he⟩
    · cases he
    · cases hf.symm.trans hg
      cases he
      exact hmismatch
  refine ⟨r.exec_call_recorded,
    fun name args s runs => ⟨fun h => exec_recorded_of_notMem h args s runs, fun h => ?_⟩,
    fun name args s runs f hf => ?_, htold, fun name args s runs f hf hlength hall => ?_⟩
  · rcases exec_recorded_eq_error h with ⟨hname, -⟩ | ⟨_, _, _, _, he⟩
    · exact hname
    · cases he
  · rw [← Signature.exists_mismatch_iff]
    exact exists_congr fun cause => htold name args s runs f cause hf
  · refine exec_recorded_of_forall₂ hf
      (List.forall₂_iff_get.mpr ⟨hlength.symm, fun i hi hi' => ?_⟩) s runs
    exact hall i _ _ (List.getElem?_eq_getElem hi) (List.getElem?_eq_getElem hi')

end Registry
end Manifest
