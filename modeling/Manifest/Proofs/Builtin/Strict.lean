import Manifest.Proofs.Builtin.Versions
import Manifest.Proofs.Function.History
import Manifest.Proofs.List.MapM
import Manifest.Proofs.Value.Order

/-! The functions that are there from the start trust the check of their arguments: they read them
with a default for what is missing. Here are their bodies without any default. A call comes to a
body only with arguments that these can read. -/
namespace Manifest

namespace Builtin

/-- A body without defaults. It has nothing to run where an argument is missing or left over, or is
not of the form in which it is read. -/
abbrev Strict := List Value → Option (Run Context Value)

namespace Strict

def ofNothing (x : Run Context Value) : Strict
  | [] => some x
  | _ => none

def ofOne (read : Value → Option (Run Context Value)) : Strict
  | [v] => read v
  | _ => none

def ofText (g : String → Run Context Value) : Strict :=
  ofOne fun
    | .string s => some (g s)
    | _ => none

def ofTexts (g : String → String → Run Context Value) : Strict
  | [.string s, .string t] => some (g s t)
  | _ => none

def ofItems (g : List Value → Run Context Value) : Strict :=
  ofOne fun
    | .sequence items => some (g items)
    | _ => none

def ofItemsOrText (g : List Value → Run Context Value) (h : String → Run Context Value) : Strict :=
  ofOne fun
    | .sequence items => some (g items)
    | .string s => some (h s)
    | _ => none

def ofEntries (g : List (String × Value) → Run Context Value) : Strict :=
  ofOne fun
    | .mapping entries => some (g entries)
    | _ => none

/-- A body does without its defaults just when its arguments are of the types of its parameters, and
does the same. -/
def Matches (f : Function Context) (g : Strict) : Prop :=
  ∀ args x, g args = some x ↔ List.Forall₂ ArgType.Admits f.signature.params args ∧ f.body args = x

end Strict

def pickStrictly (name : String) (pick : List Version → Option Version) : Strict :=
  .ofItemsOrText (fun items => Run.ofExcept ((items.mapM (versionOf name)).bind (picked name pick)))
    (fun s =>
      Run.ofExcept ((versionOf name (.string s)).bind fun version => picked name pick [version]))

def componentStrictly (name : String) (c : Component) : Strict :=
  .ofText fun s => Run.ofExcept ((versionOf name (.string s)).map c.value)

def componentsStrictly (name : String) (c : Component) : Strict :=
  .ofItems fun items =>
    Run.ofExcept
      ((items.mapM (versionOf name)).map fun versions => .sequence (versions.map c.value))

def written (name s format : String) : Except Error Value :=
  match Moment.ofText? s with
  | none => .error (.functionFailed name s!"'{s}' is not an ISO 8601 datetime")
  | some m =>
    match m.format? format with
    | none => .error (.functionFailed name s!"'{format}' is not a valid strftime format")
    | some text => .ok (.string text)

def environmentStrictly (f : Environment → String) : Strict :=
  .ofNothing (Run.ofStep fun c => (.ok (.string (f c.environment)), c))

/-- A text under a key of entries. Null and the empty text count as missing. -/
def entryText (entries : List (String × Value)) (key : String) : Except Error (Option String) :=
  match Assoc.find? key entries with
  | none => .ok none
  | some .null => .ok none
  | some (.string s) => .ok (if s = "" then none else some s)
  | some other => .error (.arityOrType "pypi_data" s!"'{key}' must be string, got {other.typeName}")

def packageStrictly : Strict :=
  .ofEntries fun entries => do
    match ← Run.ofExcept (entryText entries "name") with
    | none => throw (.functionFailed "pypi_data" "argument must have a 'name' key")
    | some name =>
      let version ← Run.ofExcept (entryText entries "version")
      Context.lookup (packageKey name version) (fetchPackage name version)

def strictBodies : List (String × Strict) :=
  [("semver_max", pickStrictly "semver_max" Version.greatest?),
    ("semver_min", pickStrictly "semver_min" Version.least?),
    ("semver_major", componentStrictly "semver_major" .major),
    ("semver_major_list", componentsStrictly "semver_major_list" .major),
    ("semver_minor", componentStrictly "semver_minor" .minor),
    ("semver_minor_list", componentsStrictly "semver_minor_list" .minor),
    ("semver_patch", componentStrictly "semver_patch" .patch),
    ("semver_patch_list", componentsStrictly "semver_patch_list" .patch),
    ("now_utc", environmentStrictly Environment.universalTime),
    ("now_local", environmentStrictly Environment.localTime),
    ("format_datetime", .ofTexts fun s format => Run.ofExcept (written "format_datetime" s format)),
    ("year", .ofText fun s => Run.ofExcept (written "year" s "%Y")),
    ("date", .ofText fun s => Run.ofExcept (written "date" s "%Y-%m-%d")),
    ("spdx_license", .ofText fun id => Context.lookup s!"spdx:{id}" (fetchLicense id)),
    ("pypi_data", packageStrictly)]

end Builtin

namespace ArgType

variable {v : Value}

theorem admits_string_iff : ArgType.string.Admits v ↔ ∃ s, v = .string s := by
  rw [← accepts_iff_admits]
  cases v <;> simp [accepts]

theorem admits_list_iff : ArgType.list.Admits v ↔ ∃ items, v = .sequence items := by
  rw [← accepts_iff_admits]
  cases v <;> simp [accepts]

theorem admits_mapping_iff : ArgType.mapping.Admits v ↔ ∃ entries, v = .mapping entries := by
  rw [← accepts_iff_admits]
  cases v <;> simp [accepts]

end ArgType

namespace Builtin

namespace Strict

variable {body : List Value → Run Context Value}

theorem matches_ofNothing {x : Run Context Value} (h : body [] = x) :
    Matches ⟨⟨[]⟩, body⟩ (ofNothing x) := by
  intro args y
  cases args <;> simp [ofNothing, h]

theorem matches_ofOne {type : ArgType} {read : Value → Option (Run Context Value)}
    (h : ∀ v x, read v = some x ↔ type.Admits v ∧ body [v] = x) :
    Matches ⟨⟨[type]⟩, body⟩ (ofOne read) := by
  intro args x
  rcases args with _ | ⟨v, _ | ⟨w, rest⟩⟩
  · simp [ofOne]
  · simp [ofOne, h]
  · simp [ofOne]

theorem matches_ofText {g : String → Run Context Value} (h : ∀ s, body [.string s] = g s) :
    Matches ⟨⟨[.string]⟩, body⟩ (ofText g) :=
  matches_ofOne fun v _ => by cases v <;> simp [ArgType.admits_string_iff, h]

theorem matches_ofTexts {g : String → String → Run Context Value}
    (h : ∀ s t, body [.string s, .string t] = g s t) :
    Matches ⟨⟨[.string, .string]⟩, body⟩ (ofTexts g) := by
  intro args x
  rcases args with _ | ⟨v, _ | ⟨w, _ | ⟨u, rest⟩⟩⟩
  · simp [ofTexts]
  · simp [ofTexts]
  · cases v <;> cases w <;> simp [ofTexts, ArgType.admits_string_iff, h]
  · simp [ofTexts]

theorem matches_ofItems {g : List Value → Run Context Value}
    (h : ∀ items, body [.sequence items] = g items) :
    Matches ⟨⟨[.list]⟩, body⟩ (ofItems g) :=
  matches_ofOne fun v _ => by cases v <;> simp [ArgType.admits_list_iff, h]

theorem matches_ofItemsOrText {g : List Value → Run Context Value} {g' : String → Run Context Value}
    (h : ∀ items, body [.sequence items] = g items) (h' : ∀ s, body [.string s] = g' s) :
    Matches ⟨⟨[.oneOf [.list, .string]]⟩, body⟩ (ofItemsOrText g g') :=
  matches_ofOne fun v _ => by
    cases v <;>
      simp [ArgType.admits_oneOf_iff, ArgType.admits_list_iff, ArgType.admits_string_iff, h, h']

theorem matches_ofEntries {g : List (String × Value) → Run Context Value}
    (h : ∀ entries, body [.mapping entries] = g entries) :
    Matches ⟨⟨[.mapping]⟩, body⟩ (ofEntries g) :=
  matches_ofOne fun v _ => by cases v <;> simp [ArgType.admits_mapping_iff, h]

end Strict

open Strict

theorem matches_pickVersion (name : String) (pick : List Version → Option Version) :
    Matches (unary (.oneOf [.list, .string]) (pickVersion name pick)) (pickStrictly name pick) := by
  refine matches_ofItemsOrText (fun items => congrArg Run.ofExcept ?_) fun s =>
    congrArg Run.ofExcept ?_
  · exact pickVersion_sequence name pick items
  · change pickVersion name pick (.string s) = _
    rw [pickVersion, if_pos (by simp [Value.isString])]
    cases versionOf name (.string s) <;> rfl

theorem matches_component (name : String) (c : Component) :
    Matches (unary .string (component name c)) (componentStrictly name c) :=
  matches_ofText fun _ => rfl

theorem matches_components (name : String) (c : Component) :
    Matches (unary .list (components name c)) (componentsStrictly name c) :=
  matches_ofItems fun _ => rfl

theorem matches_environmental (f : Environment → String) :
    Matches (environmental f) (environmentStrictly f) :=
  matches_ofNothing rfl

/-- The functions that are there from the start, and their bodies without defaults. -/
theorem forall₂_strictBodies :
    List.Forall₂ (fun e e' => e.1 = e'.1 ∧ Matches e.2 e'.2)
      (versionFunctions ++ timeFunctions ++ licenseFunctions ++ packageFunctions) strictBodies :=
  .cons ⟨rfl, matches_pickVersion _ _⟩ <| .cons ⟨rfl, matches_pickVersion _ _⟩ <|
  .cons ⟨rfl, matches_component _ _⟩ <| .cons ⟨rfl, matches_components _ _⟩ <|
  .cons ⟨rfl, matches_component _ _⟩ <| .cons ⟨rfl, matches_components _ _⟩ <|
  .cons ⟨rfl, matches_component _ _⟩ <| .cons ⟨rfl, matches_components _ _⟩ <|
  .cons ⟨rfl, matches_environmental _⟩ <| .cons ⟨rfl, matches_environmental _⟩ <|
  .cons ⟨rfl, matches_ofTexts fun _ _ => rfl⟩ <| .cons ⟨rfl, matches_ofText fun _ => rfl⟩ <|
  .cons ⟨rfl, matches_ofText fun _ => rfl⟩ <| .cons ⟨rfl, matches_ofText fun _ => rfl⟩ <|
  .cons ⟨rfl, matches_ofEntries fun _ => rfl⟩ .nil

end Builtin

namespace Registry

open Builtin

theorem entries_foldl_register {σ : Type} (fs : List (String × Function σ)) (r : Registry σ) :
    (fs.foldl (fun r (name, f) => r.register name f) r).entries =
      fs.foldl (fun es e => Assoc.insert e.1 e.2 es) r.entries := by
  induction fs generalizing r with
  | nil => rfl
  | cons e fs ih => rw [List.foldl_cons, ih]; rfl

theorem entries_builtin : builtin.entries =
    Assoc.sorted (versionFunctions ++ timeFunctions ++ licenseFunctions ++ packageFunctions) :=
  entries_foldl_register _ _

theorem pairwise_names_builtin : builtin.names.Pairwise (· < ·) := by
  rw [names, entries_builtin]
  exact Assoc.pairwise_sorted _

theorem exists_strictBody {name : String} {f : Function Context} (h : builtin.get? name = some f) :
    ∃ g, (name, g) ∈ strictBodies ∧ Strict.Matches f g := by
  have hf : (name, f) ∈ builtin.entries := Assoc.mem_of_find? h
  rw [entries_builtin] at hf
  obtain ⟨⟨_, g⟩, hg, rfl, hmatches⟩ :=
    exists_right_of_mem forall₂_strictBodies (Assoc.mem_of_mem_sorted hf)
  exact ⟨g, hg, hmatches⟩

theorem call_of_matches {r : Registry Context} {name : String} {f : Function Context} {g : Strict}
    (hf : r.get? name = some f) (h : Strict.Matches f g) (args : List Value) :
    (∀ x, g args = some x → r.call name args = x) ∧
      (g args = none → ∃ cause, f.signature.Mismatch args cause ∧
        r.call name args = throw (.arityOrType name cause)) := by
  constructor
  · intro x hx
    obtain ⟨hargs, rfl⟩ := (h args x).mp hx
    exact call_of_get? hf (Signature.check_eq_ok_iff.mpr hargs)
  · intro hnone
    cases hcheck : f.signature.check name args with
    | ok =>
      have hsome := (h args (f.body args)).mpr ⟨Signature.check_eq_ok_iff.mp hcheck, rfl⟩
      cases hnone.symm.trans hsome
    | error e =>
      obtain ⟨cause, hmismatch⟩ := Signature.exists_mismatch_of_check hcheck
      refine ⟨cause, hmismatch, ?_⟩
      rw [call, hf]
      simp only [hmismatch.check_eq]

/-- Behind any registrations, the latest that took effect counts, and calls check before they run. A
function that has been there from the start, where it has not been replaced, is run only with
arguments that it can read without any of its defaults. -/
theorem latestCounts_and_checks_after {start : Registry Context}
    (hstart : start = empty ∨ start = builtin)
    (history : List (Registration Context)) :
    start.LatestCounts history ∧ (start.after history).Checks ∧
      ∀ name f, builtin.get? name = some f → (start.after history).get? name = some f →
        ∃ g, (name, g) ∈ strictBodies ∧ ∀ args,
          (∀ x, g args = some x → (start.after history).call name args = x) ∧
            (g args = none → ∃ cause, f.signature.Mismatch args cause ∧
              (start.after history).call name args = throw (.arityOrType name cause)) := by
  have hnames : start.names.Pairwise (· < ·) := by
    rcases hstart with rfl | rfl
    · exact .nil
    · exact pairwise_names_builtin
  refine ⟨latestCounts hnames history, checks _, fun name f hf hafter => ?_⟩
  obtain ⟨g, hg, hmatches⟩ := exists_strictBody hf
  exact ⟨g, hg, call_of_matches hafter hmatches⟩

/-- Where another function of the name is refused, the one that was there is still called, and only
with an argument. -/
theorem latestCounts_and_checks_after_refusal :
    let r := builtin.after [.checked "year" ⟨⟨[]⟩, fun _ => pure .null⟩ false]
    r.get? "year" = builtin.get? "year" ∧
      (∀ s runs, Run.exec (r.recorded.call "year" []) (s, runs) =
        (.error (.arityOrType "year" "expected 1 argument(s), got 0"), s, runs)) ∧
      r.call "year" [.string "2020-02-01"] = Run.ofExcept (written "year" "2020-02-01" "%Y") := by
  obtain ⟨hlatest, hchecks, hbuiltin⟩ := latestCounts_and_checks_after (.inr rfl)
    [.checked "year" ⟨⟨[]⟩, fun _ => pure .null⟩ false]
  have hf : builtin.get? "year" =
      some ⟨⟨[.string]⟩, fun args =>
        Run.ofExcept (formatMoment "year" (args.head?.getD .null) "%Y")⟩ :=
    get?_builtin (by simp [timeFunctions])
  have hafter := (hlatest.get? "year" _).mpr (.inr ⟨fun i c hc => ?_, hf⟩)
  · obtain ⟨g, hg, hcall⟩ := hbuiltin "year" _ hf hafter
    have hg : g = .ofText fun s => Run.ofExcept (written "year" s "%Y") := by
      simpa [strictBodies] using hg
    refine ⟨hafter.trans hf.symm, fun s runs => ?_, (hcall _).1 _ (by rw [hg]; rfl)⟩
    exact (hchecks.told "year" [] s runs _ _ hafter).mpr (.count (by simp))
  · obtain rfl : i = 0 := Nat.lt_one_iff.mp hc.lt_length
    cases hc.getElem?
    rcases hc.takesEffect with h | ⟨h, -⟩
    · cases h
    · exact h (contains_iff_mem_names.mp (Option.isSome_of_eq_some hf))

end Registry
end Manifest
