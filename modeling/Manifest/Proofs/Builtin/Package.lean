import Manifest.Builtin
import Manifest.Proofs.Function.Fetch
import Mathlib

/-! What lookups of packages answer when lookups of licenses and packages have been made before. The
key under which a package is remembered does not tell a version from a name that holds an equals
sign. -/
namespace Manifest

open Builtin (textField packageKey fetchPackage fetchLicense)

/-- A function of one parameter is called with one argument, which the parameter accepts. -/
theorem Signature.exists_of_check {type : ArgType} {name : String} {args : List Value}
    (h : (⟨[type]⟩ : Signature).check name args = .ok ()) : ∃ v, args = [v] ∧ type.accepts v := by
  unfold check at h
  split at h
  · cases h
  rename_i hlen
  obtain ⟨v, rfl⟩ := List.length_eq_one_iff.mp (not_not.mp hlen)
  refine ⟨v, rfl, ?_⟩
  by_contra hv
  simp [mismatch?, hv] at h

namespace Builtin

def versionPart : Option String → List Char
  | none => []
  | some version => '=' :: '=' :: version.toList

theorem toList_packageKey (name : String) (version : Option String) :
    (packageKey name version).toList = "pypi:".toList ++ (name.toList ++ versionPart version) := by
  cases version with
  | none => simp [packageKey, versionPart, toString]
  | some version => simp [packageKey, versionPart, toString]

theorem packageKey_ne_license (name : String) (version : Option String) (id : String) :
    packageKey name version ≠ s!"spdx:{id}" := by
  intro h
  have htext := congrArg String.toList h
  rw [toList_packageKey] at htext
  simp [toString] at htext

theorem versionPart_eq_append {version version' : Option String} {cs : List Char}
    (h : versionPart version = cs ++ versionPart version') :
    (cs = [] ∧ version = version') ∨ ['='] <+: cs := by
  cases cs with
  | nil =>
    refine .inl ⟨rfl, ?_⟩
    cases version <;> cases version' <;> simp_all [versionPart, String.toList_inj]
  | cons c cs =>
    cases version with
    | none => cases h
    | some version =>
      obtain ⟨rfl, -⟩ := List.cons.inj h
      exact .inr ⟨cs, rfl⟩

/-- Two packages have one key only if one name begins with the other and an equals sign. -/
theorem eq_or_prefix_of_packageKey {name name' : String} {version version' : Option String}
    (h : packageKey name version = packageKey name' version') :
    (name = name' ∧ version = version') ∨ name.toList ++ ['='] <+: name'.toList ∨
      name'.toList ++ ['='] <+: name.toList := by
  have htext := congrArg String.toList h
  rw [toList_packageKey, toList_packageKey, List.append_cancel_left_eq] at htext
  rcases List.append_eq_append_iff.mp htext with ⟨cs, hname, hcs⟩ | ⟨cs, hname, hcs⟩
  · rcases versionPart_eq_append hcs with ⟨rfl, hversion⟩ | hcs
    · exact .inl ⟨String.toList_inj.mp (by simpa using hname.symm), hversion⟩
    · rw [hname]
      exact .inr (.inl ((List.prefix_append_right_inj _).mpr hcs))
  · rcases versionPart_eq_append hcs with ⟨rfl, hversion⟩ | hcs
    · exact .inl ⟨String.toList_inj.mp (by simpa using hname), hversion.symm⟩
    · rw [hname]
      exact .inr (.inr ((List.prefix_append_right_inj _).mpr hcs))

/-- The arguments of a lookup ask for a package under a name, and perhaps at a version. -/
def Asks (args : List Value) (name : String) (version : Option String) : Prop :=
  ∃ entries, args = [.mapping entries] ∧ textField (.mapping entries) "name" = .ok (some name) ∧
    textField (.mapping entries) "version" = .ok version

theorem Asks.name_eq {text name : String} {version : Option String}
    {entries : List (String × Value)}
    (h : Asks [.mapping (("name", .string text) :: entries)] name version) : name = text := by
  obtain ⟨_, he, hname, -⟩ := h
  cases he
  by_cases ht : text = ""
  · simp [textField, Value.mapping?, ht] at hname
  · simpa [textField, Value.mapping?, ht] using hname.symm

theorem get?_license : Registry.builtin.get? "spdx_license" =
    some ⟨⟨[.string]⟩, fun args => license (args.head?.getD .null)⟩ := by
  cbv

theorem get?_package : Registry.builtin.get? "pypi_data" =
    some ⟨⟨[.mapping]⟩, fun args => package (args.head?.getD .null)⟩ := by
  cbv

variable {s : Source}

theorem fetches_fetchLicense (id : String) : Context.Fetches s (fetchLicense id) := by
  unfold fetchLicense
  split
  · exact Context.fetches_throw _
  refine Context.fetches_get_bind (fun c d hc hd => ?_) fun c => ?_
  · rw [hc.licenseBase, hd.licenseBase, hc.address hd]
  refine (Context.fetches_ofExcept _).bind fun url =>
    (Context.fetches_fetch url).bind fun body => ?_
  split
  · exact Context.fetches_pure _
  · exact Context.fetches_throw _

theorem fetches_fetchPackage (name : String) (version : Option String) :
    Context.Fetches s (fetchPackage name version) := by
  unfold fetchPackage
  refine Context.fetches_get_bind (fun c d hc hd => ?_) fun c => ?_
  · rw [hc.packageBase, hd.packageBase, hc.address hd]
  refine (Context.fetches_ofExcept _).bind fun url =>
    (Context.fetches_fetch url).bind fun body => ?_
  split
  · exact Context.fetches_pure _
  · exact Context.fetches_throw _

end Builtin

open Builtin (Asks)

inductive Lookup
  | license (args : List Value)
  | package (args : List Value)

namespace Lookup

variable {l l' : Lookup} {key : String} {x : Run Context Value} {c d : Context} {s : Source}
  {calls : List Lookup}

def run : Lookup → Run Context Value
  | .license args => Registry.builtin.call "spdx_license" args
  | .package args => Registry.builtin.call "pypi_data" args

def after (calls : List Lookup) (c : Context) : Context :=
  calls.foldl (fun c l => (Run.exec l.run c).2) c

@[simp] theorem after_nil (c : Context) : after [] c = c := rfl

theorem after_concat (calls : List Lookup) (l : Lookup) (c : Context) :
    after (calls ++ [l]) c = (Run.exec l.run (after calls c)).2 := by
  simp [after]

/-- The key under which a lookup remembers what it fetches, and how it does. -/
inductive Uses : Lookup → String → Run Context Value → Prop
  | license (id : String) : Uses (.license [.string id]) s!"spdx:{id}" (fetchLicense id)
  | package {args : List Value} {name : String} {version : Option String}
    (h : Asks args name version) :
      Uses (.package args) (packageKey name version) (fetchPackage name version)

theorem Uses.run_eq (h : Uses l key x) : l.run = Context.lookup key x := by
  cases h with
  | license id =>
    rw [run, Registry.call, Builtin.get?_license]
    rfl
  | package h =>
    obtain ⟨entries, rfl, hname, hversion⟩ := h
    rw [run, Registry.call, Builtin.get?_package]
    change Builtin.package (.mapping entries) = _
    rw [Builtin.package, hname, hversion]
    rfl

theorem Uses.fetches (h : Uses l key x) : Context.Fetches s x := by
  cases h with
  | license id => exact Builtin.fetches_fetchLicense id
  | package h => exact Builtin.fetches_fetchPackage ..

theorem throws_or_uses (l : Lookup) : (∃ e, l.run = throw e) ∨ ∃ key x, Uses l key x := by
  cases l with
  | license args =>
    rw [run, Registry.call, Builtin.get?_license]
    cases hcheck : Signature.check ⟨[.string]⟩ "spdx_license" args with
    | error e => exact .inl ⟨e, by simp only [hcheck]⟩
    | ok =>
      obtain ⟨v, rfl, hv⟩ := Signature.exists_of_check hcheck
      cases v with
      | string id => exact .inr ⟨_, _, .license id⟩
      | _ => simp [ArgType.accepts] at hv
  | package args =>
    rw [run, Registry.call, Builtin.get?_package]
    cases hcheck : Signature.check ⟨[.mapping]⟩ "pypi_data" args with
    | error e => exact .inl ⟨e, by simp only [hcheck]⟩
    | ok =>
      obtain ⟨v, rfl, hv⟩ := Signature.exists_of_check hcheck
      cases v with
      | mapping entries =>
        simp only [hcheck]
        change (∃ e, Builtin.package (.mapping entries) = throw e) ∨ _
        rw [Builtin.package]
        cases hname : textField (.mapping entries) "name" with
        | error e => exact .inl ⟨e, rfl⟩
        | ok name =>
          cases name with
          | none => exact .inl ⟨_, rfl⟩
          | some name =>
            cases hversion : textField (.mapping entries) "version" with
            | error e => exact .inl ⟨e, rfl⟩
            | ok version => exact .inr ⟨_, _, .package ⟨entries, rfl, hname, hversion⟩⟩
      | _ => simp [ArgType.accepts] at hv

theorem Uses.exists_of_package {args : List Value} (h : Uses (.package args) key x) :
    ∃ name version, Asks args name version ∧ key = packageKey name version ∧
      x = fetchPackage name version := by
  cases h with
  | package h => exact ⟨_, _, h, rfl, rfl⟩

theorem Uses.fst_exec_of_new (h : Uses l key x) (hnew : Assoc.find? key c.remembered = none) :
    (Run.exec l.run c).1 = (Run.exec x c).1 := by
  rw [h.run_eq, Context.exec_lookup_new hnew]
  cases Run.exec x c with
  | mk r d => cases r <;> rfl

/-- After lookups the context still has its source, and all that is remembered was fetched by one of
them under its key, with the result that the lookup would have had in the beginning. -/
structure Remembers (s : Source) (c : Context) (calls : List Lookup) (d : Context) : Prop where
  source : d.From s
  entry : ∀ key v, Assoc.find? key d.remembered = some v →
    ∃ l ∈ calls, ∃ x, Uses l key x ∧ (Run.exec l.run c).1 = .ok v

theorem Remembers.concat (h : Remembers s c calls d) (l : Lookup) (hd : d.From s) :
    Remembers s c (calls ++ [l]) d where
  source := hd
  entry key v hv := by
    obtain ⟨l', hmem, hl'⟩ := h.entry key v hv
    exact ⟨l', List.mem_append_left _ hmem, hl'⟩

theorem Remembers.exec (h : Remembers s c calls d) (hc : c.From s) (hfresh : c.remembered = [])
    (l : Lookup) : Remembers s c (calls ++ [l]) (Run.exec l.run d).2 := by
  rcases l.throws_or_uses with ⟨e, he⟩ | ⟨key, x, hl⟩
  · rw [he]
    exact h.concat l h.source
  cases hm : Assoc.find? key d.remembered with
  | some v =>
    rw [hl.run_eq, Context.exec_lookup_remembered hm]
    exact h.concat l h.source
  | none =>
    have hx : Context.Fetches s x := hl.fetches
    rcases hexec : Run.exec x d with ⟨r, d'⟩
    have hanswer : (Run.exec l.run c).1 = r := by
      rw [hl.fst_exec_of_new (by simp [hfresh]), hx.answer c d hc h.source, hexec]
    have hsource : d'.From s := by simpa only [hexec] using hx.source d h.source
    have hkept : d'.remembered = d.remembered := by simpa only [hexec] using hx.remembered d
    have hrest : Remembers s c (calls ++ [l]) d' :=
      ⟨hsource, hkept ▸ (h.concat l h.source).entry⟩
    rw [hl.run_eq, Context.exec_lookup_new hm, hexec]
    cases r with
    | error e => exact hrest
    | ok v =>
      refine ⟨{ hsource with }, fun k w hw => ?_⟩
      by_cases hk : key = k
      · subst hk
        rw [Assoc.find?_put_self, Option.some.injEq] at hw
        exact ⟨l, by simp, x, hl, hw ▸ hanswer⟩
      · rw [Assoc.find?_put_ne hk] at hw
        exact hrest.entry k w hw

theorem remembers_after (hc : c.From s) (hfresh : c.remembered = []) (calls : List Lookup) :
    Remembers s c calls (after calls c) := by
  induction calls using List.reverseRecOn with
  | nil => exact ⟨hc, by simp [hfresh]⟩
  | append_singleton calls l ih =>
    rw [after_concat]
    exact ih.exec hc hfresh l

/-- A lookup after others answers what it would have in the beginning, or what one of them would
have that uses the same key. -/
theorem fst_exec_after (hc : c.From s) (hfresh : c.remembered = []) (calls : List Lookup)
    (l : Lookup) :
    (Run.exec l.run (after calls c)).1 = (Run.exec l.run c).1 ∨
      ∃ l' ∈ calls, ∃ key x x', Uses l key x ∧ Uses l' key x' ∧
        (Run.exec l.run (after calls c)).1 = (Run.exec l'.run c).1 := by
  have h := remembers_after hc hfresh calls
  rcases l.throws_or_uses with ⟨e, he⟩ | ⟨key, x, hl⟩
  · exact .inl (by rw [he]; rfl)
  cases hm : Assoc.find? key (after calls c).remembered with
  | some v =>
    obtain ⟨l', hmem, x', hl', hv⟩ := h.entry key v hm
    refine .inr ⟨l', hmem, key, x, x', hl, hl', ?_⟩
    rw [hv, hl.run_eq, Context.exec_lookup_remembered hm]
  | none =>
    refine .inl ?_
    rw [hl.fst_exec_of_new hm, hl.fst_exec_of_new (by simp [hfresh])]
    exact hl.fetches.answer _ _ h.source hc

end Lookup

/-- With an upstream whose response depends on nothing but the target, a package that is asked for
after other lookups is answered as it would be in the beginning, unless another package was asked
for before that has the same key. Then it may be answered with that other package. Two packages have
one key only if one name begins with the other name and an equals sign, and none has that of a
license. -/
theorem Lookup.package_eq_fresh {c : Context} {upstream : String → Except String Response}
    (hn : c.network.Serves upstream) (hfresh : c.remembered = []) (calls : List Lookup)
    (args : List Value) :
    let fresh (args : List Value) := (Run.exec (Registry.builtin.call "pypi_data" args) c).1
    let answer := (Run.exec (Registry.builtin.call "pypi_data" args) (after calls c)).1
    (answer = fresh args ∨ ∃ name version args' name' version', Asks args name version ∧
      .package args' ∈ calls ∧ Asks args' name' version' ∧ ¬ (name = name' ∧ version = version') ∧
      packageKey name version = packageKey name' version' ∧ answer = fresh args') ∧
    (∀ name version name' version', packageKey name version = packageKey name' version' →
      (name = name' ∧ version = version') ∨ name.toList ++ ['='] <+: name'.toList ∨
        name'.toList ++ ['='] <+: name.toList) ∧
    ∀ (name : String) (version : Option String) (id : String),
      packageKey name version ≠ s!"spdx:{id}" := by
  intro fresh answer
  refine ⟨?_, fun _ _ _ _ => Builtin.eq_or_prefix_of_packageKey, Builtin.packageKey_ne_license⟩
  have hc : c.From ⟨c.licenseBase, c.packageBase, c.naming, upstream⟩ := ⟨rfl, rfl, rfl, hn⟩
  rcases fst_exec_after hc hfresh calls (.package args) with h | ⟨l', hmem, key, x, x', hl, hl', h⟩
  · exact .inl h
  obtain ⟨name, version, hasks, hkey, rfl⟩ := hl.exists_of_package
  cases hl' with
  | license id => exact absurd hkey.symm (Builtin.packageKey_ne_license name version id)
  | @package args' name' version' hasks' =>
    by_cases hsame : name = name' ∧ version = version'
    · obtain ⟨rfl, rfl⟩ := hsame
      have hfetched : fresh args' = fresh args := by
        have hnew : ∀ key, Assoc.find? key c.remembered = none := fun key => by simp [hfresh]
        exact ((Uses.package hasks').fst_exec_of_new (hnew _)).trans
          ((Uses.package hasks).fst_exec_of_new (hnew _)).symm
      exact .inl (h.trans hfetched)
    · exact .inr ⟨name, version, args', name', version', hasks, hmem, hasks', hsame, hkey.symm, h⟩

namespace Lookup

/-- A context on a table of three packages, one of them with a name that looks like another at a
version. -/
def mirror : Context where
  environment := { now := default, cacheDir := "", configDir := "" }
  packageBase := "http://mock"
  network := .table [("/pypi/a/1/json", [⟨200, "1"⟩]), ("/pypi/a==1/json", [⟨200, "2"⟩]),
    ("/pypi/b/json", [⟨200, "3"⟩])]

theorem serves_mirror : mirror.network.Serves fun target => (mirror.network.respond target).1 :=
  Network.serves_table (by decide)

theorem package_eq_fresh_mirror :
    mirror.network.Serves (fun target => (mirror.network.respond target).1) ∧
    (Run.exec (Registry.builtin.call "pypi_data" [.mapping [("name", .string "b")]])
      (after [.package [.mapping [("name", .string "a"), ("version", .string "1")]],
        .license [.string "MIT"]] mirror)).1 = .ok (.int 3) := by
  refine ⟨serves_mirror, ?_⟩
  have hfresh : (Run.exec (Registry.builtin.call "pypi_data" [.mapping [("name", .string "b")]])
      mirror).1 = .ok (.int 3) := by
    cbv
  obtain ⟨h, hkeys, -⟩ := package_eq_fresh serves_mirror rfl
    [.package [.mapping [("name", .string "a"), ("version", .string "1")]],
      .license [.string "MIT"]]
    [.mapping [("name", .string "b")]]
  rcases h with h | ⟨name, version, args', name', version', hb, hmem, ha, hne, hkey, -⟩
  · exact h.trans hfresh
  · obtain rfl : name = "b" := hb.name_eq
    obtain rfl : args' = _ := by simpa using hmem
    obtain rfl : name' = "a" := ha.name_eq
    have hapart : ¬ "b".toList ++ ['='] <+: "a".toList ∧ ¬ "a".toList ++ ['='] <+: "b".toList := by
      decide
    rcases hkeys _ _ _ _ hkey with ⟨hname, -⟩ | hname | hname
    · exact absurd hname (by decide)
    · exact absurd hname hapart.1
    · exact absurd hname hapart.2

theorem package_ne_fresh_mirror :
    mirror.network.Serves (fun target => (mirror.network.respond target).1) ∧
    (Run.exec (Registry.builtin.call "pypi_data" [.mapping [("name", .string "a==1")]]) mirror).1 =
      .ok (.int 2) ∧
    (Run.exec (Registry.builtin.call "pypi_data" [.mapping [("name", .string "a==1")]])
      (after [.package [.mapping [("name", .string "a"), ("version", .string "1")]]] mirror)).1 =
      .ok (.int 1) := by
  exact ⟨serves_mirror, by cbv, by cbv⟩

end Lookup
end Manifest
