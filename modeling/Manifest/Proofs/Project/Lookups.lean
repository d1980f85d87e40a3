import Manifest.Proofs.Builtin.Package
import Manifest.Proofs.Project.Along

/-! What is looked up stays as it is, however it comes to be looked up again: by calls, queries or
projects that share a context, with an upstream that answers as it likes. -/
namespace Manifest

open Relation (ReflTransGen)

namespace Context

variable {α β : Type} {key : String} {fetch : Run Context Value} {v : Value} {b c d : Context}

/-- A computation leaves alone what is remembered. -/
def Neutral (x : Run Context α) : Prop := ∀ c, (Run.exec x c).2.remembered = c.remembered

/-- A computation makes one request at most, and changes nothing else. -/
def AsksOnce (x : Run Context α) : Prop :=
  ∀ c, (Run.exec x c).2 = c ∨ ∃ url, (Run.exec x c).2 = (Run.exec (Context.fetch url) c).2

theorem AsksOnce.neutral {x : Run Context α} (h : AsksOnce x) : Neutral x := by
  intro c
  rcases h c with h | ⟨url, h⟩ <;> rw [h]
  rfl

theorem asksOnce_throw (e : Error) : AsksOnce (throw e : Run Context α) := fun _ => .inl rfl

theorem asksOnce_get_bind {f : Context → Run Context α} (h : ∀ c, AsksOnce (f c)) :
    AsksOnce (do let c ← get; f c) := fun c => h c c

theorem asksOnce_ofExcept_bind {f : β → Run Context α} (h : ∀ a, AsksOnce (f a))
    (r : Except Error β) :
    AsksOnce (Run.ofExcept r >>= f) := by
  cases r with
  | ok a => exact h a
  | error e => exact asksOnce_throw e

theorem asksOnce_fetch_bind {f : String → Run Context α} (h : ∀ body c, (Run.exec (f body) c).2 = c)
    (url : Url) : AsksOnce (Context.fetch url >>= f) := by
  refine fun c => .inr ⟨url, ?_⟩
  rcases hbody : Run.exec (Context.fetch url) c with ⟨e | body, d⟩
  · rw [Run.exec_bind_of_error hbody]
  · rw [Run.exec_bind_of_ok hbody, h]

/-- What functions do to a context: they count their calls, if they do, and look up. -/
inductive Move : Context → Context → Prop
  | count {c : Context} (counters : List (String × Nat)) : Move c { c with counters }
  | lookup {c : Context} (key : String) {fetch : Run Context Value} (h : Neutral fetch) :
    Move c (Run.exec (Context.lookup key fetch) c).2

abbrev Moves := ReflTransGen Move

theorem along_count (name : String) : Run.Along Move (count name) := fun _ => .single (.count _)

theorem along_lookup (h : Neutral fetch) (key : String) : Run.Along Move (lookup key fetch) :=
  fun _ => .single (.lookup key h)

/-- A lookup of a key that is remembered does nothing. One of another key does what its fetch does,
once, and remembers what that gives; a failure is not remembered. -/
theorem lookup_law (h : Neutral fetch) (key : String) (c : Context) :
    (∀ v, Assoc.find? key c.remembered = some v → Run.exec (lookup key fetch) c = (.ok v, c)) ∧
    (Assoc.find? key c.remembered = none →
      (∀ v d, Run.exec fetch c = (.ok v, d) →
        Run.exec (lookup key fetch) c =
          (.ok v, { d with remembered := Assoc.put key v c.remembered })) ∧
      ∀ e d, Run.exec fetch c = (.error e, d) →
        Run.exec (lookup key fetch) c = (.error e, d) ∧ d.remembered = c.remembered) := by
  refine ⟨fun v hv => exec_lookup_remembered hv fetch, fun hnew =>
    ⟨fun v d hd => ?_, fun e d hd => ?_⟩⟩
  · have hkept : d.remembered = c.remembered := by simpa only [hd] using h c
    rw [exec_lookup_new hnew, hd, ← hkept]
  · exact ⟨by rw [exec_lookup_new hnew, hd], by simpa only [hd] using h c⟩

theorem find?_of_exec_lookup (h : Neutral fetch) (hv : (Run.exec (lookup key fetch) c).1 = .ok v) :
    Assoc.find? key (Run.exec (lookup key fetch) c).2.remembered = some v := by
  obtain ⟨hold, hnew⟩ := lookup_law h key c
  cases hc : Assoc.find? key c.remembered with
  | some w =>
    rw [hold w hc] at hv ⊢
    cases hv
    exact hc
  | none =>
    rcases hx : Run.exec fetch c with ⟨e | w, d⟩
    · rw [((hnew hc).2 e d hx).1] at hv
      cases hv
    · rw [(hnew hc).1 w d hx] at hv ⊢
      cases hv
      exact Assoc.find?_put_self ..

/-- A move leaves what is remembered as it is, or adds what a lookup of a new key has fetched. -/
theorem Move.remembered_cases (h : Move c d) :
    d.remembered = c.remembered ∨
      ∃ key fetch v, Neutral fetch ∧ Assoc.find? key c.remembered = none ∧
        (Run.exec fetch c).1 = .ok v ∧
        d = (Run.exec (Context.lookup key fetch) c).2 ∧
          d.remembered = Assoc.put key v c.remembered := by
  cases h with
  | count => exact .inl rfl
  | @lookup key fetch h =>
    obtain ⟨hold, hnew⟩ := lookup_law h key c
    cases hc : Assoc.find? key c.remembered with
    | some w => exact .inl (by rw [hold w hc])
    | none =>
      rcases hx : Run.exec fetch c with ⟨e | w, d⟩
      · obtain ⟨hlookup, hkept⟩ := (hnew hc).2 e d hx
        exact .inl (by rw [hlookup, hkept])
      · have hlookup := (hnew hc).1 w d hx
        exact .inr ⟨key, fetch, w, h, hc, by rw [hx], rfl, by rw [hlookup]⟩

theorem Move.find? (h : Move c d) (hv : Assoc.find? key c.remembered = some v) :
    Assoc.find? key d.remembered = some v := by
  rcases h.remembered_cases with heq | ⟨key', fetch, w, -, hnew, -, -, hput⟩
  · rwa [heq]
  · have hkey : key' ≠ key := by
      rintro rfl
      cases hnew.symm.trans hv
    rw [hput]
    exact (Assoc.find?_put_ne hkey ..).trans hv

theorem Moves.find? (h : Moves c d) (hv : Assoc.find? key c.remembered = some v) :
    Assoc.find? key d.remembered = some v := by
  induction h with
  | refl => exact hv
  | tail _ hmove ih => exact hmove.find? ih

theorem Move.exists_fetch (h : Move c d) (hnone : Assoc.find? key c.remembered = none)
    (hv : Assoc.find? key d.remembered = some v) :
    ∃ fetch, Neutral fetch ∧ (Run.exec fetch c).1 = .ok v ∧
      d = (Run.exec (Context.lookup key fetch) c).2 := by
  rcases h.remembered_cases with heq | ⟨key', fetch, w, hfetch, -, hw, hd, hput⟩
  · rw [heq, hnone] at hv
    cases hv
  · rw [hput] at hv
    by_cases hkey : key' = key
    · subst hkey
      obtain rfl : w = v := Option.some.inj ((Assoc.find?_put_self ..).symm.trans hv)
      exact ⟨fetch, hfetch, hw, hd⟩
    · cases (hnone.symm.trans (Assoc.find?_put_ne hkey ..).symm).trans hv

theorem Moves.exists_fetch (h : Moves c d) (hnew : Assoc.find? key c.remembered = none)
    (hv : Assoc.find? key d.remembered = some v) :
    ∃ b fetch, Moves c b ∧ Neutral fetch ∧ Assoc.find? key b.remembered = none ∧
      (Run.exec fetch b).1 = .ok v ∧ Moves (Run.exec (lookup key fetch) b).2 d := by
  induction h with
  | refl => cases hnew.symm.trans hv
  | @tail b d hmoves hmove ih =>
    cases hb : Assoc.find? key b.remembered with
    | none =>
      obtain ⟨fetch, hfetch, hx, rfl⟩ := hmove.exists_fetch hb hv
      exact ⟨b, fetch, hmoves, hfetch, hb, hx, .refl⟩
    | some w =>
      obtain rfl : w = v := Option.some.inj ((hmove.find? hb).symm.trans hv)
      obtain ⟨b', fetch, hb', hfetch, hnone, hx, hrest⟩ := ih hb
      exact ⟨b', fetch, hb', hfetch, hnone, hx, hrest.tail hmove⟩

end Context

namespace Builtin

theorem asksOnce_fetchLicense (id : String) : Context.AsksOnce (fetchLicense id) := by
  unfold fetchLicense
  split
  · exact Context.asksOnce_throw _
  refine Context.asksOnce_get_bind fun c => Context.asksOnce_ofExcept_bind (fun url => ?_) _
  refine Context.asksOnce_fetch_bind (fun body c => ?_) url
  split <;> rfl

theorem asksOnce_fetchPackage (name : String) (version : Option String) :
    Context.AsksOnce (fetchPackage name version) := by
  unfold fetchPackage
  refine Context.asksOnce_get_bind fun c => Context.asksOnce_ofExcept_bind (fun url => ?_) _
  refine Context.asksOnce_fetch_bind (fun body c => ?_) url
  split <;> rfl

theorem along_license (v : Value) : Run.Along Context.Move (license v) :=
  Context.along_lookup (asksOnce_fetchLicense _).neutral _

theorem along_package (v : Value) : Run.Along Context.Move (package v) := by
  refine (Run.along_ofExcept _).bind fun name => ?_
  cases name with
  | none => exact Run.along_throw _
  | some name =>
    refine (Run.along_ofExcept _).bind fun version => ?_
    exact Context.along_lookup (asksOnce_fetchPackage name version).neutral _

theorem along_environmental (f : Environment → String) (args : List Value) :
    Run.Along Context.Move ((environmental f).body args) := Run.along_of_eq fun _ => rfl

end Builtin

theorem Lookup.Uses.asksOnce {l : Lookup} {key : String} {fetch : Run Context Value}
    (h : Uses l key fetch) : Context.AsksOnce fetch := by
  cases h with
  | license id => exact Builtin.asksOnce_fetchLicense id
  | package h => exact Builtin.asksOnce_fetchPackage _ _

namespace Registry

variable {σ : Type} {R : σ → σ → Prop}

theorem mem_foldl_register {fs : List (String × Function σ)} {r : Registry σ}
    {e : String × Function σ}
    (h : e ∈ (fs.foldl (fun r (name, f) => r.register name f) r).entries) :
    e ∈ r.entries ∨ e ∈ fs := by
  induction fs generalizing r with
  | nil => exact .inl h
  | cons f fs ih =>
    rcases ih h with h | h
    · rcases Assoc.mem_insert h with rfl | h
      · exact .inr (List.mem_cons_self ..)
      · exact .inl h
    · exact .inr (List.mem_cons_of_mem f h)

/-- The functions that are there from the start only look up. -/
theorem along_builtin : builtin.Along Context.Move := by
  intro name f hf
  have hmem := mem_foldl_register (Assoc.mem_of_find? hf)
  have hall : ∀ e ∈ Builtin.versionFunctions ++ Builtin.timeFunctions ++ Builtin.licenseFunctions ++
      Builtin.packageFunctions, ∀ args, Run.Along Context.Move (e.2.body args) := by
    simp only [Builtin.versionFunctions, Builtin.timeFunctions, Builtin.licenseFunctions,
      Builtin.packageFunctions, List.forall_mem_append, List.forall_mem_cons, List.not_mem_nil,
      false_implies, implies_true, and_true, Builtin.unary, Run.along_ofExcept,
      Builtin.along_environmental,
      Builtin.along_license, Builtin.along_package]
  exact hall _ (hmem.resolve_left List.not_mem_nil)

end Registry

/-- What can be done with a context: lookups, calls, queries, and steps of a project that has read
some nodes already. The project may have been cleared, or be a copy. -/
inductive Access
  | lookup (key : String) (fetch : Run Context Value) (h : Context.Neutral fetch)
  | call (name : String) (args : List Value)
  | query (v : Value) (text : String)
  | project (p : Project Context) (cache : List (String × Value)) (step : Project.Step)

namespace Access

variable {registry : Registry Context}

/-- The context after an access. All go to the functions of one registry. -/
def run (registry : Registry Context) : Access → Context → Context
  | .lookup key fetch _, c => (Run.exec (Context.lookup key fetch) c).2
  | .call name args, c => (Run.exec (registry.call name args) c).2
  | .query v text, c => (Run.exec (Query.evaluate registry v text) c).2
  | .project p cache step, c => (Run.exec (step.run { p with registry }) ⟨cache, c⟩).2.world

def after (registry : Registry Context) (accesses : List Access) (c : Context) : Context :=
  accesses.foldl (fun c a => a.run registry c) c

theorem moves_run (hr : registry.Along Context.Move) (a : Access) (c : Context) :
    Context.Moves c (a.run registry c) := by
  cases a with
  | lookup key fetch h => exact Context.along_lookup h key c
  | call name args => exact hr.call name args c
  | query v text => exact Query.along_evaluate hr v text c
  | project p cache step =>
      exact Project.Step.along_run (p := { p with registry }) hr step ⟨cache, c⟩

theorem moves_after (hr : registry.Along Context.Move) (accesses : List Access) (c : Context) :
    Context.Moves c (after registry accesses c) := by
  induction accesses generalizing c with
  | nil => exact .refl
  | cons a accesses ih => exact (a.moves_run hr c).trans (ih _)

/-- Whatever is done with a context, also by queries and projects that share it, comes down to
lookups. Whatever their requests meet, what is remembered stays, and all that is new was fetched by
a lookup that did not find it. A lookup of a key that is remembered gives what is remembered, and
leaves the context alone; one of another key does what its fetch does, once, and remembers what that
gives if it succeeds. If it fails, nothing is remembered, and the next lookup of the key fetches
again. So a lookup that has answered once is answered alike ever after. The calls that look up
licenses and packages are refused, or are lookups whose fetch makes one request at most. -/
theorem lookups_stable (hr : registry.Along Context.Move) (c : Context) :
    (∀ accesses, let d := after registry accesses c
      Context.Moves c d ∧
      (∀ key v, Assoc.find? key c.remembered = some v → Assoc.find? key d.remembered = some v) ∧
      ∀ key v, Assoc.find? key c.remembered = none → Assoc.find? key d.remembered = some v →
        ∃ b fetch, Context.Moves c b ∧ Context.Neutral fetch ∧ Assoc.find? key b.remembered = none ∧
          (Run.exec fetch b).1 = .ok v ∧
          Context.Moves (Run.exec (Context.lookup key fetch) b).2 d) ∧
    (∀ key fetch, Context.Neutral fetch →
      (∀ v, Assoc.find? key c.remembered = some v →
        Run.exec (Context.lookup key fetch) c = (.ok v, c)) ∧
      (Assoc.find? key c.remembered = none →
        (∀ v d, Run.exec fetch c = (.ok v, d) → Run.exec (Context.lookup key fetch) c =
          (.ok v, { d with remembered := Assoc.put key v c.remembered })) ∧
        ∀ e d, Run.exec fetch c = (.error e, d) →
          Run.exec (Context.lookup key fetch) c = (.error e, d) ∧ d.remembered = c.remembered) ∧
      ∀ v, (Run.exec (Context.lookup key fetch) c).1 = .ok v → ∀ accesses fetch',
        let d := after registry accesses (Run.exec (Context.lookup key fetch) c).2
        Run.exec (Context.lookup key fetch') d = (.ok v, d)) ∧
    ∀ l : Lookup, (∃ e, l.run = throw e) ∨
      ∃ key fetch, l.run = Context.lookup key fetch ∧ Context.AsksOnce fetch := by
  refine ⟨fun accesses => ?_, fun key fetch h => ?_, fun l => ?_⟩
  · have hmoves := moves_after hr accesses c
    exact ⟨hmoves, fun _ _ => hmoves.find?, fun _ _ => hmoves.exists_fetch⟩
  · obtain ⟨hold, hnew⟩ := Context.lookup_law h key c
    refine ⟨hold, hnew, fun v hv accesses fetch' => ?_⟩
    have hkept := (moves_after hr accesses _).find? (Context.find?_of_exec_lookup h hv)
    exact Context.exec_lookup_remembered hkept fetch'
  · rcases l.throws_or_uses with hthrow | ⟨key, fetch, huses⟩
    · exact .inl hthrow
    · exact .inr ⟨key, fetch, huses.run_eq, huses.asksOnce⟩

/-- A context whose requests are cut off, refused, and answered differently from then on. -/
def flaky : Context where
  environment := { now := default, cacheDir := "", configDir := "" }
  packageBase := "http://mock"
  network := .script [.error "reset", .ok ⟨500, ""⟩, .ok ⟨200, "1"⟩, .ok ⟨200, "2"⟩]

def wanted : List Value := [.mapping [("name", .string "a")]]

def reader : Project Context where
  document := .ofValue (.mapping [("pkg", .mapping [("name", .string "a")]),
    ("data", .string "${pkg ~ pypi_data(@) ~}")])
  registry := .builtin

theorem uses_wanted : Lookup.Uses (.package wanted) (Builtin.packageKey "a" none)
    (Builtin.fetchPackage "a" none) := .package ⟨_, rfl, by cbv, by cbv⟩

/-- After two lookups that failed a third is remembered, while a project is read and cleared. -/
theorem lookups_stable_flaky :
    Registry.builtin.Along Context.Move ∧
    let failed := after Registry.builtin [.call "pypi_data" wanted, .call "pypi_data" wanted] flaky
    let read := after Registry.builtin [.call "pypi_data" wanted, .project reader [] .resolveAll,
      .project reader [] .clear, .query (.string "a") "pypi_data({name: @})"] failed
    failed.remembered = [] ∧
      Run.exec (Registry.builtin.call "pypi_data" wanted) read = (.ok (.int 1), read) := by
  obtain ⟨-, hlaw, -⟩ := lookups_stable Registry.along_builtin
    (after Registry.builtin [.call "pypi_data" wanted, .call "pypi_data" wanted] flaky)
  have hcall : Registry.builtin.call "pypi_data" wanted = Context.lookup _ _ := uses_wanted.run_eq
  have hfirst : (Run.exec (Registry.builtin.call "pypi_data" wanted)
      (after Registry.builtin [.call "pypi_data" wanted, .call "pypi_data" wanted] flaky)).1 =
        .ok (.int 1) := by
    cbv
  rw [hcall] at hfirst
  have hlater :=
    (hlaw _ _ uses_wanted.asksOnce.neutral).2.2 _ hfirst [.project reader [] .resolveAll,
    .project reader [] .clear, .query (.string "a") "pypi_data({name: @})"]
      (Builtin.fetchPackage "a" none)
  rw [← hcall] at hlater
  exact ⟨Registry.along_builtin, by cbv, hlater⟩

end Access
end Manifest
