import Manifest.Proofs.Project.Entry

/-! Runs of a project, step by step: what has been read successfully is kept until it is cleared,
and nothing else is. -/
namespace Manifest

variable {σ : Type}

namespace Project

/-- What can be done with a project that keeps what it reads. After `clone` a run goes on with the
copy. -/
inductive Step
  | get (path : String)
  | getString (path : String)
  | resolveAll
  | toValue (resolve : Bool)
  | toJson (resolve : Bool)
  | getRaw (path : String)
  | clear
  | clone

inductive Answer
  | value (v : Value)
  | text (text : String)
  | done

namespace Step

def run (p : Project σ) : Step → Run (Session σ) Answer
  | .get path => do return .value (← p.get path)
  | .getString path => do return .text (← p.getString path)
  | .resolveAll => do
    p.resolveAll
    return .done
  | .toValue resolve => do return .value (← p.toValue resolve)
  | .toJson resolve => do return .text (← p.toJson resolve)
  | .getRaw path => Run.ofExcept ((p.getRaw path).map .value)
  | .clear => Run.ofStep fun s => (.ok .done, s.clear)
  | .clone => Run.ofStep fun s => (.ok .done, s.clone)

def path? : Step → Option String
  | .get path | .getString path => some path
  | .resolveAll | .toValue true | .toJson true => some ""
  | .toValue false | .toJson false | .getRaw _ | .clear | .clone => none

def view : Step → Value → Answer
  | .getString _, v => .text v.render
  | .resolveAll, _ => .done
  | .toJson _, v => .text v.jsonLines
  | _, v => .value v

def Resets : Step → Prop
  | .clear | .clone => True
  | _ => False

variable {p : Project σ} {step : Step} {path : String} {s : Session σ}

theorem not_resets_of_path? (h : step.path? = some path) : ¬step.Resets := by
  cases step <;> simp [path?, Resets] at h ⊢

/-- Steps that read a resolved node do it in the same way, and differ in how they show it. -/
theorem exec_run_of_path? (h : step.path? = some path) :
    Run.exec (step.run p) s =
      ((Run.exec (p.get path) s).1.map step.view, (Run.exec (p.get path) s).2) := by
  have hshow : ∀ (f : Value → Answer), Run.exec (do return f (← p.get path)) s =
      ((Run.exec (p.get path) s).1.map f, (Run.exec (p.get path) s).2) :=
    fun f => Run.exec_bind_pure _ f s
  cases step with
  | get => cases h; exact hshow _
  | getString =>
    cases h
    simp only [run, Project.getString, Run.exec_bind_pure]
    cases (Run.exec (p.get path) s).1 <;> rfl
  | resolveAll =>
    cases h
    simp only [run, Project.resolveAll, Run.exec_bind_pure]
    cases (Run.exec (p.get "") s).1 <;> rfl
  | toValue resolve =>
    cases resolve with
    | false => cases h
    | true => cases h; exact hshow _
  | toJson resolve =>
    cases resolve with
    | false => cases h
    | true =>
      cases h
      simp only [run, Project.toJson, Project.toValue, if_pos, Run.exec_bind_pure]
      cases (Run.exec (p.get "") s).1 <;> rfl
  | getRaw | clear | clone => cases h

theorem exec_run_of_resets (h : step.Resets) : (Run.exec (step.run p) s).2.cache = [] := by
  cases step with
  | clear | clone => rfl
  | _ => cases h

theorem exec_run_of_none (h : step.path? = none) (hr : ¬step.Resets) :
    (Run.exec (step.run p) s).2 = s := by
  cases step with
  | getRaw => rfl
  | clear | clone => exact absurd trivial hr
  | toValue resolve | toJson resolve =>
    cases resolve with
    | false => rfl
    | true => cases h
  | _ => cases h

end Step

variable {p : Project σ} {step : Step} {path key : String} {s : Session σ} {v : Value}

/-- What reading a path can do: find it kept, fail with all that is kept as it is, or resolve it and
keep it. -/
theorem exec_get_cases (p : Project σ) (path : String) (s : Session σ) :
    (∃ v, Assoc.find? (p.expand path) s.cache = some v ∧ Run.exec (p.get path) s = (.ok v, s)) ∨
    (∃ e world, Run.exec (p.get path) s = (.error e, { s with world })) ∨
    ∃ v world, Assoc.find? (p.expand path) s.cache = none ∧
      Run.exec (p.get path) s = (.ok v, ⟨Assoc.put (p.expand path) v s.cache, world⟩) := by
  cases hc : Assoc.find? (p.expand path) s.cache with
  | some v => exact .inl ⟨v, rfl, exec_get_cached hc⟩
  | none =>
    rw [exec_get_new hc]
    rcases Run.exec (p.resolver.resolveOnce (p.expand path)) s.world with ⟨e | v, world⟩
    · exact .inr (.inl ⟨e, world, rfl⟩)
    · exact .inr (.inr ⟨v, world, rfl, rfl⟩)

/-- What is kept after a path has been read: what was kept, and what has been read. -/
theorem find?_exec_get :
    Assoc.find? key (Run.exec (p.get path) s).2.cache = some v ↔
      Assoc.find? key s.cache = some v ∨
        p.expand path = key ∧ (Run.exec (p.get path) s).1 = .ok v := by
  rcases p.exec_get_cases path s with ⟨w, hc, hx⟩ | ⟨e, world, hx⟩ | ⟨w, world, hc, hx⟩
  · rw [hx]
    refine ⟨.inl, ?_⟩
    rintro (h | ⟨rfl, h⟩)
    · exact h
    · cases h
      exact hc
  · simp [hx]
  · rw [hx]
    by_cases hk : p.expand path = key
    · subst hk
      simp [hc]
    · simp [Assoc.find?_put_ne hk, hk]

theorem exec_get_error {e : Error} (h : (Run.exec (p.get path) s).1 = .error e) :
    (Run.exec (p.get path) s).2.cache = s.cache := by
  rcases p.exec_get_cases path s with ⟨w, -, hx⟩ | ⟨e, world, hx⟩ | ⟨w, world, -, hx⟩
  · rw [hx]
  · rw [hx]
  · rw [hx] at h
    cases h

theorem nodup_exec_get (h : (s.cache.map Prod.fst).Nodup) :
    ((Run.exec (p.get path) s).2.cache.map Prod.fst).Nodup := by
  rcases p.exec_get_cases path s with ⟨w, -, hx⟩ | ⟨e, world, hx⟩ | ⟨w, world, -, hx⟩
  · rw [hx]
    exact h
  · rw [hx]
    exact h
  · rw [hx]
    exact Assoc.nodup_put h

def after (p : Project σ) (steps : List Step) (s : Session σ) : Session σ :=
  steps.foldl (fun s step => (Run.exec (step.run p) s).2) s

@[simp] theorem after_nil (p : Project σ) (s : Session σ) : p.after [] s = s := rfl

@[simp] theorem after_concat (p : Project σ) (steps : List Step) (step : Step) (s : Session σ) :
    p.after (steps ++ [step]) s = (Run.exec (step.run p) (p.after steps s)).2 :=
  List.foldl_concat ..

/-- One of the steps has read a value under a key, and none since then has forgotten it. -/
def Kept (p : Project σ) (s : Session σ) (steps : List Step) (key : String) (v : Value) : Prop :=
  ∃ before step behind path, steps = before ++ step :: behind ∧ (∀ t ∈ behind, ¬t.Resets) ∧
    step.path? = some path ∧ p.expand path = key ∧
    (Run.exec (p.get path) (p.after before s)).1 = .ok v

theorem find?_exec_run :
    Assoc.find? key (Run.exec (step.run p) s).2.cache = some v ↔
      ¬step.Resets ∧ (Assoc.find? key s.cache = some v ∨ ∃ path, step.path? = some path ∧
        p.expand path = key ∧ (Run.exec (p.get path) s).1 = .ok v) := by
  by_cases hr : step.Resets
  · simp [Step.exec_run_of_resets hr, hr]
  · cases hp : step.path? with
    | none => simp [Step.exec_run_of_none hp hr, hr]
    | some path => simp [Step.exec_run_of_path? hp, find?_exec_get, hr]

theorem kept_concat {steps : List Step} :
    p.Kept s (steps ++ [step]) key v ↔
      ¬step.Resets ∧ (p.Kept s steps key v ∨ ∃ path, step.path? = some path ∧
        p.expand path = key ∧ (Run.exec (p.get path) (p.after steps s)).1 = .ok v) := by
  constructor
  · rintro ⟨before, t, behind, path, he, hbehind, hp, hk, hv⟩
    -- The step that read the value is the last one, or the last one stands behind it.
    rcases List.eq_nil_or_concat behind with rfl | ⟨behind, u, rfl⟩
    · obtain ⟨rfl, hlast⟩ := List.append_inj' he rfl
      obtain rfl := List.singleton_injective hlast
      exact ⟨Step.not_resets_of_path? hp, .inr ⟨path, hp, hk, hv⟩⟩
    · rw [List.concat_eq_append, ← List.cons_append, ← List.append_assoc] at he
      obtain ⟨rfl, hlast⟩ := List.append_inj' he rfl
      obtain rfl := List.singleton_injective hlast
      rw [List.concat_eq_append, List.forall_mem_append] at hbehind
      exact ⟨hbehind.2 step (List.mem_singleton_self _),
        .inl ⟨before, t, behind, path, rfl, hbehind.1, hp, hk, hv⟩⟩
  · rintro ⟨hr, ⟨before, t, behind, path, rfl, hbehind, hp, hk, hv⟩ | ⟨path, hp, hk, hv⟩⟩
    · refine ⟨before, t, behind ++ [step], path, by simp, ?_, hp, hk, hv⟩
      exact List.forall_mem_append.mpr ⟨hbehind, List.forall_mem_singleton.mpr hr⟩
    · exact ⟨steps, step, [], path, rfl, by simp, hp, hk, hv⟩

theorem find?_after (p : Project σ) (world : σ) (steps : List Step) :
    Assoc.find? key (p.after steps { world }).cache = some v ↔ p.Kept { world } steps key v := by
  induction steps using List.reverseRecOn with
  | nil => simp [Kept]
  | append_singleton steps step ih => rw [after_concat, find?_exec_run, ih, kept_concat]

theorem nodup_after (p : Project σ) (world : σ) (steps : List Step) :
    ((p.after steps { world }).cache.map Prod.fst).Nodup := by
  induction steps using List.reverseRecOn with
  | nil => exact List.nodup_nil
  | append_singleton steps step ih =>
    rw [after_concat]
    by_cases hr : step.Resets
    · simp [Step.exec_run_of_resets hr]
    · cases hp : step.path? with
      | none => rw [Step.exec_run_of_none hp hr]; exact ih
      | some path => rw [Step.exec_run_of_path? hp]; exact nodup_exec_get ih

theorem exec_run_error {e : Error} (h : (Run.exec (step.run p) s).1 = .error e) :
    (Run.exec (step.run p) s).2.cache = s.cache := by
  cases hp : step.path? with
  | none =>
    rw [Step.exec_run_of_none hp]
    intro hr
    cases step with
    | clear | clone => cases h
    | _ => cases hr
  | some path =>
    rw [Step.exec_run_of_path? hp] at h ⊢
    cases hx : (Run.exec (p.get path) s).1 with
    | ok w => rw [hx] at h; cases h
    | error e' => exact exec_get_error hx

/-- All that is kept is what a resolver of its own gives, in any state. -/
def Fresh (p : Project σ) (s : Session σ) : Prop :=
  ∀ key v, Assoc.find? key s.cache = some v →
    ∀ world, (Run.exec (p.resolver.resolveOnce key) world).1 = .ok v

theorem Fresh.exec_get (h : p.Fresh s) (hs : p.registry.Steady) (path : String) (world : σ) :
    (Run.exec (p.get path) s).1 = (Run.exec (p.resolver.resolveOnce (p.expand path)) world).1 := by
  cases hc : Assoc.find? (p.expand path) s.cache with
  | some v => rw [exec_get_cached hc, h _ _ hc]
  | none => rw [(exec_get_new_eq hc).1, steady_resolveOnce hs _ s.world world]

theorem fresh_after (hs : p.registry.Steady) (world : σ) (steps : List Step) :
    p.Fresh (p.after steps { world }) := by
  induction steps using List.reverseRecOn with
  | nil => simp [Fresh]
  | append_singleton steps step ih =>
    intro key v h world'
    rw [after_concat, find?_exec_run] at h
    obtain ⟨-, h | ⟨path, -, rfl, h⟩⟩ := h
    · exact ih key v h world'
    · rw [← ih.exec_get hs, h]

/-- After any steps of a project that started with nothing kept, it keeps just what steps have read
successfully since it was last made to forget, by expanded path. All steps that read a resolved node
do so in one way, and a step that fails changes nothing that is kept. A path that is kept is
answered from there, whatever the functions are, with no effect; any other is answered as by a
resolver of its own, with the same effects. With functions that depend on nothing but their
arguments this is what is answered with nothing kept. -/
theorem cache_coherent (p : Project σ) (world : σ) (steps : List Step) :
    let s := p.after steps { world }
    (s.cache.map Prod.fst).Nodup ∧
    (∀ key v, (key, v) ∈ s.cache ↔ p.Kept { world } steps key v) ∧
    (∀ (step : Step) path, step.path? = some path → Run.exec (step.run p) s =
      ((Run.exec (p.get path) s).1.map step.view, (Run.exec (p.get path) s).2)) ∧
    (∀ (step : Step) e, (Run.exec (step.run p) s).1 = .error e →
      (Run.exec (step.run p) s).2.cache = s.cache) ∧
    (∀ path v, (p.expand path, v) ∈ s.cache →
      ∀ registry, Run.exec ({ p with registry }.get path) s = (.ok v, s)) ∧
    (∀ path, p.expand path ∉ s.cache.map Prod.fst →
      (Run.exec (p.get path) s).1 = (Run.exec (p.resolver.resolveOnce (p.expand path)) s.world).1 ∧
      (Run.exec (p.get path) s).2.world =
        (Run.exec (p.resolver.resolveOnce (p.expand path)) s.world).2) ∧
    (p.registry.Steady → ∀ path world',
      (Run.exec (p.get path) s).1 = (Run.exec (p.get path) { world := world' }).1) := by
  intro s
  have hn : (s.cache.map Prod.fst).Nodup := p.nodup_after world steps
  refine ⟨hn, fun key v => ?_, fun _ _ => Step.exec_run_of_path?, fun _ _ => exec_run_error,
    fun path v hv registry => ?_, fun path hk => ?_, fun hs path world' => ?_⟩
  · rw [← find?_after]
    exact ⟨Assoc.find?_of_mem hn, Assoc.mem_of_find?⟩
  · exact exec_get_cached (p := { p with registry }) (Assoc.find?_of_mem hn hv)
  · exact exec_get_new_eq ((Assoc.find?_eq_none_iff _ _).mpr hk)
  · have hempty : p.Fresh { world := world' } := fresh_after hs world' []
    rw [(fresh_after hs world steps).exec_get hs path world, hempty.exec_get hs path world]

end Project
end Manifest
