import Manifest.Proofs.Project.Cache
import Manifest.Proofs.Query.Errors

/-! The state that functions share. Queries, resolvers and projects change it in no other way than
the functions that they come to call. -/
namespace Manifest

open Relation (ReflTransGen)

variable {ε δ σ α β : Type} {R : σ → σ → Prop}

namespace Run

/-- A computation changes the state step by step along a relation. -/
def Along (R : σ → σ → Prop) (x : RunWith ε σ α) : Prop := ∀ s, ReflTransGen R s (exec x s).2

theorem along_of_eq {x : RunWith ε σ α} (h : ∀ s, (exec x s).2 = s) : Along R x := by
  intro s
  rw [h]

theorem along_pure (a : α) : Along R (pure a : RunWith ε σ α) := along_of_eq fun _ => rfl

theorem along_throw (e : ε) : Along R (throw e : RunWith ε σ α) := along_of_eq fun _ => rfl

theorem along_ofExcept (r : Except ε α) : Along R (ofExcept r : RunWith ε σ α) :=
  along_of_eq fun _ => rfl

theorem Along.bind {x : RunWith ε σ α} {f : α → RunWith ε σ β} (hx : Along R x)
    (hf : ∀ a, Along R (f a)) : Along R (x >>= f) := by
  intro s
  have h := hx s
  rcases hs : exec x s with ⟨r, t⟩
  rw [hs] at h
  cases r with
  | ok a =>
    rw [exec_bind_of_ok hs]
    exact h.trans (hf a t)
  | error e =>
    rw [exec_bind_of_error hs]
    exact h

theorem Along.mapError {x : RunWith ε σ α} (hx : Along R x) (f : ε → δ) :
    Along R (mapError f x) := by
  intro s
  rw [exec_mapError]
  exact hx s

end Run

/-- The functions of a registry change the state along a relation. -/
def Registry.Along (R : σ → σ → Prop) (r : Registry σ) : Prop :=
  ∀ name f, r.get? name = some f → ∀ args, Run.Along R (f.body args)

theorem Registry.Along.call {r : Registry σ} (h : r.Along R) (name : String) (args : List Value) :
    Run.Along R (r.call name args) := by
  unfold Registry.call
  split
  · exact Run.along_throw _
  · rename_i f hf
    split
    · exact Run.along_throw _
    · exact h name f hf args

namespace Query

variable {registry : Registry σ}

theorem Call.along_after (hr : registry.Along R) (c : Call σ) :
    ReflTransGen R c.world (c.after registry) := by
  unfold Call.after
  split
  · exact hr.call _ _ c.world
  · exact .refl

theorem Explains.along (hr : registry.Along R) {world world' : σ} {cs : List (Call σ)}
    {stop : Option (Failure × Option Error)} (h : Explains registry world cs stop world') :
    ReflTransGen R world world' := by
  induction h with
  | nil => exact .refl
  | cons _ _ ih => exact (Call.along_after hr _).trans ih
  | stop => exact Call.along_after hr _

theorem along_evaluate (hr : registry.Along R) (v : Value) (query : String) :
    Run.Along R (evaluate registry v query) := by
  by_cases h : ∃ e, Compiles query e
  · intro world
    obtain ⟨e, he⟩ := h
    obtain ⟨_, _, _, -, -, hcs, -⟩ := he.exists_explains registry v world
    exact hcs.along hr
  · obtain ⟨error, -, heq⟩ := exists_evaluate_eq_throw (not_exists.mp h)
    rw [heq registry v]
    exact Run.along_throw error

end Query

namespace Scope

variable {s : Scope} {settle : Settling σ}

mutual

theorem Visits.along (hs : ∀ owner n v, Run.Along R (settle owner n v)) {keys : Keys}
    {p q : Progress σ}
    {r : Except Error Value} (h : Visits s settle keys p r q) : ReflTransGen R p.world q.world := by
  match h with
  | .circle _ | .done .. | .missing .. => exact .refl
  | .failed _ _ _ hg | .built _ _ _ hg => exact hg.along hs

theorem Gathers.along (hs : ∀ owner n v, Run.Along R (settle owner n v)) {owner : Keys}
    {needs : List Need} {p q : Progress σ} {r : Except Error (List Value)}
    (h : Gathers s settle owner needs p r q) : ReflTransGen R p.world q.world := by
  match h with
  | .nil => exact .refl
  | .unresolved hn => exact hn.along hs
  | .unsettled (n := n) (q := q) (v := v) hn hx =>
    have hsettle := hs owner n v q.world
    rw [hx] at hsettle
    exact (hn.along hs).trans hsettle
  | .stopped (n := n) (q := q) (v := v) hn hx hg | .cons (n := n) (q := q) (v := v) hn hx hg =>
    have hsettle := hs owner n v q.world
    rw [hx] at hsettle
    exact ((hn.along hs).trans hsettle).trans (hg.along hs)

end

end Scope

theorem Resolver.along_resolveOnce {r : Resolver σ}
    (h : ∀ v query, Run.Along R (r.evaluate v query))
    (path : String) : Run.Along R (r.resolveOnce path) := by
  have hsettle : ∀ owner n v, Run.Along R (r.settle owner n v) := by
    intro owner n v
    unfold settle
    cases n.query with
    | none => exact Run.along_pure v
    | some query => exact (h v query).mapError _
  intro world
  rw [resolveOnce, Run.exec_onPart]
  exact Scope.Visits.along hsettle (r.visits_resolve path { world })

namespace Project

variable {p : Project σ}

theorem evaluate_resolver (p : Project σ) : p.resolver.evaluate = Query.evaluate p.registry := by
  rw [resolver]

theorem along_get (hr : p.registry.Along R) (path : String) (s : Session σ) :
    ReflTransGen R s.world (Run.exec (p.get path) s).2.world := by
  cases hc : Assoc.find? (p.expand path) s.cache with
  | some v => rw [exec_get_cached hc]
  | none =>
    have hevaluate : ∀ v query, Run.Along R (p.resolver.evaluate v query) := by
      rw [evaluate_resolver]
      exact Query.along_evaluate hr
    rw [(exec_get_new_eq hc).2]
    exact p.resolver.along_resolveOnce hevaluate _ s.world

/-- A step of a project changes the shared state only as far as its functions do. -/
theorem Step.along_run (hr : p.registry.Along R) (step : Step) (s : Session σ) :
    ReflTransGen R s.world (Run.exec (step.run p) s).2.world := by
  cases hp : step.path? with
  | some path =>
    rw [exec_run_of_path? hp]
    exact along_get hr path s
  | none =>
    by_cases hreset : step.Resets
    · cases step with
      | clear | clone => exact .refl
      | _ => cases hreset
    · rw [exec_run_of_none hp hreset]

end Project
end Manifest
