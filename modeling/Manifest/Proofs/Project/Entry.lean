import Manifest.Project
import Manifest.Proofs.Path.Expand
import Manifest.Proofs.Query.Steady
import Manifest.Proofs.Resolver.Whole

/-! What a project reads at a path: as it is written, through a resolver of its own, or kept. All
read the same node, unless the path is expanded twice with effect. -/
namespace Manifest

variable {σ : Type}

theorem Resolver.resolveOnce_congr {r : Resolver σ} {path path' : String}
    (h : r.keys path = r.keys path') : r.resolveOnce path = r.resolveOnce path' := by
  unfold resolveOnce resolve
  rw [h]

namespace Project

variable {p : Project σ} {path : String}

theorem keys_resolver (p : Project σ) (path : String) :
    p.resolver.keys path = Path.segments (p.expand path) :=
  congrArg Path.segments (Path.expand_filter_home p.home path)

theorem keys_expand (p : Project σ) (path : String) :
    p.resolver.keys (p.expand path) =
      (if Path.Doubled p.home path then Path.segments (p.home.getD "") else []) ++
        p.resolver.keys path := by
  rw [keys_resolver, keys_resolver]
  exact Path.segments_expand_expand p.home path

theorem getRaw_eq (p : Project σ) (path : String) :
    p.getRaw path = p.document.root.getIn (p.resolver.keys path) := by
  rw [keys_resolver]
  rfl

/-- What has not been kept is resolved afresh at the expanded path, and kept if that succeeds. -/
theorem exec_get_new {s : Session σ} (h : Assoc.find? (p.expand path) s.cache = none) :
    Run.exec (p.get path) s =
      match Run.exec (p.resolver.resolveOnce (p.expand path)) s.world with
      | (.ok v, world) => (.ok v, ⟨Assoc.put (p.expand path) v s.cache, world⟩)
      | (.error e, world) => (.error e, { s with world }) := by
  simp only [get, Run.exec_ofStep, h, resolveFresh, Run.exec_onPart]
  cases Run.exec (p.resolver.resolveOnce (p.expand path)) s.world with
  | mk r world => cases r <;> rfl

/-- What has not been kept is answered as by a resolver of its own, with the same effects. -/
theorem exec_get_new_eq {s : Session σ} (h : Assoc.find? (p.expand path) s.cache = none) :
    (Run.exec (p.get path) s).1 = (Run.exec (p.resolver.resolveOnce (p.expand path)) s.world).1 ∧
    (Run.exec (p.get path) s).2.world =
      (Run.exec (p.resolver.resolveOnce (p.expand path)) s.world).2 := by
  rw [exec_get_new h]
  cases Run.exec (p.resolver.resolveOnce (p.expand path)) s.world with
  | mk r world => cases r <;> exact ⟨rfl, rfl⟩

/-- Queries on functions that depend on nothing but their arguments have answers. -/
theorem answers_resolver (hs : p.registry.Steady) (world : σ) :
    p.resolver.Answers fun v query => (Run.exec (p.resolver.evaluate v query) world).1 :=
  fun v query world' => Query.steady_evaluate hs v query world' world

theorem steady_resolveOnce (hs : p.registry.Steady) (path : String) :
    Run.Steady (p.resolver.resolveOnce path) := by
  intro world world'
  have h := (answers_resolver hs world).exec_resolveOnce path
  rw [h world, h world']

/-- A project that has kept nothing reads a path at the keys that the expanded path has when it is
expanded again. Unless that adds to them, it answers what a resolver of its own answers for the
path, with functions that depend on nothing but their arguments. Where there is no node both fail as
reading it raw does, and a node without placeholders is what all of them give. -/
theorem get_eq_resolveOnce (hs : p.registry.Steady) (path : String) :
    p.resolver.keys (p.expand path) =
      (if Path.Doubled p.home path then Path.segments (p.home.getD "") else []) ++
        p.resolver.keys path ∧
    (∀ world world', (Run.exec (p.get path) { world }).1 =
      (Run.exec (p.resolver.resolveOnce (p.expand path)) world').1) ∧
    (¬Path.Doubled p.home path →
      (∀ world world', (Run.exec (p.get path) { world }).1 =
        (Run.exec (p.resolver.resolveOnce path) world').1) ∧
      (∀ e, p.getRaw path = .error e → e.kind = .pathNotFound ∧
        ∀ world, (Run.exec (p.get path) { world }).1 = .error e) ∧
      ∀ v, p.getRaw path = .ok v → v.Plain →
        ∀ world, (Run.exec (p.get path) { world }).1 = .ok v) := by
  have hget : ∀ world world', (Run.exec (p.get path) { world }).1 =
      (Run.exec (p.resolver.resolveOnce (p.expand path)) world').1 := fun world world' => by
    rw [(exec_get_new_eq rfl).1, steady_resolveOnce hs _ world world']
  refine ⟨p.keys_expand path, hget, fun hd => ?_⟩
  have hkeys : p.resolver.keys (p.expand path) = p.resolver.keys path := by
    rw [keys_expand, if_neg hd, List.nil_append]
  rw [Resolver.resolveOnce_congr hkeys] at hget
  refine ⟨hget, fun e he => ?_, fun v hv hp world => ?_⟩
  · rw [getRaw_eq] at he
    refine ⟨Value.kind_of_getIn he, fun world => ?_⟩
    rw [hget world world, (answers_resolver hs world).exec_resolveOnce]
    exact Scope.naive_of_missing (by simp) he
  · rw [getRaw_eq] at hv
    rw [hget world world, (answers_resolver hs world).exec_resolveOnce]
    exact Scope.naive_of_plain hv hp

def nested (home : String) : Project Unit where
  document := .ofValue <| .mapping [("a", .mapping
    [("b", .string "once"), ("a", .mapping [("b", .string "twice"), ("c", .string "${.b}")])])]
  registry := .empty
  home := some home

theorem steady_empty : (Registry.empty : Registry σ).Steady := nofun

theorem get_eq_resolveOnce_nested :
    (nested "a.a").registry.Steady ∧ ¬Path.Doubled (some "a.a") ".c" ∧
    (Run.exec ((nested "a.a").get ".c") { world := () }).1 =
      (Run.exec ((nested "a.a").resolver.resolveOnce ".c") ()).1 ∧
    (Run.exec ((nested "a.a").get ".b") { world := () }).1 = .ok (.string "twice") ∧
    (Run.exec ((nested "a.a").get ".d") { world := () }).1 = .error (.pathNotFound "a.a.d") := by
  have hc : ¬Path.Doubled (nested "a.a").home ".c" := by decide
  have hb : ¬Path.Doubled (nested "a.a").home ".b" := by decide
  have hd : ¬Path.Doubled (nested "a.a").home ".d" := by decide
  obtain ⟨hfresh, -, -⟩ := (get_eq_resolveOnce steady_empty ".c").2.2 hc
  obtain ⟨-, -, hplain⟩ := (get_eq_resolveOnce steady_empty ".b").2.2 hb
  obtain ⟨-, hmissing, -⟩ := (get_eq_resolveOnce steady_empty ".d").2.2 hd
  exact ⟨steady_empty, hc, hfresh () (), hplain _ (by cbv) (by decide) (),
    (hmissing _ (by cbv)).2 ()⟩

/-- Below a home path that starts with a dot the expanded path is taken for one below the home path
again. -/
theorem get_ne_resolveOnce_nested :
    (nested ".a").registry.Steady ∧
    (nested ".a").getRaw ".b" = .ok (.string "once") ∧
    (Run.exec ((nested ".a").resolver.resolveOnce ".b") ()).1 = .ok (.string "once") ∧
    (Run.exec ((nested ".a").get ".b") { world := () }).1 = .ok (.string "twice") := by
  exact ⟨steady_empty, by cbv, by cbv, by cbv⟩

end Project
end Manifest
