import Manifest.Proofs.Resolver.Naive
import Manifest.Proofs.Resolver.State
import Mathlib

/-! What a resolver remembers changes none of its answers, for queries whose results depend on
nothing but value and query. -/
namespace Manifest

variable {σ : Type}

/-- The results of queries depend on value and query alone. -/
def Resolver.Answers (r : Resolver σ) (answer : Value → String → Except Error Value) : Prop :=
  ∀ v q world, (Run.exec (r.evaluate v q) world).1 = answer v q

namespace Scope

variable {s : Scope} {settle : Settling σ} {answer : Value → String → Except Error Value}

/-- What is remembered of each node is what it resolves to with nothing in progress. -/
def Faithful (s : Scope) (answer : Value → String → Except Error Value) (p : Progress σ) : Prop :=
  ∀ keys v, Assoc.find? keys p.memo = some v → s.naive answer [] keys = .ok v

theorem Faithful.remember {keys : Keys} {v : Value} {p : Progress σ} (h : s.Faithful answer p)
    (hv : s.naive answer [] keys = .ok v) : s.Faithful answer (p.remember keys v) := by
  intro k w hw
  rw [Progress.remember_memo] at hw
  by_cases hk : keys = k
  · subst hk
    rw [Assoc.find?_put_self] at hw
    cases hw
    exact hv
  · rw [Assoc.find?_put_ne hk] at hw
    exact h k w hw

mutual

theorem Visits.eq_naive (hs : ∀ owner n v world, (Run.exec (settle owner n v) world).1 =
    taken answer owner n v) {keys : Keys} {p q : Progress σ} {r : Except Error Value}
    (h : Visits s settle keys p r q) (hp : s.Tidy p) (hf : s.Faithful answer p) :
    r = s.naive answer p.stack keys ∧ s.Faithful answer q := by
  match h with
  | .circle h => exact ⟨(naive_of_mem_stack h).symm, hf⟩
  | .done _ hm =>
    exact ⟨(naive_eq_ok_of_reaches (hf _ _ hm) fun _ => hp.notMem_of_reaches hm).symm, hf⟩
  | .missing h _ he => exact ⟨(naive_of_missing h he).symm, hf⟩
  | .failed h hm hv hg =>
    obtain ⟨hr, hq⟩ := hg.eq_mapM_met hs (hp.push h hm) hf
    rw [Progress.push_stack] at hr
    rw [naive_of_found h hv, ← hr]
    exact ⟨rfl, hq⟩
  | .built h hm hv hg =>
    obtain ⟨hr, hq⟩ := hg.eq_mapM_met hs (hp.push h hm) hf
    rw [Progress.push_stack] at hr
    have hn := naive_of_met h hv hr.symm
    exact ⟨hn.symm, Faithful.remember hq (naive_eq_ok_of_reaches hn (by simp))⟩

theorem Gathers.eq_mapM_met (hs : ∀ owner n v world, (Run.exec (settle owner n v) world).1 =
    taken answer owner n v) {owner : Keys} {needs : List Need} {p q : Progress σ}
    {r : Except Error (List Value)} (h : Gathers s settle owner needs p r q) (hp : s.Tidy p)
    (hf : s.Faithful answer p) :
    r = needs.mapM (s.met answer p.stack owner) ∧ s.Faithful answer q := by
  match h with
  | .nil => exact ⟨rfl, hf⟩
  | .unresolved hn =>
    obtain ⟨hr, hq⟩ := hn.eq_naive hs hp hf
    rw [List.mapM_cons, met_of_error hr.symm]
    exact ⟨rfl, hq⟩
  | .unsettled hn ht =>
    obtain ⟨hr, hq⟩ := hn.eq_naive hs hp hf
    have ht := (congrArg Prod.fst ht).symm.trans (hs ..)
    rw [List.mapM_cons, met_of_ok hr.symm, ← ht]
    exact ⟨rfl, hq⟩
  | .stopped hn ht hg =>
    obtain ⟨hr, hq⟩ := hn.eq_naive hs hp hf
    have ht := (congrArg Prod.fst ht).symm.trans (hs ..)
    obtain ⟨hr', hq'⟩ := hg.eq_mapM_met hs ((hn.tidy hp).world _) hq
    simp only [hn.stack_eq] at hr'
    rw [List.mapM_cons, met_of_ok hr.symm, ← ht, ← hr']
    exact ⟨rfl, hq'⟩
  | .cons hn ht hg =>
    obtain ⟨hr, hq⟩ := hn.eq_naive hs hp hf
    have ht := (congrArg Prod.fst ht).symm.trans (hs ..)
    obtain ⟨hr', hq'⟩ := hg.eq_mapM_met hs ((hn.tidy hp).world _) hq
    simp only [hn.stack_eq] at hr'
    rw [List.mapM_cons, met_of_ok hr.symm, ← ht, ← hr']
    exact ⟨rfl, hq'⟩

end

end Scope

namespace Resolver

variable {r : Resolver σ} {answer : Value → String → Except Error Value}

theorem Answers.exec_settle (h : r.Answers answer) (owner : Keys) (n : Need) (v : Value)
    (world : σ) :
    (Run.exec (r.settle owner n v) world).1 = Scope.taken answer owner n v := by
  unfold settle Scope.taken
  cases n.query with
  | none => rfl
  | some q => simp only [Run.exec_mapError, h v q world]

theorem Answers.exec_resolveOnce (h : r.Answers answer) (path : String) (world : σ) :
    (Run.exec (r.resolveOnce path) world).1 = r.naive answer [] (r.keys path) := by
  have hv := r.visits_resolve path { world }
  exact (hv.eq_naive h.exec_settle (r.tidy_start world) (by simp [Scope.Faithful])).1

theorem Answers.fst_resolveEach (h : r.Answers answer) (paths : List String) {p : Progress σ}
    (hs : p.stack = []) (hp : r.Tidy p) (hf : r.Faithful answer p) :
    (r.resolveEach paths p).1 = paths.map fun path => r.naive answer [] (r.keys path) := by
  induction paths generalizing p with
  | nil => rfl
  | cons path paths ih =>
    have hv := r.visits_resolve path p
    obtain ⟨ha, hq⟩ := hv.eq_naive h.exec_settle hp hf
    rw [hs] at ha
    rw [resolveEach_cons, List.map_cons, ha, ih (hv.stack_eq.trans hs) (hv.tidy hp) hq]

/-- Any calls of a resolver, one after another, answer what the plain recursion gives for each path
on its own, which is also what a resolver answers that has done nothing before. -/
theorem answers_eq_naive (h : r.Answers answer) (world : σ) (paths : List String) :
    (r.resolveEach paths { world }).1 = paths.map (fun path => r.naive answer [] (r.keys path)) ∧
    ∀ path world', (Run.exec (r.resolveOnce path) world').1 = r.naive answer [] (r.keys path) :=
  ⟨h.fst_resolveEach paths rfl (r.tidy_start world) (by simp [Scope.Faithful]),
    h.exec_resolveOnce⟩

def echo (v : Value) (query : String) : Except Error Value :=
  if query = "@" then .ok v else .error (.queryEval query)

theorem echo_kind {v : Value} {query : String} {e : Error} (h : echo v query = .error e)
    (chain : List String) : e.kind ≠ .circularReference chain := by
  unfold echo at h
  split at h
  · cases h
  · cases h
    exact nofun

/-- Two texts that share a target, one with a query that fails, and a circle beside them. Queries
are counted. -/
def counting : Resolver Nat where
  document := .ofValue <| .mapping
    [("name", .string "x"), ("title", .string "${name} ${name~@~}"),
      ("bad", .string "${title~no~}"),
      ("left", .string "${right}"), ("right", .string "${left}")]
  evaluate v query := Run.ofStep fun n => (echo v query, n + 1)

theorem answers_eq_naive_counting :
    counting.Answers echo ∧
    (counting.resolveEach ["left", "bad", "title", "right"] { world := 0 }).1 =
      [.error (.circularReference "left" ["left", "right", "left"]),
        .error ((Error.queryEval "no").orAt "bad"), .ok (.string "x x"),
        .error (.circularReference "right" ["right", "left", "right"])] := by
  have h : counting.Answers echo := fun _ _ _ => rfl
  refine ⟨h, ?_⟩
  rw [(answers_eq_naive h 0 _).1]
  cbv

end Resolver
end Manifest
