import Manifest.Proofs.Resolver.DepthFirst

/-! Queries are evaluated at most once, in depth-first order, and all references to a node are
substituted from one value, even if what a query gives depends on how often queries were
evaluated. -/
namespace Manifest.Resolver

variable {σ : Type}

def usesIn (r : Resolver σ) (path : String) (p : Progress σ) : List Use :=
  (Run.exec (r.node (recorded r.settle) (r.keys path)) p.unrecorded).2.world.uses

def usesInEach (r : Resolver σ) : List String → Progress σ → List Use
  | [], _ => []
  | path :: paths, p => r.usesIn path p ++ r.usesInEach paths (Run.exec (r.resolve path) p).2

@[simp] theorem usesInEach_nil (r : Resolver σ) (p : Progress σ) : r.usesInEach [] p = [] := rfl

theorem usesInEach_cons (r : Resolver σ) (path : String) (paths : List String) (p : Progress σ) :
    r.usesInEach (path :: paths) p =
      r.usesIn path p ++ r.usesInEach paths (Run.exec (r.resolve path) p).2 := rfl

/-- The same resolver with an evaluator that writes down each query that it is asked, and the value
that it is asked on. -/
def observed (r : Resolver σ) : Resolver (σ × List (Value × String)) where
  toScope := r.toScope
  evaluate v query := Run.ofStep fun t =>
    ((Run.exec (r.evaluate v query) t.1).1, (Run.exec (r.evaluate v query) t.1).2,
      t.2 ++ [(v, query)])

theorem exists_visits_recorded (r : Resolver σ) (path : String) (p : Progress σ) :
    ∃ q, r.Visits (recorded r.settle) (r.keys path) p.unrecorded (Run.exec (r.resolve path) p).1 q ∧
      (Run.exec (r.resolve path) p).2 = q.map Recorded.world ∧ r.usesIn path p = q.world.uses := by
  have hv : r.Visits (recorded r.settle) (r.keys path) p.unrecorded _ _ :=
    Scope.exec_node_eq_iff.mp rfl
  obtain ⟨ha, hq⟩ := hv.unrecord.unique (r.visits_resolve path p)
  exact ⟨_, ha ▸ hv, hq.symm, rfl⟩

theorem exec_settle_observed (r : Resolver σ) (owner : Keys) (n : Need) (v : Value)
    (t : Recorded σ) :
    Run.exec (r.observed.settle owner n v) (t.world, t.uses.filterMap Use.question?) =
      let o := Run.exec (recorded r.settle owner n v) t
      (o.1, o.2.world, o.2.uses.filterMap Use.question?) := by
  rw [exec_recorded]
  unfold settle observed
  cases hq : n.query with
  | none => simp [Use.question?, hq]
  | some query => simp [Use.question?, hq, Run.exec_mapError]

theorem exec_resolve_observed (r : Resolver σ) (path : String) (p : Progress σ) :
    Run.exec (r.observed.resolve path) (p.map (·, [])) =
      ((Run.exec (r.resolve path) p).1,
        (Run.exec (r.resolve path) p).2.map (·, (r.usesIn path p).filterMap Use.question?)) := by
  obtain ⟨q, hv, hq, hu⟩ := r.exists_visits_recorded path p
  rw [hq, hu]
  exact exec_resolve_eq_iff.mpr (hv.map r.exec_settle_observed)

theorem resolveEach_append (r : Resolver σ) (xs ys : List String) (p : Progress σ) :
    (r.resolveEach (xs ++ ys) p).2 = (r.resolveEach ys (r.resolveEach xs p).2).2 := by
  induction xs generalizing p with
  | nil => rfl
  | cons x xs ih => exact ih _

theorem grows_resolveEach (r : Resolver σ) (paths : List String) (p : Progress σ) :
    p.Grows (r.resolveEach paths p).2 :=
  resolveEach_keeps (P := p.Grows) (fun _ _ _ _ hv hp => hp.trans hv.grows) paths (.refl p)

theorem owner_ne_of_done {r : Resolver σ} {path : String} {p : Progress σ} {keys : Keys} {v : Value}
    (h : Assoc.find? keys p.memo = some v) : ∀ u ∈ r.usesIn path p, u.owner ≠ keys := by
  obtain ⟨q, hv, -, hq⟩ := r.exists_visits_recorded path p
  rw [hq]
  rintro u hu rfl
  rcases hv.fresh u hu with hu | ⟨-, hn⟩
  · cases hu
  · cases h.symm.trans hn

theorem exists_find?_of_within {r : Resolver σ} {world : σ} {before after : List String}
    {earlier : String} {keys : Keys} {p q : Progress σ} {v : Value}
    (hw : r.Within r.settle (r.keys earlier, (r.resolveEach before { world }).2) (keys, p))
    (hx : Run.exec (r.node r.settle keys) p = (.ok v, q)) :
    Assoc.find? keys (r.resolveEach (before ++ earlier :: after) { world }).2.memo = some v := by
  have hv := Scope.exec_node_eq_iff.mp hx
  have hb := (r.tidy_resolveEach world before).2
  have hend := hw.grows_end hb (r.visits_resolve earlier _) hv
  rw [resolveEach_append]
  exact r.grows_resolveEach after _ _ _ (hend _ _ hv.find?_eq)

theorem target_of_mem_usesInEach (r : Resolver σ) (paths : List String) {p : Progress σ}
    (hp : r.Tidy p) : ∀ u ∈ r.usesInEach paths p,
      Assoc.find? u.need.keys (r.resolveEach paths p).2.memo = some u.target := by
  induction paths generalizing p with
  | nil => exact List.forall_mem_nil _
  | cons path paths ih =>
    obtain ⟨q, hv, hm, hq⟩ := r.exists_visits_recorded path p
    rw [resolveEach_cons, usesInEach_cons, hq]
    refine List.forall_mem_append.mpr ⟨fun u hu => ?_, ih ((r.visits_resolve path p).tidy hp)⟩
    have hu := hv.targets hp.unrecorded p.forall_uses_unrecorded u hu
    exact r.grows_resolveEach paths _ _ _ (hm ▸ hu)

theorem madeFrom_usesInEach (r : Resolver σ) (paths : List String) (p : Progress σ) (k : Keys)
    (w : Value) (hw : Assoc.find? k (r.resolveEach paths p).2.memo = some w) :
    Assoc.find? k p.memo = some w ∨ r.MadeFrom (r.usesInEach paths p) k w := by
  induction paths generalizing p with
  | nil => exact .inl hw
  | cons path paths ih =>
    obtain ⟨q, hv, hm, hq⟩ := r.exists_visits_recorded path p
    rw [resolveEach_cons] at hw
    rw [usesInEach_cons, hq]
    rcases ih _ hw with hdone | hmade
    · rw [hm] at hdone
      exact (hv.madeFrom k w hdone).imp_right (·.mono (List.subset_append_left ..))
    · exact .inr (hmade.mono (List.subset_append_right ..))

theorem outcome_of_mem_usesIn (r : Resolver σ) (path : String) (p : Progress σ) :
    ∀ u ∈ r.usesIn path p, u.need.query = none → u.outcome = .ok u.target := by
  obtain ⟨q, hv, -, hq⟩ := r.exists_visits_recorded path p
  rw [hq]
  refine hv.forall_uses (P := fun u => u.need.query = none → u.outcome = .ok u.target) ?_
    p.forall_uses_unrecorded
  intro owner n v world hq
  change n.query = none at hq
  simp [settle, hq]

theorem outcome_of_mem_usesInEach (r : Resolver σ) (paths : List String) (p : Progress σ) :
    ∀ u ∈ r.usesInEach paths p, u.need.query = none → u.outcome = .ok u.target := by
  induction paths generalizing p with
  | nil => exact List.forall_mem_nil _
  | cons path paths ih =>
    exact List.forall_mem_append.mpr ⟨r.outcome_of_mem_usesIn path p, ih _⟩

/-- The answers of any calls are remembered in the end. -/
theorem find?_of_mem_zip_answers (r : Resolver σ) (paths : List String) (p : Progress σ)
    {path : String} {v : Value} (h : (path, .ok v) ∈ paths.zip (r.resolveEach paths p).1) :
    Assoc.find? (r.keys path) (r.resolveEach paths p).2.memo = some v := by
  induction paths generalizing p with
  | nil => cases h
  | cons path' paths ih =>
    have hv := r.visits_resolve path' p
    rw [resolveEach_cons, List.zip_cons_cons] at h
    rcases List.mem_cons.mp h with he | h
    · obtain ⟨rfl, ha⟩ := Prod.mk.inj he
      rw [← ha] at hv
      exact r.grows_resolveEach paths _ _ _ hv.find?_eq
    · exact ih _ h

/-- After any calls of a resolver, one more call asks its evaluator just the queries of its uses, in
their order. No two of them are at one place. A node that was resolved in the course of an earlier
call makes no use in this one. All calls so far have substituted one value for all references to a
node, as it is or through a query, and every node with a value is put together from these
substitutions. The uses come in depth-first order through what was not done before: up to the end of
the call if it succeeds, and up to the first failure otherwise, be it of a use or of an inner
call. -/
theorem queries_once (r : Resolver σ) (world : σ) (paths : List String) (path : String) :
    let p := (r.resolveEach paths { world }).2
    let a := (Run.exec (r.resolve path) p).1
    let uses := r.usesIn path p
    Run.exec (r.observed.resolve path) (p.map (·, [])) =
      (a, (Run.exec (r.resolve path) p).2.map (·, uses.filterMap Use.question?)) ∧
    (uses.map Use.place).Nodup ∧
    (∀ before earlier after keys p' v q', paths = before ++ earlier :: after →
      r.Within r.settle (r.keys earlier, (r.resolveEach before { world }).2) (keys, p') →
      Run.exec (r.node r.settle keys) p' = (.ok v, q') → ∀ u ∈ uses, u.owner ≠ keys) ∧
    (∃ value : Keys → Option Value,
      let all := r.usesInEach (paths ++ [path]) { world }
      (∀ u ∈ all, value u.need.keys = some u.target ∧
        (u.need.query = none → u.outcome = .ok u.target)) ∧
      (∀ keys v, value keys = some v → r.MadeFrom all keys v) ∧
      ∀ path' v, (path', .ok v) ∈
        (paths ++ [path]).zip (r.resolveEach (paths ++ [path]) { world }).1 →
        value (r.keys path') = some v) ∧
    (let order := r.depthFirst p.seen [.go (r.keys path)]
     uses.map Use.demand <+: order ∧ ∀ v, a = .ok v → uses.map Use.demand = order) ∧
    (Unfailing uses ∨ ∃ e, a = .error e ∧ FailedLast uses e) ∧
    ∀ keys p' e q', r.Within (recorded r.settle) (r.keys path, p.unrecorded) (keys, p') →
      Run.exec (r.node (recorded r.settle) keys) p' = (.error e, q') →
      a = .error e ∧ q'.world.uses = uses := by
  intro p a uses
  obtain ⟨q, hv, -, hq⟩ := r.exists_visits_recorded path p
  have huses : uses = q.world.uses := hq
  clear_value uses
  refine ⟨huses ▸ hq ▸ r.exec_resolve_observed path p, ?places, ?later, ?value, ?order, ?stop,
    ?inner⟩
  case places =>
    rw [huses]
    exact (hv.single (Scope.single_unrecorded p)).1
  case later =>
    rintro before earlier after keys p' v q' rfl hw hx
    rw [huses, ← hq]
    exact owner_ne_of_done (exists_find?_of_within hw hx)
  case value =>
    refine ⟨fun keys => Assoc.find? keys (r.resolveEach (paths ++ [path]) { world }).2.memo,
      fun u hu => ⟨?_, r.outcome_of_mem_usesInEach _ _ u hu⟩, fun keys v hk => ?_, ?_⟩
    · exact r.target_of_mem_usesInEach _ (r.tidy_start world) u hu
    · exact (r.madeFrom_usesInEach _ _ keys v hk).resolve_left (by simp)
    · exact fun _ _ hm => r.find?_of_mem_zip_answers _ _ hm
  case order =>
    have hadv : Scope.Advances a (uses.map Use.demand)
        (r.depthFirst p.seen [.go (r.keys path)]) (uses.map Use.demand) := by
      rw [huses]
      simpa [Progress.taken, Progress.seen, Progress.unrecorded] using hv.depthFirst []
    exact ⟨hadv.isPrefix, fun v ha => (hadv.eq_of_ok ha).symm⟩
  case stop =>
    rw [huses]
    exact hv.unfailing p.forall_uses_unrecorded
  case inner =>
    intro keys p' e q' hw hx
    obtain ⟨ha, -, hworld⟩ := hw.error hv (Scope.exec_node_eq_iff.mp hx)
    exact ⟨ha, huses ▸ congrArg Recorded.uses hworld.symm⟩

end Manifest.Resolver
