import Manifest.Proofs.Resolver.State

/-! Calls inside calls: what has been done stays done up to the end of every call around, a failure
passes through all of them, and what a call leaves done is what its keys reach. -/
namespace Manifest

variable {σ : Type}

namespace Scope

variable {s : Scope} {settle : Settling σ} {keys keys' : Keys} {p p' q q' : Progress σ}
  {r r' : Except Error Value}

/-- What is done when an inner call ends is still done when the call around it ends. -/
theorem Calls.grows_end (h : s.Calls settle (keys, p) (keys', p')) (hp : s.Tidy p)
    (ho : Visits s settle keys p r q) (hi : Visits s settle keys' p' r' q') : q'.Grows q := by
  have hp' := h.tidy hp
  obtain ⟨n, rest, g, q₁, rfl, hg, hstack, hend⟩ := h.exists_gathers ho
  have hrest : q'.Grows q₁ := by
    cases hg with
    | unresolved hn => rw [(hi.unique hn).2]; exact .refl _
    | unsettled hn _ => rw [(hi.unique hn).2]; exact .refl _
    | stopped hn _ hg => rw [(hi.unique hn).2]; exact hg.grows
    | cons hn _ hg => rw [(hi.unique hn).2]; exact hg.grows
  rcases hend with ⟨e, -, -, rfl⟩ | ⟨parts, v, -, -, rfl⟩
  · exact hrest
  · have hdone : Assoc.find? keys q₁.pop.memo = none := by
      refine (hg.tidy hp').apart keys ?_
      rw [hg.stack_eq, hstack]
      exact List.mem_append_right _ (List.mem_singleton_self _)
    exact hrest.trans ((Progress.Grows.refl q₁.pop).remember hdone v)

/-- A failure of an inner call is one of the call around it, which does nothing more: it adds
nothing to the memory and leaves the world alone. -/
theorem Calls.error (h : s.Calls settle (keys, p) (keys', p')) {e : Error}
    (ho : Visits s settle keys p r q) (hi : Visits s settle keys' p' (.error e) q') :
    r = .error e ∧ q.memo = q'.memo ∧ q.world = q'.world := by
  obtain ⟨n, rest, g, q₁, rfl, hg, -, hend⟩ := h.exists_gathers ho
  have hfail : g = .error e ∧ q₁ = q' := by
    cases hg with
    | unresolved hn => exact ⟨by cases (hi.unique hn).1; rfl, (hi.unique hn).2.symm⟩
    | unsettled hn _ => cases (hi.unique hn).1
    | stopped hn _ _ => cases (hi.unique hn).1
    | cons hn _ _ => cases (hi.unique hn).1
  obtain ⟨rfl, rfl⟩ := hfail
  rcases hend with ⟨e', he, rfl, rfl⟩ | ⟨parts, v, he, -, -⟩
  · cases he
    exact ⟨rfl, rfl, rfl⟩
  · cases he

theorem Within.tidy_grows {a b : Keys × Progress σ} (h : s.Within settle a b) (ha : s.Tidy a.2) :
    s.Tidy b.2 ∧ a.2.Grows b.2 := by
  induction h with
  | refl => exact ⟨ha, .refl _⟩
  | tail _ hc ih => exact ⟨hc.tidy ih.1, ih.2.trans hc.grows⟩

theorem exists_visits_of (s : Scope) (settle : Settling σ) (a : Keys × Progress σ) :
    ∃ r q, Visits s settle a.1 a.2 r q :=
  exists_visits settle (s.start_mem_territory a.1) a.2

theorem Within.grows_end {a b : Keys × Progress σ} (h : s.Within settle a b) (ha : s.Tidy a.2)
    (ho : Visits s settle a.1 a.2 r q) (hi : Visits s settle b.1 b.2 r' q') : q'.Grows q := by
  induction h generalizing r' q' with
  | refl => rw [(ho.unique hi).2]; exact .refl _
  | @tail b c hw hc ih =>
    obtain ⟨r₁, q₁, hb⟩ := exists_visits_of s settle b
    exact (hc.grows_end (Within.tidy_grows hw ha).1 hb hi).trans (ih hb)

theorem Within.error {a b : Keys × Progress σ} {e : Error} (h : s.Within settle a b)
    (ho : Visits s settle a.1 a.2 r q) (hi : Visits s settle b.1 b.2 (.error e) q') :
    r = .error e ∧ q.memo = q'.memo ∧ q.world = q'.world := by
  induction h generalizing q' with
  | refl => rw [(ho.unique hi).1, (ho.unique hi).2]; exact ⟨rfl, rfl, rfl⟩
  | @tail b c _ hc ih =>
    obtain ⟨r₁, q₁, hb⟩ := exists_visits_of s settle b
    obtain ⟨rfl, hm, hw⟩ := hc.error hb hi
    obtain ⟨he, hm', hw'⟩ := ih hb
    exact ⟨he, hm'.trans hm, hw'.trans hw⟩

mutual

theorem Visits.reaches {keys : Keys} {p q : Progress σ} {r : Except Error Value}
    (h : Visits s settle keys p r q) :
    ∀ k ∈ q.memo.map Prod.fst, k ∈ p.memo.map Prod.fst ∨ s.Reaches keys k := by
  match h with
  | .circle _ | .done .. | .missing .. => exact fun _ hk => .inl hk
  | .failed _ _ hv hg =>
    intro k hk
    exact (hg.reaches k hk).imp_right fun ⟨n, hn, hr⟩ => .head (.of_need hv hn) hr
  | .built _ _ hv hg =>
    intro k hk
    rcases Assoc.mem_keys_put.mp hk with rfl | hk
    · exact .inr .refl
    · exact (hg.reaches k hk).imp_right fun ⟨n, hn, hr⟩ => .head (.of_need hv hn) hr

theorem Gathers.reaches {owner : Keys} {needs : List Need} {p q : Progress σ}
    {r : Except Error (List Value)} (h : Gathers s settle owner needs p r q) :
    ∀ k ∈ q.memo.map Prod.fst,
      k ∈ p.memo.map Prod.fst ∨ ∃ n ∈ needs, s.Reaches n.keys k := by
  match h with
  | .nil => exact fun _ hk => .inl hk
  | .unresolved hn | .unsettled hn _ =>
    intro k hk
    exact (hn.reaches k hk).imp_right fun hr => ⟨_, List.mem_cons_self .., hr⟩
  | .stopped hn _ hg | .cons hn _ hg =>
    intro k hk
    rcases hg.reaches k hk with hk | ⟨n, hm, hr⟩
    · exact (hn.reaches k hk).imp_right fun hr => ⟨_, List.mem_cons_self .., hr⟩
    · exact .inr ⟨n, List.mem_cons_of_mem _ hm, hr⟩

end

/-- The nodes done by a call that starts with none done are those that its keys reach. -/
theorem Visits.encard_reaches {world : σ} {v : Value}
    (h : Visits s settle keys { world } (.ok v) q) :
    {k | s.Reaches keys k}.encard = q.size := by
  have hq := h.tidy (s.tidy_start world)
  have hset : {k | s.Reaches keys k} = ((q.memo.map Prod.fst).toFinset : Set Keys) := by
    ext k
    rw [Finset.mem_coe, List.mem_toFinset]
    constructor
    · intro hr
      obtain ⟨w, hw⟩ := hq.reaches h.find?_eq hr
      exact List.mem_map_of_mem (Assoc.mem_of_find? hw)
    · intro hk
      exact (h.reaches k hk).resolve_left (by simp)
  rw [hset, Set.encard_coe_eq_coe_finsetCard, List.toFinset_card_of_nodup hq.once, List.length_map]
  rfl

end Scope

namespace Resolver

/-- Between calls nothing is in progress, and the invariant holds. -/
theorem tidy_resolveEach (r : Resolver σ) (world : σ) (paths : List String) :
    (r.resolveEach paths { world }).2.stack = [] ∧ r.Tidy (r.resolveEach paths { world }).2 := by
  refine resolveEach_keeps (P := fun p => p.stack = [] ∧ r.Tidy p) ?_ paths
    ⟨rfl, r.tidy_start world⟩
  intro path p a q hv hp
  exact ⟨hv.stack_eq.trans hp.1, hv.tidy hp.2⟩

/-- After any calls of a resolver, in the course of one more: whenever a call for some keys starts
or ends the progress is tidy; a call leaves the stack as it found it; what is done stays done, from
the start of the outermost call to the end of each; a call that fails makes all calls around it
fail, and leaves the keys of all of them undone. A call that succeeds with nothing done before it
leaves done as many nodes as its keys reach. -/
theorem progress_invariant (r : Resolver σ) (world : σ) (paths : List String) (path : String) :
    let p := (r.resolveEach paths { world }).2
    p.stack = [] ∧
    (∀ keys a b q, r.Within r.settle (r.keys path, p) (keys, a) →
      Run.exec (r.node r.settle keys) a = (b, q) →
      r.Tidy a ∧ r.Tidy q ∧ q.stack = a.stack ∧ p.Grows a ∧
      (∀ e, b = .error e → ∀ k ∈ a.stack ++ [keys], Assoc.find? k q.memo = none) ∧
      ∀ keys' a' b' q', r.Within r.settle (keys, a) (keys', a') →
        Run.exec (r.node r.settle keys') a' = (b', q') →
        a.Grows a' ∧ a'.Grows q' ∧ q'.Grows q ∧
        ∀ e, b' = .error e → b = .error e ∧ Assoc.find? keys' q.memo = none) ∧
    ∀ v q, Run.exec (r.resolve path) { world } = (.ok v, q) →
      {k | r.Reaches (r.keys path) k}.encard = q.size := by
  intro p
  obtain ⟨hstack, hp⟩ := r.tidy_resolveEach world paths
  refine ⟨hstack, ?_, fun v q h => (exec_resolve_eq_iff.mp h).encard_reaches⟩
  intro keys a b q hw hx
  have hv := Scope.exec_node_eq_iff.mp hx
  obtain ⟨ha, hg⟩ := Scope.Within.tidy_grows hw hp
  refine ⟨ha, hv.tidy ha, hv.stack_eq, hg, ?_, ?_⟩
  · rintro e rfl
    exact hv.find?_eq_none ha
  · intro keys' a' b' q' hw' hx'
    have hv' := Scope.exec_node_eq_iff.mp hx'
    obtain ⟨ha', hg'⟩ := Scope.Within.tidy_grows hw' ha
    refine ⟨hg', hv'.grows, Scope.Within.grows_end hw' ha hv hv', ?_⟩
    rintro e rfl
    obtain ⟨rfl, hm, -⟩ := Scope.Within.error hw' hv hv'
    refine ⟨rfl, ?_⟩
    rw [hm]
    exact hv'.find?_eq_none ha' keys' (List.mem_append_right _ (List.mem_singleton_self _))

end Resolver
end Manifest
