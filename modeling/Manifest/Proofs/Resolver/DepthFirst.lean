import Manifest.Proofs.Resolver.Record
import Mathlib.Data.Finset.Basic
import Mathlib.Data.Set.Finite.Lattice

/-! The order of uses: that of a depth-first walk along references, children and placeholders from
left to right, which the document alone determines. -/
namespace Manifest.Scope

/-- What is left to do on a walk: to go to the node at some keys, or to take up a need of a node
that the walk has come back to. -/
inductive Stop
  | go (keys : Keys)
  | take (owner : Keys) (need : Need)

/-- The walk through the needs of a node: to each of them, and back to take it up. -/
def stops (owner : Keys) (needs : List Need) : List Stop :=
  needs.flatMap fun n => [.go n.keys, .take owner n]

@[simp] theorem stops_nil (owner : Keys) : stops owner [] = [] := rfl

@[simp] theorem stops_cons (owner : Keys) (n : Need) (needs : List Need) :
    stops owner (n :: needs) = .go n.keys :: .take owner n :: stops owner needs := rfl

theorem go_mem_stops {owner keys : Keys} {needs : List Need} :
    .go keys ∈ stops owner needs ↔ ∃ n ∈ needs, n.keys = keys := by
  simp [stops, eq_comm]

variable {s : Scope} {keys : Keys} {v : Value}

noncomputable def ahead (s : Scope) (seen : Finset Keys) (walk : List Stop) : Nat :=
  ({k | ∃ start, .go start ∈ walk ∧ s.Reserve start k} \ {k | k ∈ seen}).ncard

theorem finite_ahead (s : Scope) (seen : Finset Keys) (walk : List Stop) :
    ({k | ∃ start, .go start ∈ walk ∧ s.Reserve start k} \ {k | k ∈ seen}).Finite := by
  refine Set.Finite.subset (s := ⋃ start ∈ {k | .go k ∈ walk}, {k | s.Reserve start k}) ?_ ?_
  · refine Set.Finite.biUnion ?_ fun start _ => s.finite_reserve start
    refine ((walk.filterMap fun | .go k => some k | .take _ _ => none).finite_toSet).subset ?_
    intro k hk
    exact List.mem_filterMap.mpr ⟨_, hk, rfl⟩
  · rintro k ⟨⟨start, hs, hk⟩, -⟩
    exact Set.mem_biUnion hs hk

theorem ahead_le {seen seen' : Finset Keys} {stop : Stop} {walk : List Stop} (h : seen ⊆ seen') :
    s.ahead seen' walk ≤ s.ahead seen (stop :: walk) := by
  refine Set.ncard_le_ncard ?_ (s.finite_ahead seen _)
  rintro k ⟨⟨start, hs, hk⟩, hn⟩
  exact ⟨⟨start, List.mem_cons_of_mem _ hs, hk⟩, fun hk' => hn (h hk')⟩

theorem ahead_lt {seen : Finset Keys} {walk : List Stop} (h : keys ∉ seen)
    (hv : s.document.root.getIn keys = .ok v) :
    s.ahead (insert keys seen) (stops keys (s.needs keys v) ++ walk) <
      s.ahead seen (.go keys :: walk) := by
  refine Set.ncard_lt_ncard ?_ (s.finite_ahead seen _)
  refine Set.ssubset_iff_of_subset ?_ |>.mpr
    ⟨keys, ⟨⟨keys, List.mem_cons_self .., .start⟩, h⟩, fun hk => hk.2 (Finset.mem_insert_self ..)⟩
  rintro k ⟨⟨start, hs, hk⟩, hn⟩
  refine ⟨?_, fun hk' => hn (Finset.mem_insert_of_mem hk')⟩
  rcases List.mem_append.mp hs with hs | hs
  · obtain ⟨n, hneed, rfl⟩ := go_mem_stops.mp hs
    exact ⟨keys, List.mem_cons_self .., hk.of_edge (.of_need hv hneed)⟩
  · exact ⟨start, List.mem_cons_of_mem _ hs, hk⟩

/-- The needs that a depth-first walk takes up, each with its owner. Nodes that have been seen are
not entered again, and where there is no node there is nothing to take up. -/
def depthFirst (s : Scope) (seen : Finset Keys) : List Stop → List (Keys × Need)
  | [] => []
  | .take owner n :: walk => (owner, n) :: s.depthFirst seen walk
  | .go keys :: walk =>
    if _hs : keys ∈ seen then s.depthFirst seen walk
    else
      match _hv : s.document.root.getIn keys with
      | .error _ => s.depthFirst (insert keys seen) walk
      | .ok v => s.depthFirst (insert keys seen) (stops keys (s.needs keys v) ++ walk)
termination_by walk => (s.ahead seen walk, walk.length)
decreasing_by
  · exact Prod.Lex.right' _ (ahead_le (Finset.Subset.refl _)) (Nat.lt_succ_self _)
  · exact Prod.Lex.right' _ (ahead_le (Finset.Subset.refl _)) (Nat.lt_succ_self _)
  · exact Prod.Lex.right' _ (ahead_le (Finset.subset_insert _ _)) (Nat.lt_succ_self _)
  · exact .left _ _ (ahead_lt _hs _hv)

@[simp] theorem depthFirst_nil (s : Scope) (seen : Finset Keys) : s.depthFirst seen [] = [] := by
  rw [depthFirst]

@[simp] theorem depthFirst_take (s : Scope) (seen : Finset Keys) (owner : Keys) (n : Need)
    (walk : List Stop) :
    s.depthFirst seen (.take owner n :: walk) = (owner, n) :: s.depthFirst seen walk := by
  rw [depthFirst]

theorem depthFirst_go_seen {seen : Finset Keys} {walk : List Stop} (h : keys ∈ seen) :
    s.depthFirst seen (.go keys :: walk) = s.depthFirst seen walk := by
  rw [depthFirst, dif_pos h]

theorem depthFirst_go_new {seen : Finset Keys} {walk : List Stop} (h : keys ∉ seen)
    (hv : s.document.root.getIn keys = .ok v) :
    s.depthFirst seen (.go keys :: walk) =
      s.depthFirst (insert keys seen) (stops keys (s.needs keys v) ++ walk) := by
  rw [depthFirst, dif_neg h]
  split
  · rename_i e he
    rw [hv] at he; cases he
  · rename_i w hw
    cases Except.ok.inj (hv.symm.trans hw)
    rfl

end Manifest.Scope

namespace Manifest

variable {σ : Type}

namespace Progress

def seen (p : Progress σ) : Finset Keys := (p.stack ++ p.memo.map Prod.fst).toFinset

theorem mem_seen {p : Progress σ} {keys : Keys} :
    keys ∈ p.seen ↔ keys ∈ p.stack ∨ keys ∈ p.memo.map Prod.fst := by
  simp [seen]

theorem notMem_seen {p : Progress σ} {keys : Keys} (hs : keys ∉ p.stack)
    (hm : Assoc.find? keys p.memo = none) : keys ∉ p.seen := by
  rw [mem_seen, not_or]
  exact ⟨hs, (Assoc.find?_eq_none_iff keys p.memo).mp hm⟩

theorem seen_push (p : Progress σ) (keys : Keys) : (p.push keys).seen = insert keys p.seen := by
  ext k
  simp only [mem_seen, Finset.mem_insert, push_stack, push_memo, List.mem_append,
    List.mem_singleton]
  tauto

theorem seen_remember {q : Progress σ} {stack : List Keys} {keys : Keys}
    (hstack : q.stack = stack ++ [keys]) (v : Value) : (q.pop.remember keys v).seen = q.seen := by
  ext k
  simp only [mem_seen, remember_stack, remember_memo, pop_stack, pop_memo, hstack,
    List.dropLast_concat, Assoc.mem_keys_put, List.mem_append, List.mem_singleton]
  tauto

def taken (p : Progress (Recorded σ)) : List (Keys × Need) := p.world.uses.map Use.demand

end Progress

namespace Scope

variable {s : Scope} {settle : Settling σ}

theorem taken_of_exec_recorded {owner : Keys} {n : Need} {v : Value} {q : Progress (Recorded σ)}
    {world : Recorded σ} {outcome : Except Error Value}
    (hs : Run.exec (recorded settle owner n v) q.world = (outcome, world)) :
    ({ q with world } : Progress (Recorded σ)).taken = q.taken ++ [(owner, n)] := by
  simp only [Progress.taken, uses_of_exec_recorded hs, List.map_append]
  rfl

theorem taken_append_depthFirst {owner : Keys} {n : Need} {v : Value} {q : Progress (Recorded σ)}
    {world : Recorded σ} {outcome : Except Error Value}
    (hs : Run.exec (recorded settle owner n v) q.world = (outcome, world)) (walk : List Stop) :
    q.taken ++ s.depthFirst q.seen (.take owner n :: walk) =
      ({ q with world } : Progress (Recorded σ)).taken ++
        s.depthFirst ({ q with world } : Progress (Recorded σ)).seen walk := by
  rw [depthFirst_take, taken_of_exec_recorded hs, List.append_assoc]
  rfl

/-- How far a walk has come when a call ends: past the call if that succeeds, and no further than to
where it failed otherwise. `before` and `after` are what the walk takes up in all, as it stands when
the call starts and when it ends. -/
def Advances {α : Type} (r : Except Error α) (taken before after : List (Keys × Need)) : Prop :=
  match r with
  | .ok _ => before = after
  | .error _ => taken <+: before

section

variable {α : Type} {r : Except Error α} {taken before before' after : List (Keys × Need)}

theorem Advances.of_eq (h : before = before') (ha : Advances r taken before' after) :
    Advances r taken before after := h ▸ ha

/-- On a walk that ends with the call, what has been taken up is in front of all that there was to
take up, and is all of that if the call succeeds. -/
theorem Advances.isPrefix (h : Advances r taken before taken) : taken <+: before := by
  cases r with
  | ok v => exact (show before = taken from h) ▸ List.prefix_refl _
  | error e => exact h

theorem Advances.eq_of_ok {v : α} (h : Advances r taken before after) (hr : r = .ok v) :
    before = after := by
  subst hr
  exact h

end

mutual

/-- What has been taken up and what a walk from here takes up still: a call that succeeds moves
needs from the second to the first. -/
theorem Visits.depthFirst {keys : Keys} {p q : Progress (Recorded σ)} {r : Except Error Value}
    (h : Visits s (recorded settle) keys p r q) (walk : List Stop) :
    Advances r q.taken (p.taken ++ s.depthFirst p.seen (.go keys :: walk))
      (q.taken ++ s.depthFirst q.seen walk) := by
  match h with
  | .circle _ | .missing .. => exact List.prefix_append ..
  | .done _ hm =>
    have hseen : keys ∈ p.seen :=
      Progress.mem_seen.mpr (.inr (List.mem_map_of_mem (Assoc.mem_of_find? hm)))
    exact congrArg (p.taken ++ ·) (depthFirst_go_seen hseen)
  | .failed hs hm hv hg =>
    rw [depthFirst_go_new (Progress.notMem_seen hs hm) hv, ← Progress.seen_push]
    exact hg.depthFirst walk
  | .built hs hm hv hg =>
    rw [depthFirst_go_new (Progress.notMem_seen hs hm) hv, ← Progress.seen_push,
      Progress.seen_remember hg.stack_eq]
    exact hg.depthFirst walk

theorem Gathers.depthFirst {owner : Keys} {needs : List Need} {p q : Progress (Recorded σ)}
    {r : Except Error (List Value)} (h : Gathers s (recorded settle) owner needs p r q)
    (walk : List Stop) :
    Advances r q.taken (p.taken ++ s.depthFirst p.seen (stops owner needs ++ walk))
      (q.taken ++ s.depthFirst q.seen walk) := by
  match h with
  | .nil => exact rfl
  | .unresolved hn => exact hn.depthFirst (.take owner _ :: stops owner _ ++ walk)
  | .unsettled hn hs =>
    refine .of_eq ((hn.depthFirst (.take owner _ :: (stops owner _ ++ walk))).trans
      (taken_append_depthFirst hs _)) ?_
    exact List.prefix_append ..
  | .stopped hn hs hg | .cons hn hs hg =>
    refine .of_eq ((hn.depthFirst (.take owner _ :: (stops owner _ ++ walk))).trans
      (taken_append_depthFirst hs _)) ?_
    exact hg.depthFirst walk

end

end Scope
end Manifest
