import Manifest.Proofs.Resolver.Call
import Manifest.Proofs.Resolver.Reference

/-! How deep calls go. The keys in progress differ from one another and are all of the reserve of
the start, so there are never more of them than the reserve holds. -/
namespace Manifest

variable {σ : Type}

namespace Scope

variable {s : Scope} {settle : Settling σ} {start keys keys' : Keys} {p q : Progress σ}

/-- The keys of a call and those in progress belong to the reserve of the start. -/
structure Reserved (s : Scope) (start : Keys) (call : Keys × Progress σ) : Prop where
  nodup : call.2.stack.Nodup
  keys : s.Reserve start call.1
  stack : ∀ keys ∈ call.2.stack, s.Reserve start keys

theorem reserved_start (hp : p.stack = []) : s.Reserved start (start, p) where
  nodup := by simp [hp]
  keys := .start
  stack := by simp [hp]

theorem Reserved.calls (h : s.Reserved start (keys, p))
    (hc : s.Calls settle (keys, p) (keys', q)) : s.Reserved start (keys', q) := by
  cases hc with
  | @intro _ _ _ v met rest n parts hs hm hv hn hg =>
    have hstack : q.stack = p.stack ++ [keys] := hg.stack_eq
    have hmem : n ∈ s.needs keys v := by rw [hn]; simp
    refine ⟨?_, h.keys.edge (.of_need hv hmem), ?_⟩
    · rw [hstack]
      exact nodup_concat h.nodup hs
    · rw [hstack]
      exact forall_mem_concat h.stack h.keys

theorem Reserved.within {a b : Keys × Progress σ} (h : s.Reserved start a)
    (hw : s.Within settle a b) : s.Reserved start b := by
  induction hw with
  | refl => exact h
  | tail _ hc ih => exact ih.calls hc

theorem length_le_ncard_reserve {ks : List Keys} (hd : ks.Nodup)
    (h : ∀ keys ∈ ks, s.Reserve start keys) : ks.length ≤ {k | s.Reserve start k}.ncard := by
  calc ks.length = ks.toFinset.card := (List.toFinset_card_of_nodup hd).symm
    _ = ((ks.toFinset : Finset Keys) : Set Keys).ncard := (Set.ncard_coe_finset _).symm
    _ ≤ {k | s.Reserve start k}.ncard := by
      refine Set.ncard_le_ncard ?_ (s.finite_reserve start)
      intro k hk
      exact h k (List.mem_toFinset.mp (Finset.mem_coe.mp hk))

theorem Reserved.length_le (h : s.Reserved start (keys, p)) :
    p.stack.length ≤ {k | s.Reserve start k}.ncard ∧
      (keys ∉ p.stack → (p.push keys).stack.length ≤ {k | s.Reserve start k}.ncard) := by
  refine ⟨length_le_ncard_reserve h.nodup h.stack, fun hs => ?_⟩
  exact length_le_ncard_reserve (nodup_concat h.nodup hs) (forall_mem_concat h.stack h.keys)

end Scope

namespace Resolver

/-- Between calls nothing is in progress. -/
theorem stack_resolveEach (r : Resolver σ) (paths : List String) (world : σ) :
    (r.resolveEach paths { world }).2.stack = [] :=
  resolveEach_keeps (P := fun p => p.stack = [])
    (fun _ _ _ _ hv hp => hv.stack_eq.trans hp) paths rfl

/-- After any calls of a resolver, one more comes to an end, whatever circles there are and whatever
the queries do; and all the while there are no more keys in progress than the start, the targets of
placeholders in texts of the document and the addresses below them are, of which there are finitely
many. -/
theorem resolve_terminates (r : Resolver σ) (world : σ) (paths : List String) (path : String) :
    let p := (r.resolveEach paths { world }).2
    let reserve := {keys | r.Reserve (r.keys path) keys}
    (∃ a q, r.visit r.settle (r.keys path) p = some (a, q)) ∧
    reserve.Finite ∧
    ∀ keys q, r.Within r.settle (r.keys path, p) (keys, q) →
      q.stack.length ≤ reserve.ncard ∧
      (keys ∉ q.stack → (q.push keys).stack.length ≤ reserve.ncard) := by
  intro p reserve
  refine ⟨?_, r.finite_reserve _, ?_⟩
  · obtain ⟨a, q, h⟩ :=
      Scope.exists_visits r.settle (r.start_mem_territory (r.keys path)) p
    exact ⟨a, q, Scope.visit_of_visits h⟩
  · intro keys q hw
    exact ((Scope.reserved_start (r.stack_resolveEach paths world)).within hw).length_le

end Resolver
end Manifest
