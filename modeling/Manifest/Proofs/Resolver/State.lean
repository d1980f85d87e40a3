import Manifest.Proofs.Resolver.Call
import Manifest.Proofs.Resolver.Reference

/-! What holds of a resolver's progress whenever a call starts or ends. The stack and the memory
keep apart, and the memory is closed under references. -/
namespace Manifest

variable {σ : Type}

/-- Nothing that is done is forgotten or changed. -/
def Progress.Grows (p q : Progress σ) : Prop :=
  ∀ keys v, Assoc.find? keys p.memo = some v → Assoc.find? keys q.memo = some v

theorem Progress.Grows.refl (p : Progress σ) : p.Grows p := fun _ _ h => h

theorem Progress.Grows.trans {p q q' : Progress σ} (h : p.Grows q) (h' : q.Grows q') : p.Grows q' :=
  fun keys v hv => h' keys v (h keys v hv)

theorem Progress.Grows.find?_eq_none {p q : Progress σ} {keys : Keys} (h : p.Grows q)
    (hq : Assoc.find? keys q.memo = none) : Assoc.find? keys p.memo = none := by
  cases hp : Assoc.find? keys p.memo with
  | none => rfl
  | some v => rw [h keys v hp] at hq; cases hq

theorem Progress.Grows.remember {p q : Progress σ} {keys : Keys} (hg : p.Grows q)
    (h : Assoc.find? keys p.memo = none) (v : Value) : p.Grows (q.remember keys v) := by
  intro k w hw
  have hne : keys ≠ k := by
    rintro rfl
    cases h.symm.trans hw
  rw [remember_memo, Assoc.find?_put_ne hne]
  exact hg k w hw

namespace Scope

variable {s : Scope} {settle : Settling σ} {keys keys' : Keys} {p q : Progress σ}

mutual

theorem Visits.grows {keys : Keys} {p q : Progress σ} {r : Except Error Value}
    (h : Visits s settle keys p r q) : p.Grows q := by
  match h with
  | .circle _ | .done .. | .missing .. => exact .refl p
  | .failed _ _ _ hg => exact hg.grows
  | .built _ hm _ hg => exact Progress.Grows.remember hg.grows hm _

theorem Gathers.grows {owner : Keys} {needs : List Need} {p q : Progress σ}
    {r : Except Error (List Value)} (h : Gathers s settle owner needs p r q) : p.Grows q := by
  match h with
  | .nil => exact .refl p
  | .unresolved hn => exact hn.grows
  | .unsettled hn _ => exact hn.grows
  | .stopped hn _ hg => exact hn.grows.trans hg.grows
  | .cons hn _ hg => exact hn.grows.trans hg.grows

end

/-- The invariant of a resolver's progress. -/
structure Tidy (s : Scope) (p : Progress σ) : Prop where
  nodup : p.stack.Nodup
  apart : ∀ keys ∈ p.stack, Assoc.find? keys p.memo = none
  once : (p.memo.map Prod.fst).Nodup
  there : ∀ keys v, Assoc.find? keys p.memo = some v → ∃ w, s.document.root.getIn keys = .ok w
  closed : ∀ keys v keys', Assoc.find? keys p.memo = some v → s.Edge keys keys' →
    ∃ w, Assoc.find? keys' p.memo = some w

theorem tidy_start (s : Scope) (world : σ) : s.Tidy { world } where
  nodup := List.nodup_nil
  apart := by simp
  once := List.nodup_nil
  there := by simp
  closed := by simp

theorem Tidy.push (h : s.Tidy p) (hs : keys ∉ p.stack) (hm : Assoc.find? keys p.memo = none) :
    s.Tidy (p.push keys) where
  nodup := nodup_concat h.nodup hs
  apart := forall_mem_concat h.apart hm
  once := h.once
  there := h.there
  closed := h.closed

theorem Tidy.world (h : s.Tidy p) (world : σ) : s.Tidy { p with world } :=
  ⟨h.nodup, h.apart, h.once, h.there, h.closed⟩

theorem Tidy.pop (h : s.Tidy p) : s.Tidy p.pop where
  nodup := h.nodup.sublist (List.dropLast_sublist _)
  apart := fun k hk => h.apart k (List.mem_of_mem_dropLast hk)
  once := h.once
  there := h.there
  closed := h.closed

theorem Tidy.remember {v w : Value} (h : s.Tidy p) (hs : keys ∉ p.stack)
    (hm : Assoc.find? keys p.memo = none) (hv : s.document.root.getIn keys = .ok v)
    (hr : ∀ keys', s.Edge keys keys' → ∃ w, Assoc.find? keys' p.memo = some w) :
    s.Tidy (p.remember keys w) where
  nodup := h.nodup
  apart := by
    intro k hk
    have hne : keys ≠ k := by rintro rfl; exact hs hk
    rw [Progress.remember_memo, Assoc.find?_put_ne hne]
    exact h.apart k hk
  once := Assoc.nodup_put h.once
  there := by
    intro k u hu
    by_cases hk : keys = k
    · exact ⟨v, hk ▸ hv⟩
    · rw [Progress.remember_memo, Assoc.find?_put_ne hk] at hu
      exact h.there k u hu
  closed := by
    intro k u k' hu he
    have hk' : ∃ w, Assoc.find? k' p.memo = some w := by
      by_cases hk : keys = k
      · exact hr k' (hk ▸ he)
      · rw [Progress.remember_memo, Assoc.find?_put_ne hk] at hu
        exact h.closed k u k' hu he
    obtain ⟨x, hx⟩ := hk'
    exact ⟨x, (Progress.Grows.refl p).remember hm w k' x hx⟩

theorem Tidy.reaches {v : Value} (hp : s.Tidy p) (hv : Assoc.find? keys p.memo = some v)
    (h : s.Reaches keys keys') : ∃ w, Assoc.find? keys' p.memo = some w := by
  induction h with
  | refl => exact ⟨v, hv⟩
  | tail _ he ih =>
    obtain ⟨w, hw⟩ := ih
    exact hp.closed _ w _ hw he

theorem Tidy.notMem_of_reaches {v : Value} (hp : s.Tidy p)
    (hv : Assoc.find? keys p.memo = some v) (hr : s.Reaches keys keys') : keys' ∉ p.stack := by
  obtain ⟨w, hw⟩ := hp.reaches hv hr
  intro hm
  cases (hp.apart keys' hm).symm.trans hw

theorem Visits.find?_eq {v : Value} (h : Visits s settle keys p (.ok v) q) :
    Assoc.find? keys q.memo = some v := by
  cases h with
  | done _ hm => exact hm
  | built => simp

theorem Gathers.exists_find? {owner : Keys} {needs : List Need} {p q : Progress σ}
    {parts : List Value} (h : Gathers s settle owner needs p (.ok parts) q) :
    ∀ n ∈ needs, ∃ w, Assoc.find? n.keys q.memo = some w := by
  induction needs generalizing p parts with
  | nil => simp
  | cons n needs ih =>
    cases h with
    | cons hn hs hg =>
      intro m hm
      rcases List.mem_cons.mp hm with rfl | hm
      · exact ⟨_, hg.grows _ _ hn.find?_eq⟩
      · exact ih hg m hm

mutual

/-- The invariant outlives every call, whether it succeeds or fails. -/
theorem Visits.tidy {keys : Keys} {p q : Progress σ} {r : Except Error Value}
    (h : Visits s settle keys p r q) (hp : s.Tidy p) : s.Tidy q := by
  match h with
  | .circle _ | .done .. | .missing .. => exact hp
  | .failed hs hm _ hg => exact (hg.tidy (hp.push hs hm)).pop
  | .built (q := q) hs hm hv hg =>
    have hq := hg.tidy (hp.push hs hm)
    have hstack : q.stack = p.stack ++ [keys] := hg.stack_eq
    refine hq.pop.remember (by simpa [hstack] using hs) (hq.apart keys (by simp [hstack])) hv ?_
    intro k hk
    obtain ⟨n, hn, rfl⟩ := (edge_iff_exists_need hv).mp hk
    exact hg.exists_find? n hn

theorem Gathers.tidy {owner : Keys} {needs : List Need} {p q : Progress σ}
    {r : Except Error (List Value)} (h : Gathers s settle owner needs p r q) (hp : s.Tidy p) :
    s.Tidy q := by
  match h with
  | .nil => exact hp
  | .unresolved hn => exact hn.tidy hp
  | .unsettled hn _ => exact (hn.tidy hp).world _
  | .stopped hn _ hg => exact hg.tidy ((hn.tidy hp).world _)
  | .cons hn _ hg => exact hg.tidy ((hn.tidy hp).world _)

end

theorem Calls.tidy (h : s.Calls settle (keys, p) (keys', q)) (hp : s.Tidy p) : s.Tidy q := by
  cases h with
  | intro hs hm _ _ hg => exact hg.tidy (hp.push hs hm)

theorem Calls.grows (h : s.Calls settle (keys, p) (keys', q)) : p.Grows q := by
  cases h with
  | intro _ _ _ _ hg => exact hg.grows

theorem Visits.find?_eq_none {e : Error} (h : Visits s settle keys p (.error e) q) (hp : s.Tidy p) :
    ∀ k ∈ p.stack ++ [keys], Assoc.find? k q.memo = none := by
  have hstack := h.stack_eq
  have hq := h.tidy hp
  have hkeys : Assoc.find? keys q.memo = none := by
    cases h with
    | circle h => exact hp.apart keys h
    | missing _ hm _ => exact hm
    | failed hs hm _ hg =>
      exact (hg.tidy (hp.push hs hm)).apart keys (by simp [hg.stack_eq])
  exact forall_mem_concat (fun k hk => hq.apart k (hstack ▸ hk)) hkeys

end Scope
end Manifest
