import Manifest.Resolver
import Mathlib.Data.List.Nodup
import Mathlib.Logic.Relation

/-! The calls of a resolver: one after another with the same progress, and inside one another. -/
namespace Manifest

theorem nodup_concat {α : Type} {xs : List α} {x : α} (hd : xs.Nodup) (hs : x ∉ xs) :
    (xs ++ [x]).Nodup := by
  rw [← List.concat_eq_append]
  exact hd.concat hs

theorem forall_mem_concat {stack : List Keys} {keys : Keys} {P : Keys → Prop}
    (h : ∀ k ∈ stack, P k) (hk : P keys) : ∀ k ∈ stack ++ [keys], P k :=
  List.forall_mem_append.mpr ⟨h, List.forall_mem_singleton.mpr hk⟩

namespace Resolver

variable {σ : Type}

/-- One path after another with the same resolver: the answers, and the progress in the end. -/
def resolveEach (r : Resolver σ) : List String → Progress σ → List (Except Error Value) × Progress σ
  | [], p => ([], p)
  | path :: paths, p =>
    let (a, q) := Run.exec (r.resolve path) p
    let (as, q') := r.resolveEach paths q
    (a :: as, q')

@[simp] theorem resolveEach_nil (r : Resolver σ) (p : Progress σ) :
    r.resolveEach [] p = ([], p) := rfl

theorem resolveEach_cons (r : Resolver σ) (path : String) (paths : List String) (p : Progress σ) :
    r.resolveEach (path :: paths) p =
      ((Run.exec (r.resolve path) p).1 :: (r.resolveEach paths (Run.exec (r.resolve path) p).2).1,
        (r.resolveEach paths (Run.exec (r.resolve path) p).2).2) := rfl

theorem exec_resolve_eq_iff {r : Resolver σ} {path : String} {p q : Progress σ}
    {a : Except Error Value} :
    Run.exec (r.resolve path) p = (a, q) ↔ r.Visits r.settle (r.keys path) p a q :=
  Scope.exec_node_eq_iff

theorem visits_resolve (r : Resolver σ) (path : String) (p : Progress σ) :
    r.Visits r.settle (r.keys path) p (Run.exec (r.resolve path) p).1
      (Run.exec (r.resolve path) p).2 := exec_resolve_eq_iff.mp rfl

/-- What every call keeps holds after any calls. -/
theorem resolveEach_keeps {r : Resolver σ} {P : Progress σ → Prop}
    (hP : ∀ path p a q, r.Visits r.settle (r.keys path) p a q → P p → P q)
    (paths : List String) {p : Progress σ} (hp : P p) : P (r.resolveEach paths p).2 := by
  induction paths generalizing p with
  | nil => exact hp
  | cons path paths ih => exact ih (hP path p _ _ (r.visits_resolve path p) hp)

end Resolver

namespace Scope

variable {σ : Type} {s : Scope} {settle : Settling σ}

/-- While the node of one call is built, another call is made for one of its needs, once those
before it are met. -/
inductive Calls (s : Scope) (settle : Settling σ) : Keys × Progress σ → Keys × Progress σ → Prop
  | intro {keys : Keys} {p q : Progress σ} {v : Value} {met rest : List Need} {n : Need}
      {parts : List Value} (h : keys ∉ p.stack) (hm : Assoc.find? keys p.memo = none)
      (hv : s.document.root.getIn keys = .ok v) (hn : s.needs keys v = met ++ n :: rest)
      (hg : Gathers s settle keys met (p.push keys) (.ok parts) q) :
      Calls s settle (keys, p) (n.keys, q)

/-- The calls that are made in the course of a call, that call among them. -/
abbrev Within (s : Scope) (settle : Settling σ) :
    Keys × Progress σ → Keys × Progress σ → Prop := Relation.ReflTransGen (s.Calls settle)

/-- Once the first need is met, what comes of the needs is what comes of the others. -/
theorem Gathers.tail {owner : Keys} {n : Need} {needs : List Need} {p p' q : Progress σ}
    {v w : Value}
    {world : σ} {r : Except Error (List Value)} (h : Gathers s settle owner (n :: needs) p r q)
    (hn : Visits s settle n.keys p (.ok v) p')
    (hs : Run.exec (settle owner n v) p'.world = (.ok w, world)) :
    ∃ r', Gathers s settle owner needs { p' with world } r' q ∧ r = r'.map (w :: ·) := by
  cases h with
  | unresolved hn' => cases (hn.unique hn').1
  | unsettled hn' hs' =>
    obtain ⟨he, rfl⟩ := hn.unique hn'
    cases he
    cases hs.symm.trans hs'
  | stopped hn' hs' hg =>
    obtain ⟨he, rfl⟩ := hn.unique hn'
    cases he
    cases hs.symm.trans hs'
    exact ⟨_, hg, rfl⟩
  | cons hn' hs' hg =>
    obtain ⟨he, rfl⟩ := hn.unique hn'
    cases he
    cases hs.symm.trans hs'
    exact ⟨_, hg, rfl⟩

/-- Once some needs are met, what comes of them and others is what comes of the others. -/
theorem Gathers.rest {owner : Keys} {met needs : List Need} {p p' q : Progress σ}
    {parts : List Value} {r : Except Error (List Value)}
    (h : Gathers s settle owner (met ++ needs) p r q)
    (hm : Gathers s settle owner met p (.ok parts) p') :
    ∃ r', Gathers s settle owner needs p' r' q ∧ r = r'.map (parts ++ ·) := by
  induction met generalizing p parts r with
  | nil =>
    cases hm
    exact ⟨r, h, by cases r <;> rfl⟩
  | cons n met ih =>
    cases hm with
    | cons hn hs hm =>
      obtain ⟨r₁, hg, rfl⟩ := h.tail hn hs
      obtain ⟨r', hr', rfl⟩ := ih hg hm
      exact ⟨r', hr', by cases r' <;> rfl⟩

/-- A call goes on with what comes of the needs that its inner call is the first of. -/
theorem Calls.exists_gathers {keys keys' : Keys} {p p' q : Progress σ} {r : Except Error Value}
    (h : s.Calls settle (keys, p) (keys', p')) (hv : Visits s settle keys p r q) :
    ∃ n rest r' q', n.keys = keys' ∧ Gathers s settle keys (n :: rest) p' r' q' ∧
      p'.stack = p.stack ++ [keys] ∧ ((∃ e, r' = .error e ∧ r = .error e ∧ q = q'.pop) ∨
        ∃ parts v, r' = .ok parts ∧ r = .ok v ∧ q = q'.pop.remember keys v) := by
  cases h with
  | @intro _ _ _ v met rest n parts hs hm hd hn hg =>
    cases hv with
    | circle h => exact absurd h hs
    | done _ h => cases hm.symm.trans h
    | missing _ _ h => cases hd.symm.trans h
    | failed _ _ hd' hg' =>
      cases hd.symm.trans hd'
      rw [hn] at hg'
      obtain ⟨r', hr', he⟩ := hg'.rest hg
      refine ⟨n, rest, r', _, rfl, hr', hg.stack_eq, .inl ⟨_, ?_, rfl, rfl⟩⟩
      cases r' <;> cases he; rfl
    | built _ _ hd' hg' =>
      cases hd.symm.trans hd'
      rw [hn] at hg'
      obtain ⟨r', hr', he⟩ := hg'.rest hg
      cases r' with
      | error e => cases he
      | ok ws => exact ⟨n, rest, _, _, rfl, hr', hg.stack_eq, .inr ⟨ws, _, rfl, rfl, rfl⟩⟩

end Scope
end Manifest
