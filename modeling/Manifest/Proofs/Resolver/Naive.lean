import Manifest.Proofs.List.MapM
import Manifest.Proofs.Resolver.Reference

/-! Resolution without a memory, as a plain recursion that knows the keys in progress, for queries
whose results depend on nothing but value and query. What it gives does not depend on the keys in
progress as long as none of them is reached. -/
namespace Manifest

namespace Scope

/-- A resolved target as the text at `owner` asks for it, with queries answered by a function. -/
def taken (answer : Value → String → Except Error Value) (owner : Keys) (need : Need) (v : Value) :
    Except Error Value :=
  match need.query with
  | none => .ok v
  | some q => (answer v q).mapError (Error.orAt · (Path.dotted owner))

/-- The resolved node at some keys while those of `stack`, outermost first, are in progress: with
children and targets resolved one after another while these keys are in progress too. -/
def naive (s : Scope) (answer : Value → String → Except Error Value) (stack : List Keys)
    (keys : Keys) : Except Error Value :=
  if _hs : keys ∈ stack then .error (circle stack keys)
  else
    match _hv : s.document.root.getIn keys with
    | .error e => .error e
    | .ok v => do
      let parts ← (s.needs keys v).attach.mapM fun ⟨n, _⟩ => do
        taken answer keys n (← naive s answer (stack ++ [keys]) n.keys)
      return assemble parts v
termination_by s.unspent stack keys
decreasing_by exact unspent_lt _hs (.of_need _hv ‹_›)

/-- What a need of the node at `owner` comes to while the keys of `stack` are in progress. -/
def met (s : Scope) (answer : Value → String → Except Error Value) (stack : List Keys)
    (owner : Keys) (n : Need) : Except Error Value := do
  taken answer owner n (← s.naive answer stack n.keys)

variable {s : Scope} {answer : Value → String → Except Error Value} {stack stack' : List Keys}
  {keys keys' : Keys} {v w : Value} {e : Error}

theorem naive_of_mem_stack (h : keys ∈ stack) :
    s.naive answer stack keys = .error (circle stack keys) := by
  rw [naive, dif_pos h]

theorem naive_of_missing (h : keys ∉ stack) (he : s.document.root.getIn keys = .error e) :
    s.naive answer stack keys = .error e := by
  rw [naive, dif_neg h]
  split
  · rename_i e' he'
    rw [← he', he]
  · rename_i v hv
    rw [he] at hv; cases hv

theorem naive_of_found (h : keys ∉ stack) (hv : s.document.root.getIn keys = .ok v) :
    s.naive answer stack keys =
      ((s.needs keys v).mapM (s.met answer (stack ++ [keys]) keys)).map (assemble · v) := by
  have hattach : (s.needs keys v).attach.mapM
      (fun n => s.met answer (stack ++ [keys]) keys n.1) =
        (s.needs keys v).mapM (s.met answer (stack ++ [keys]) keys) := by
    rw [List.mapM_subtype (g := s.met answer (stack ++ [keys]) keys) fun _ _ => rfl,
      List.unattach_attach]
  rw [naive, dif_neg h]
  split
  · rename_i e he
    rw [hv] at he; cases he
  · rename_i w hw
    cases Except.ok.inj (hv.symm.trans hw)
    rw [← hattach]
    rfl

theorem naive_of_met {parts : List Value} (h : keys ∉ stack)
    (hv : s.document.root.getIn keys = .ok v)
    (hp : (s.needs keys v).mapM (s.met answer (stack ++ [keys]) keys) = .ok parts) :
    s.naive answer stack keys = .ok (assemble parts v) := by
  rw [naive_of_found h hv, hp]; rfl

theorem met_of_error {n : Need} (h : s.naive answer stack n.keys = .error e) :
    s.met answer stack keys n = .error e := by
  rw [met, h]; rfl

theorem met_of_ok {n : Need} (h : s.naive answer stack n.keys = .ok v) :
    s.met answer stack keys n = taken answer keys n v := by
  rw [met, h]; rfl

theorem met_eq_ok_iff {n : Need} :
    s.met answer stack keys n = .ok w ↔
      ∃ v, s.naive answer stack n.keys = .ok v ∧ taken answer keys n v = .ok w := by
  cases h : s.naive answer stack n.keys with
  | error e => simp [met_of_error h]
  | ok v => simp [met_of_ok h]

/-- A node is resolved when it is not in progress, is there and has all its needs met. -/
theorem naive_eq_ok_iff :
    s.naive answer stack keys = .ok w ↔
      keys ∉ stack ∧ ∃ v parts, s.document.root.getIn keys = .ok v ∧
        (s.needs keys v).mapM (s.met answer (stack ++ [keys]) keys) = .ok parts ∧
        w = assemble parts v := by
  constructor
  · intro h
    by_cases hs : keys ∈ stack
    · rw [naive_of_mem_stack hs] at h; cases h
    cases hv : s.document.root.getIn keys with
    | error e => rw [naive_of_missing hs hv] at h; cases h
    | ok v =>
      rw [naive_of_found hs hv] at h
      cases hp : (s.needs keys v).mapM (s.met answer (stack ++ [keys]) keys) with
      | error e => rw [hp] at h; cases h
      | ok parts =>
        rw [hp] at h
        cases h
        exact ⟨hs, v, parts, rfl, hp, rfl⟩
  · rintro ⟨hs, v, parts, hv, hp, rfl⟩
    exact naive_of_met hs hv hp

theorem exists_naive_of_edge (h : s.naive answer stack keys = .ok w) (he : s.Edge keys keys') :
    ∃ v, s.naive answer (stack ++ [keys]) keys' = .ok v := by
  obtain ⟨-, v, parts, hv, hp, -⟩ := naive_eq_ok_iff.mp h
  obtain ⟨n, hn, rfl⟩ := (edge_iff_exists_need hv).mp he
  obtain ⟨u, hu⟩ := exists_ok_of_mapM hp n hn
  obtain ⟨x, hx, -⟩ := met_eq_ok_iff.mp hu
  exact ⟨x, hx⟩

theorem notMem_of_reaches (h : s.naive answer stack keys = .ok w) (hr : s.Reaches keys keys') :
    keys' ∉ stack := by
  induction hr using Relation.ReflTransGen.head_induction_on generalizing stack w with
  | refl => exact (naive_eq_ok_iff.mp h).1
  | head he _ ih =>
    obtain ⟨v, hv⟩ := exists_naive_of_edge h he
    exact fun hm => ih hv (List.mem_append_left _ hm)

/-- What a node resolves to is the same whatever else is in progress that it does not reach. -/
theorem naive_eq_ok_of_reaches (h : s.naive answer stack keys = .ok w)
    (hn : ∀ k, s.Reaches keys k → k ∉ stack') : s.naive answer stack' keys = .ok w := by
  induction stack, keys using naive.induct s generalizing stack' w with
  | case1 stack keys hs => rw [naive_of_mem_stack hs] at h; cases h
  | case2 stack keys hs e he => rw [naive_of_missing hs he] at h; cases h
  | case3 stack keys hs v hv ih =>
    obtain ⟨-, u, parts, hu, hp, rfl⟩ := naive_eq_ok_iff.mp h
    cases Except.ok.inj (hv.symm.trans hu)
    refine naive_eq_ok_iff.mpr ⟨hn keys .refl, v, parts, hv, ?_, rfl⟩
    refine mapM_eq_ok_of_forall hp fun n hm y hy => ?_
    obtain ⟨x, hx, ht⟩ := met_eq_ok_iff.mp hy
    refine met_eq_ok_iff.mpr ⟨x, ih n hm hx fun k hk => ?_, ht⟩
    -- The node itself is not reached from its needs, for it was in progress when they were
    -- resolved.
    have hself : k ≠ keys := by
      rintro rfl
      exact notMem_of_reaches hx hk (List.mem_append_right _ (List.mem_singleton_self _))
    have hrest : k ∉ stack' := hn k (.head (.of_need hv hm) hk)
    simp [hself, hrest]

theorem naive_eq_ok_of_subset (h : s.naive answer stack keys = .ok w) (hsub : stack' ⊆ stack) :
    s.naive answer stack' keys = .ok w :=
  naive_eq_ok_of_reaches h fun _ hk hmem => notMem_of_reaches h hk (hsub hmem)

theorem met_eq_ok_of_subset {n : Need} (h : s.met answer stack keys n = .ok w)
    (hsub : stack' ⊆ stack) :
    s.met answer stack' keys n = .ok w := by
  obtain ⟨x, hx, ht⟩ := met_eq_ok_iff.mp h
  exact met_eq_ok_iff.mpr ⟨x, naive_eq_ok_of_subset hx hsub, ht⟩

end Scope
end Manifest
