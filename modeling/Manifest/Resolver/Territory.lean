import Manifest.Resolver.Scope

/-! The finite territory of a start: all keys that can be asked for on the way from it. -/
namespace Manifest.Scope

/-- The addresses of the nodes at and below some keys; the keys alone if there is no node. -/
def below (s : Scope) (keys : Keys) : List Keys :=
  match s.document.root.walk keys with
  | .ok v => v.addresses.map (keys ++ ·)
  | .error _ => [keys]

def targets (s : Scope) : List Keys :=
  s.document.root.texts.flatMap fun text => (s.needs [] (.string text)).map Need.keys

/-- All keys at and below a start and the targets of placeholders. -/
def territory (s : Scope) (start : Keys) : List Keys := (start :: s.targets).flatMap s.below

theorem mem_below_self (s : Scope) (keys : Keys) : keys ∈ s.below keys := by
  unfold below
  split
  · exact List.mem_map.mpr ⟨[], Value.nil_mem_addresses _, by simp⟩
  · simp

theorem mem_territory {s : Scope} {start keys : Keys} :
    keys ∈ s.territory start ↔ ∃ seed ∈ start :: s.targets, keys ∈ s.below seed := List.mem_flatMap

theorem start_mem_territory (s : Scope) (start : Keys) : start ∈ s.territory start :=
  mem_territory.mpr ⟨start, List.mem_cons_self .., s.mem_below_self start⟩

theorem needs_string_keys (s : Scope) (keys : Keys) (text : String) :
    s.needs keys (.string text) = s.needs [] (.string text) := rfl

theorem child_mem_territory {s : Scope} {start keys : Keys} {v : Value} {key : String}
    (hk : keys ∈ s.territory start) (hv : s.document.root.walk keys = .ok v)
    (h : key ∈ v.childKeys) : keys ++ [key] ∈ s.territory start := by
  obtain ⟨seed, hseed, hb⟩ := mem_territory.mp hk
  refine mem_territory.mpr ⟨seed, hseed, ?_⟩
  unfold below at hb ⊢
  cases hw : s.document.root.walk seed with
  | error m =>
    simp only [hw, List.mem_singleton] at hb
    rw [hb, hw] at hv; cases hv
  | ok w =>
    simp only [hw, List.mem_map] at hb ⊢
    obtain ⟨a, ha, rfl⟩ := hb
    rw [Value.walk_append, hw] at hv
    exact ⟨a ++ [key],
      Value.concat_mem_addresses (Value.distinct_walk s.document.distinct hw) ha hv h,
      by simp⟩

/-- The territory is closed: what a node in it needs is in it. -/
theorem need_mem_territory {s : Scope} {start keys : Keys} {v : Value} {n : Need}
    (hk : keys ∈ s.territory start) (hv : s.document.root.getIn keys = .ok v)
    (hn : n ∈ s.needs keys v) : n.keys ∈ s.territory start := by
  rw [Value.getIn_eq_ok] at hv
  have hchild : ∀ key ∈ v.childKeys, keys ++ [key] ∈ s.territory start := fun _ h =>
    child_mem_territory hk hv h
  cases v with
  | string text =>
    rw [needs_string_keys] at hn
    refine mem_territory.mpr ⟨n.keys, List.mem_cons_of_mem _ ?_, s.mem_below_self _⟩
    exact List.mem_flatMap.mpr
      ⟨text, Value.mem_texts_of_walk hv, List.mem_map.mpr ⟨n, hn, rfl⟩⟩
  | _ =>
    obtain ⟨i, hi, rfl⟩ := List.mem_mapIdx.mp hn
    exact hchild _ (List.getElem_mem hi)

def unused (s : Scope) (start : Keys) (stack : List Keys) : Nat :=
  (s.territory start).countP (· ∉ stack)

theorem countP_concat_lt {us stack : List Keys} {keys : Keys} (hk : keys ∈ us) (hs : keys ∉ stack) :
    us.countP (· ∉ stack ++ [keys]) < us.countP (· ∉ stack) := by
  have hle : ∀ vs : List Keys, vs.countP (· ∉ stack ++ [keys]) ≤ vs.countP (· ∉ stack) := fun vs =>
    List.countP_mono_left fun x _ hx => by
      simp only [List.mem_append, not_or, decide_eq_true_eq] at hx ⊢
      exact hx.1
  induction us with
  | nil => cases hk
  | cons u us ih =>
    by_cases hu : u = keys
    · subst hu
      have h1 : (u :: us).countP (· ∉ stack ++ [u]) = us.countP (· ∉ stack ++ [u]) := by
        simp
      have h2 : (u :: us).countP (· ∉ stack) = us.countP (· ∉ stack) + 1 := by simp [hs]
      rw [h1, h2]
      exact Nat.lt_succ_of_le (hle us)
    · have h3 := ih ((List.mem_cons.mp hk).resolve_left (Ne.symm hu))
      rw [List.countP_cons, List.countP_cons]
      by_cases hx : u ∈ stack <;> simp [hx, hu] <;> simpa using h3

theorem unused_concat_lt {s : Scope} {start keys : Keys} {stack : List Keys}
    (hk : keys ∈ s.territory start) (hs : keys ∉ stack) :
    s.unused start (stack ++ [keys]) < s.unused start stack := countP_concat_lt hk hs

end Manifest.Scope
