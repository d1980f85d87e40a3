import Manifest.Resolver
import Mathlib.Data.Set.Card
import Mathlib.Logic.Relation

/-! The graph of references in a document, and the finite reserve of keys that a resolution from a
start can come to. Both are closed under going from a node to what it needs. -/
namespace Manifest.Scope

variable {s : Scope} {start keys keys' : Keys} {v : Value}

/-- A node refers to what it needs: a container to its children, a text to the targets of its
placeholders. -/
inductive Edge (s : Scope) : Keys → Keys → Prop
  | entry {keys : Keys} {entries : List (String × Value)} {e : String × Value}
      (h : s.document.root.getIn keys = .ok (.mapping entries)) (he : e ∈ entries) :
      Edge s keys (keys ++ [e.1])
  | item {keys : Keys} {items : List Value} {i : Nat}
      (h : s.document.root.getIn keys = .ok (.sequence items)) (hi : i < items.length) :
      Edge s keys (keys ++ [Path.ofPosition i])
  | reference {keys : Keys} {text : String} {m : Span}
      (h : s.document.root.getIn keys = .ok (.string text)) (hm : m ∈ Template.scan text) :
      Edge s keys (s.keys m.placeholder.path)

/-- The keys that can be reached along references. -/
abbrev Reaches (s : Scope) : Keys → Keys → Prop := Relation.ReflTransGen s.Edge

theorem map_needs_string (s : Scope) (keys : Keys) (text : String) :
    (s.needs keys (.string text)).map (fun n => (n.keys, n.query)) =
      (Template.scan text).map fun m => (s.keys m.placeholder.path, m.placeholder.query) := by
  have hscan : (Template.scan text).map Span.placeholder =
      Template.placeholders (Template.pieces text.toList) := Template.spansFrom_placeholder 0 _
  rw [needs, ← hscan]
  apply List.ext_getElem
  · simp
  · intro i _ _
    simp

theorem exists_span_of_need {text : String} {n : Need} (hn : n ∈ s.needs keys (.string text)) :
    ∃ m ∈ Template.scan text, s.keys m.placeholder.path = n.keys ∧
      m.placeholder.query = n.query := by
  have h := List.mem_map_of_mem (f := fun n : Need => (n.keys, n.query)) hn
  rw [map_needs_string] at h
  obtain ⟨m, hm, he⟩ := List.mem_map.mp h
  exact ⟨m, hm, (Prod.mk.inj he).1, (Prod.mk.inj he).2⟩

theorem exists_need_of_span {text : String} {m : Span} (keys : Keys) (hm : m ∈ Template.scan text) :
    ∃ n ∈ s.needs keys (.string text),
      n.keys = s.keys m.placeholder.path ∧ n.query = m.placeholder.query := by
  have h := List.mem_map_of_mem
    (f := fun m : Span => (s.keys m.placeholder.path, m.placeholder.query)) hm
  rw [← map_needs_string s keys] at h
  obtain ⟨n, hn, he⟩ := List.mem_map.mp h
  exact ⟨n, hn, (Prod.mk.inj he).1, (Prod.mk.inj he).2⟩

theorem edge_iff_exists_need (hv : s.document.root.getIn keys = .ok v) :
    s.Edge keys keys' ↔ ∃ n ∈ s.needs keys v, n.keys = keys' := by
  constructor
  · intro h
    cases h with
    | @entry entries e h he =>
      cases Except.ok.inj (hv.symm.trans h)
      obtain ⟨i, hi, rfl⟩ := List.getElem_of_mem he
      exact ⟨_, List.mem_mapIdx.mpr ⟨i, by simpa [Value.childKeys] using hi, rfl⟩,
        by simp [Value.childKeys]⟩
    | @item items i h hi =>
      cases Except.ok.inj (hv.symm.trans h)
      exact ⟨_, List.mem_mapIdx.mpr ⟨i, by simpa [Value.childKeys] using hi, rfl⟩,
        by simp [Value.childKeys]⟩
    | reference h hm =>
      cases Except.ok.inj (hv.symm.trans h)
      obtain ⟨n, hn, hk, -⟩ := exists_need_of_span keys hm
      exact ⟨n, hn, hk⟩
  · rintro ⟨n, hn, rfl⟩
    cases v with
    | string text =>
      obtain ⟨m, hm, hk, -⟩ := exists_span_of_need hn
      exact hk ▸ .reference hv hm
    | mapping entries =>
      obtain ⟨i, hi, rfl⟩ := List.mem_mapIdx.mp hn
      have hi : i < entries.length := by simpa [Value.childKeys] using hi
      simpa [Value.childKeys] using Edge.entry hv (List.getElem_mem hi)
    | sequence items =>
      obtain ⟨i, hi, rfl⟩ := List.mem_mapIdx.mp hn
      have hi : i < items.length := by simpa [Value.childKeys] using hi
      simpa [Value.childKeys] using Edge.item hv hi
    | _ => simp [needs, Value.childKeys] at hn

theorem Edge.of_need {n : Need} (hv : s.document.root.getIn keys = .ok v)
    (hn : n ∈ s.needs keys v) :
    s.Edge keys n.keys := (edge_iff_exists_need hv).mpr ⟨n, hn, rfl⟩

/-- The reserve of a start: the start and the targets of the placeholders in any text of the
document, and all addresses of nodes below one of them. -/
inductive Reserve (s : Scope) (start : Keys) : Keys → Prop
  | start : Reserve s start start
  | target {text : String} {m : Span} (ht : text ∈ s.document.root.texts)
      (hm : m ∈ Template.scan text) : Reserve s start (s.keys m.placeholder.path)
  | entry {keys : Keys} {entries : List (String × Value)} {e : String × Value}
      (hk : Reserve s start keys) (h : s.document.root.getIn keys = .ok (.mapping entries))
      (he : e ∈ entries) : Reserve s start (keys ++ [e.1])
  | item {keys : Keys} {items : List Value} {i : Nat}
      (hk : Reserve s start keys) (h : s.document.root.getIn keys = .ok (.sequence items))
      (hi : i < items.length) : Reserve s start (keys ++ [Path.ofPosition i])

theorem Reserve.edge (hk : s.Reserve start keys) (h : s.Edge keys keys') :
    s.Reserve start keys' := by
  cases h with
  | entry h he => exact .entry hk h he
  | item h hi => exact .item hk h hi
  | reference h hm => exact .target (Value.mem_texts_of_walk (Value.getIn_eq_ok.mp h)) hm

theorem Reserve.of_edge (h : s.Edge start keys) (hk : s.Reserve keys keys') :
    s.Reserve start keys' := by
  induction hk with
  | start => exact Reserve.start.edge h
  | target ht hm => exact .target ht hm
  | entry _ h he ih => exact .entry ih h he
  | item _ h hi ih => exact .item ih h hi

theorem Reserve.mem_territory (h : s.Reserve start keys) : keys ∈ s.territory start := by
  induction h with
  | start => exact s.start_mem_territory start
  | @target text m ht hm =>
    obtain ⟨n, hn, hk, -⟩ := exists_need_of_span (s := s) [] hm
    rw [← hk]
    refine Scope.mem_territory.mpr ⟨n.keys, List.mem_cons_of_mem _ ?_, s.mem_below_self _⟩
    exact List.mem_flatMap.mpr ⟨text, ht, List.mem_map_of_mem hn⟩
  | entry _ h he ih =>
    exact child_mem_territory ih (Value.getIn_eq_ok.mp h) (List.mem_map_of_mem he)
  | @item keys items i _ h hi ih =>
    exact child_mem_territory ih (Value.getIn_eq_ok.mp h)
      (List.mem_map_of_mem (List.mem_range.mpr hi))

/-- The reserve is finite, although one node has many addresses. -/
theorem finite_reserve (s : Scope) (start : Keys) : {keys | s.Reserve start keys}.Finite :=
  (s.territory start).finite_toSet.subset fun _ h => Reserve.mem_territory h

noncomputable def unspent (s : Scope) (stack : List Keys) (keys : Keys) : Nat :=
  ({k | s.Reserve keys k} \ {k | k ∈ stack}).ncard

/-- Each reference that is followed from keys not yet in progress uses up some of the reserve. -/
theorem unspent_lt {stack : List Keys} (hs : keys ∉ stack) (h : s.Edge keys keys') :
    s.unspent (stack ++ [keys]) keys' < s.unspent stack keys := by
  refine Set.ncard_lt_ncard ?_ ((s.finite_reserve keys).subset Set.sdiff_subset)
  refine Set.ssubset_iff_of_subset ?_ |>.mpr ⟨keys, ⟨.start, hs⟩, fun hk => hk.2 (by simp)⟩
  rintro k ⟨hk, hn⟩
  exact ⟨hk.of_edge h, fun hks => hn (List.mem_append_left _ hks)⟩

end Manifest.Scope
