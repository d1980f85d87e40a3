import Manifest.Proofs.Resolver.Once
import Manifest.Proofs.Resolver.Whole
import Manifest.Proofs.Value.Texts

/-! What the values of nodes look like that are put together from uses of one another, even if what
a query gives depends on how often queries were evaluated. -/
namespace Manifest

namespace Scope

/-- Values for keys, each put together from uses, and each use is of the value that its target
has. -/
structure Coherent (s : Scope) (uses : List Use) (value : Keys → Option Value) : Prop where
  made : ∀ keys w, value keys = some w → s.MadeFrom uses keys w
  target : ∀ u ∈ uses, value u.need.keys = some u.target
  outcome : ∀ u ∈ uses, u.need.query = none → u.outcome = .ok u.target

variable {s : Scope} {uses us : List Use} {value : Keys → Option Value} {keys more : Keys}
  {key text : String} {v w : Value} {needs : List Need} {parts : List Value}

theorem Meet.forall₂ (h : Meet keys needs parts us) :
    List.Forall₂ (fun n part => ∃ u ∈ us, u.owner = keys ∧ u.need = n ∧ u.outcome = .ok part)
      needs parts := by
  obtain ⟨howner, hneeds, hparts⟩ := h
  induction us generalizing needs parts with
  | nil =>
    obtain rfl : parts = [] := by simpa using hparts.symm
    obtain rfl : needs = [] := hneeds.symm
    exact .nil
  | cons u us ih =>
    obtain ⟨n, needs, rfl⟩ : ∃ n ns, needs = n :: ns := ⟨_, _, hneeds.symm⟩
    obtain ⟨part, parts, rfl⟩ : ∃ part ps, parts = part :: ps := by
      cases parts with
      | nil => cases hparts
      | cons part parts => exact ⟨part, parts, rfl⟩
    rw [List.map_cons, List.cons.injEq] at hneeds
    rw [List.map_cons, List.map_cons, List.cons.injEq] at hparts
    obtain ⟨hu, hrest⟩ := List.forall_mem_cons.mp howner
    refine .cons ⟨u, List.mem_cons_self .., hu, hneeds.1, hparts.1⟩ ?_
    refine (ih hrest hneeds.2 hparts.2).imp ?_
    rintro n part ⟨u', hu', hmeet⟩
    exact ⟨u', List.mem_cons_of_mem _ hu', hmeet⟩

theorem Coherent.exists_meet (h : s.Coherent uses value) (hw : value keys = some w)
    (hv : s.document.root.getIn keys = .ok v) :
    ∃ parts us, us ⊆ uses ∧ Meet keys (s.needs keys v) parts us ∧ w = assemble parts v := by
  obtain ⟨v', parts, us, hv', hmade⟩ := h.made keys w hw
  obtain rfl : v = v' := Except.ok.inj (hv.symm.trans hv')
  exact ⟨parts, us, hmade⟩

theorem Coherent.exists_parts (h : s.Coherent uses value) (hw : value keys = some w)
    (hv : s.document.root.getIn keys = .ok v) (hc : ∀ text, v ≠ .string text) :
    ∃ parts, List.Forall₂ (fun key part => value (keys ++ [key]) = some part) v.childKeys parts ∧
      w = assemble parts v := by
  obtain ⟨parts, us, hus, hmeet, rfl⟩ := h.exists_meet hw hv
  refine ⟨parts, ?_, rfl⟩
  have hall := hmeet.forall₂
  rw [needs_of_container hc, List.mapIdx_eq_zipIdx_map, List.forall₂_map_left_iff] at hall
  rw [← List.zipIdx_map_fst 0 v.childKeys, List.forall₂_map_left_iff]
  refine hall.imp ?_
  rintro ⟨key, i⟩ part ⟨u, hu, -, hneed, ho⟩
  -- No query stands between a container and its children.
  have hpart : part = u.target :=
    Except.ok.inj (ho.symm.trans (h.outcome u (hus hu) (by rw [hneed])))
  have hvalue := h.target u (hus hu)
  rw [hneed] at hvalue
  rw [hpart]
  exact hvalue

theorem Coherent.exists_child (h : s.Coherent uses value) (hw : value keys = some w)
    (hv : s.document.root.getIn keys = .ok v) (hk : key ∈ v.childKeys) :
    ∃ x, w.child key = .ok x ∧ value (keys ++ [key]) = some x := by
  have hc : ∀ text, v ≠ .string text := by
    rintro text rfl
    cases hk
  obtain ⟨parts, hp, rfl⟩ := h.exists_parts hw hv hc
  cases v with
  | mapping entries =>
    obtain ⟨x, hx, hvalue⟩ := Assoc.exists_find?_zip hp hk
    refine ⟨x, ?_, hvalue⟩
    rw [Value.childKeys_mapping] at hx
    simp [assemble, Value.child, hx]
  | sequence items =>
    obtain ⟨i, hi, rfl⟩ := List.getElem_of_mem hk
    have hi' : i < parts.length := hp.length_eq ▸ hi
    have hvalue := hp.get hi hi'
    simp only [Value.childKeys, List.get_eq_getElem, List.getElem_map,
      List.getElem_range] at hvalue ⊢
    exact ⟨parts[i], Value.child_ofPosition (List.getElem?_eq_getElem hi'), hvalue⟩
  | _ => cases hk

theorem Coherent.exists_walk (h : s.Coherent uses value) (hw : value keys = some w)
    (hv : s.document.root.getIn keys = .ok v) (hmore : more ∈ v.addresses) :
    ∃ x, w.walk more = .ok x ∧ value (keys ++ more) = some x := by
  induction more generalizing keys v w with
  | nil => exact ⟨w, rfl, by rw [List.append_nil, hw]⟩
  | cons key more ih =>
    obtain ⟨hk, u, hu, hm⟩ := Value.exists_child_of_cons_mem (distinct_of_getIn hv) hmore
    obtain ⟨x, hx, hvalue⟩ := h.exists_child hw hv hk
    obtain ⟨y, hy, hvalue'⟩ := ih hvalue ((Value.getIn_concat hv).mpr hu) hm
    refine ⟨y, by rw [Value.walk, hx]; exact hy, ?_⟩
    rw [← hvalue', List.append_assoc, List.singleton_append]

theorem mem_parts_of_mem_children (h : w ∈ (assemble parts v).children) : w ∈ parts := by
  cases v with
  | mapping entries =>
    obtain ⟨e, he, rfl⟩ := List.mem_map.mp h
    exact (List.of_mem_zip he).2
  | sequence items => exact h
  | _ => cases h

theorem Coherent.exists_child_node {x : Value} (h : s.Coherent uses value)
    (hw : value keys = some w)
    (hv : s.document.root.getIn keys = .ok v) (hx : x ∈ w.children) :
    ∃ key, ∃ u ∈ v.children, s.document.root.getIn (keys ++ [key]) = .ok u ∧
      value (keys ++ [key]) = some x := by
  by_cases hc : ∀ text, v ≠ .string text
  · obtain ⟨parts, hp, rfl⟩ := h.exists_parts hw hv hc
    obtain ⟨i, hi, rfl⟩ := List.getElem_of_mem (mem_parts_of_mem_children hx)
    have hchildren := forall₂_children hv
    have hk : i < v.childKeys.length := hp.length_eq ▸ hi
    have hi' : i < v.children.length := hchildren.length_eq ▸ hk
    exact ⟨v.childKeys[i], v.children[i], List.getElem_mem hi', hchildren.get hk hi', hp.get hk hi⟩
  · push Not at hc
    obtain ⟨text, rfl⟩ := hc
    obtain ⟨parts, us, -, -, rfl⟩ := h.exists_meet hw hv
    cases hx

theorem Coherent.distinct (h : s.Coherent uses value) (hw : value keys = some w)
    (hv : s.document.root.getIn keys = .ok v) : Value.Distinct w := by
  induction v using Value.induction_children generalizing keys w with
  | h v ih =>
    have hchildren : ∀ x ∈ w.children, Value.Distinct x := fun x hx => by
      obtain ⟨key, u, hu, hnode, hvalue⟩ := h.exists_child_node hw hv hx
      exact ih u hu hvalue hnode
    cases v with
    | mapping entries =>
      obtain ⟨parts, hp, rfl⟩ := h.exists_parts hw hv (by simp)
      have hlen : (entries.map Prod.fst).length = parts.length := hp.length_eq
      refine ⟨?_, (Value.distinctEntries_iff _).mpr fun e he =>
        hchildren _ (List.mem_map_of_mem he)⟩
      rw [List.map_fst_zip hlen.le]
      exact (distinct_of_getIn hv).1
    | sequence items =>
      obtain ⟨parts, -, rfl⟩ := h.exists_parts hw hv (by simp)
      exact (Value.distinctItems_iff _).mpr hchildren
    | _ =>
      obtain ⟨parts, us, -, -, rfl⟩ := h.exists_meet hw hv
      trivial

theorem Coherent.exists_text (h : s.Coherent uses value) (hw : value keys = some w)
    (hv : s.document.root.getIn keys = .ok v) (ht : text ∈ w.texts) :
    ∃ keys' written, s.document.root.getIn keys' = .ok (.string written) ∧
      value keys' = some (.string text) := by
  induction v using Value.induction_children generalizing keys w with
  | h v ih =>
    rcases Value.mem_texts_iff.mp ht with rfl | ⟨x, hx, ht⟩
    · obtain ⟨parts, us, -, -, he⟩ := h.exists_meet hw hv
      cases v with
      | string written => exact ⟨keys, written, hv, hw⟩
      | _ => cases he
    · obtain ⟨key, u, hu, hnode, hvalue⟩ := h.exists_child_node hw hv hx
      exact ih u hu hvalue hnode ht

theorem Coherent.eq_of_plain (h : s.Coherent uses value) (hw : value keys = some w)
    (hv : s.document.root.getIn keys = .ok v) (hp : v.Plain) : w = v := by
  induction v using Value.induction_children generalizing keys w with
  | h v ih =>
    by_cases hc : ∀ text, v ≠ .string text
    · obtain ⟨parts, hparts, rfl⟩ := h.exists_parts hw hv hc
      have hchildren := forall₂_children hv
      have hsame : parts = v.children := by
        refine List.ext_getElem (hparts.length_eq.symm.trans hchildren.length_eq) fun i hi hi' => ?_
        have hk : i < v.childKeys.length := hparts.length_eq ▸ hi
        have hmem := List.getElem_mem hi'
        exact ih _ hmem (hparts.get hk hi) (hchildren.get hk hi') (hp.of_mem_children hmem)
      rw [hsame, assemble_children hc]
    · push Not at hc
      obtain ⟨text, rfl⟩ := hc
      obtain ⟨hneeds, hfill⟩ := s.needs_of_plain keys (hp text (by simp [Value.texts]))
      obtain ⟨parts, us, -, hmeet, rfl⟩ := h.exists_meet hw hv
      rw [hneeds] at hmeet
      obtain rfl : parts = [] := List.forall₂_nil_left_iff.mp hmeet.forall₂
      exact hfill

end Scope

namespace Resolver

variable {σ : Type}

theorem coherent_resolveEach (r : Resolver σ) (paths : List String) (world : σ) :
    r.Coherent (r.usesInEach paths { world })
      fun keys => Assoc.find? keys (r.resolveEach paths { world }).2.memo where
  made keys w hw := (r.madeFrom_usesInEach paths { world } keys w hw).resolve_left (by simp)
  target := r.target_of_mem_usesInEach paths (r.tidy_start world)
  outcome := r.outcome_of_mem_usesInEach paths { world }

theorem coherent_resolveOnce (r : Resolver σ) (path : String) (world : σ) :
    r.Coherent (r.usesIn path { world })
      fun keys => Assoc.find? keys (Run.exec (r.resolve path) { world }).2.memo := by
  have huses : r.usesInEach [path] { world } = r.usesIn path { world } := List.append_nil _
  exact huses ▸ r.coherent_resolveEach [path] world

end Resolver
end Manifest
