import Manifest.Proofs.Resolver.Circle
import Manifest.Proofs.Value.Child

/-! A document resolved as a whole: it has the shape of the document, and at each path the node that
the path resolves to on its own. -/
namespace Manifest

namespace Scope

variable {s : Scope} {answer : Value → String → Except Error Value} {keys keys' : Keys}
  {key : String} {v w : Value}

theorem distinct_of_getIn (hv : s.document.root.getIn keys = .ok v) : Value.Distinct v :=
  Value.distinct_walk s.document.distinct (Value.getIn_eq_ok.mp hv)

/-- The children of a node of the document are found under its keys, one by one. -/
theorem forall₂_children (hv : s.document.root.getIn keys = .ok v) :
    List.Forall₂
      (fun key w => s.document.root.getIn (keys ++ [key]) = .ok w) v.childKeys v.children :=
  (Value.forall₂_child (distinct_of_getIn hv)).imp fun _ _ h => (Value.getIn_concat hv).mpr h

theorem taken_eq_ok_iff {n : Need} :
    taken answer keys n v = .ok w ↔
      (n.query = none ∧ v = w) ∨ ∃ q, n.query = some q ∧ answer v q = .ok w := by
  unfold taken
  cases n.query with
  | none => simp
  | some q => cases h : answer v q <;> simp [Except.mapError, h]

/-- With nothing in progress a node is resolved when its needs are, with nothing in progress
either. -/
theorem naive_nil_eq_ok_iff :
    s.naive answer [] keys = .ok w ↔
      ∃ v parts, s.document.root.getIn keys = .ok v ∧
        (s.needs keys v).mapM (s.met answer [] keys) = .ok parts ∧ w = assemble parts v := by
  constructor
  · intro h
    obtain ⟨-, v, parts, hv, hp, rfl⟩ := naive_eq_ok_iff.mp h
    refine ⟨v, parts, hv, mapM_eq_ok_of_forall hp fun n _ y hy => ?_, rfl⟩
    obtain ⟨x, hx, ht⟩ := met_eq_ok_iff.mp hy
    exact met_eq_ok_iff.mpr ⟨x, naive_eq_ok_of_reaches hx (by simp), ht⟩
  · rintro ⟨v, parts, hv, hp, rfl⟩
    refine naive_of_met (by simp) hv (mapM_eq_ok_of_forall hp fun n hn y hy => ?_)
    obtain ⟨x, hx, ht⟩ := met_eq_ok_iff.mp hy
    refine met_eq_ok_iff.mpr ⟨x, naive_eq_ok_of_reaches hx fun k hk hmem => ?_, ht⟩
    -- A need that reached the node would lie on a circle.
    obtain rfl : k = keys := by simpa using hmem
    exact not_transGen_of_naive hx (.tail' hk (.of_need hv hn))

theorem needs_of_container (hc : ∀ text, v ≠ .string text) :
    s.needs keys v = v.childKeys.mapIdx fun i key => ⟨i, keys ++ [key], none⟩ := by
  cases v with
  | string text => exact absurd rfl (hc text)
  | _ => rfl

theorem mapM_met_children {stack : List Keys} (hc : ∀ text, v ≠ .string text) :
    (s.needs keys v).mapM (s.met answer stack keys) =
      v.childKeys.mapM fun key => s.naive answer stack (keys ++ [key]) := by
  have hmet : ∀ i key, s.met answer stack keys ⟨i, keys ++ [key], none⟩ =
      s.naive answer stack (keys ++ [key]) := fun i key => by
    cases h : s.naive answer stack (keys ++ [key]) with
    | error e => exact met_of_error h
    | ok x => exact met_of_ok h
  calc (s.needs keys v).mapM (s.met answer stack keys)
      = v.childKeys.zipIdx.mapM fun x => s.naive answer stack (keys ++ [x.1]) := by
        rw [needs_of_container hc, List.mapIdx_eq_zipIdx_map, List.mapM_map]
        simp only [Function.comp_def, hmet]
    _ = (v.childKeys.zipIdx.map Prod.fst).mapM fun key => s.naive answer stack (keys ++ [key]) := by
        rw [List.mapM_map]
        rfl
    _ = v.childKeys.mapM fun key => s.naive answer stack (keys ++ [key]) := by
        rw [List.zipIdx_map_fst]

theorem naive_container_iff (hv : s.document.root.getIn keys = .ok v)
    (hc : ∀ text, v ≠ .string text) :
    s.naive answer [] keys = .ok w ↔
      ∃ parts, List.Forall₂ (fun key part => s.naive answer [] (keys ++ [key]) = .ok part)
        v.childKeys parts ∧ w = assemble parts v := by
  rw [naive_nil_eq_ok_iff]
  simp only [hv, Except.ok.injEq]
  constructor
  · rintro ⟨_, parts, rfl, hp, rfl⟩
    exact ⟨parts, mapM_eq_ok_iff.mp (mapM_met_children hc ▸ hp), rfl⟩
  · rintro ⟨parts, hp, rfl⟩
    exact ⟨v, parts, rfl, by rw [mapM_met_children hc]; exact mapM_eq_ok_iff.mpr hp, rfl⟩

/-- Nodes that are written the same resolve to the same, if one of them resolves at all. -/
theorem naive_eq_ok_of_getIn_eq (h : s.naive answer [] keys = .ok w)
    (hv : s.document.root.getIn keys = .ok v) (hv' : s.document.root.getIn keys' = .ok v) :
    s.naive answer [] keys' = .ok w := by
  induction v using Value.induction_children generalizing keys keys' w with
  | h v ih =>
    by_cases hc : ∀ text, v ≠ .string text
    · obtain ⟨parts, hp, rfl⟩ := (naive_container_iff hv hc).mp h
      refine (naive_container_iff hv' hc).mpr ⟨parts, ?_, rfl⟩
      refine ((List.forall₂_and_left _ _).mpr
        ⟨fun _ => Value.exists_child_of_mem (distinct_of_getIn hv), hp⟩).imp ?_
      rintro key part ⟨⟨u, hu, hchild⟩, hx⟩
      exact ih u hu hx ((Value.getIn_concat hv).mpr hchild) ((Value.getIn_concat hv').mpr hchild)
    · push Not at hc
      obtain ⟨text, rfl⟩ := hc
      obtain ⟨u, parts, hu, hp, rfl⟩ := naive_nil_eq_ok_iff.mp h
      cases Except.ok.inj (hv.symm.trans hu)
      refine naive_nil_eq_ok_iff.mpr
        ⟨_, parts, hv', mapM_eq_ok_of_forall hp fun n _ y hy => ?_, rfl⟩
      obtain ⟨x, hx, ht⟩ := met_eq_ok_iff.mp hy
      exact met_eq_ok_iff.mpr ⟨x, hx, taken_eq_ok_iff.mpr (taken_eq_ok_iff.mp ht)⟩

theorem exists_string_of_naive {text : String} (h : s.naive answer [] keys = .ok w)
    (hv : s.document.root.getIn keys = .ok (.string text)) : ∃ text', w = .string text' := by
  obtain ⟨v, parts, hv', -, rfl⟩ := naive_nil_eq_ok_iff.mp h
  cases Except.ok.inj (hv.symm.trans hv')
  exact ⟨_, rfl⟩

theorem shape_of_naive (h : s.naive answer [] keys = .ok w)
    (hv : s.document.root.getIn keys = .ok v) : w.shape = v.shape := by
  induction v using Value.induction_children generalizing keys w with
  | h v ih =>
    by_cases hc : ∀ text, v ≠ .string text
    · obtain ⟨parts, hp, rfl⟩ := (naive_container_iff hv hc).mp h
      have hchildren := forall₂_children hv
      have hshapes : parts.map Value.shape = v.children.map Value.shape := by
        refine List.ext_getElem ?_ fun i hi hj => ?_
        · simp [← hp.length_eq, hchildren.length_eq]
        · simp only [List.length_map] at hi hj
          have hk : i < v.childKeys.length := hp.length_eq ▸ hi
          simp only [List.getElem_map]
          exact ih _ (List.getElem_mem hj) (hp.get hk hi) (hchildren.get hk hj)
      cases v with
      | mapping entries =>
        have hlen : (entries.map Prod.fst).length = parts.length := hp.length_eq
        rw [assemble, Value.shape_mapping, Value.shape_mapping, List.map_fst_zip hlen.le,
          List.map_snd_zip hlen.ge]
        exact congrArg (fun xs => Value.mapping ((entries.map Prod.fst).zip xs)) hshapes
      | sequence items =>
        rw [assemble, Value.shape_sequence, Value.shape_sequence]
        exact congrArg Value.sequence hshapes
      | string text => exact absurd rfl (hc text)
      | _ => rfl
    · push Not at hc
      obtain ⟨text, rfl⟩ := hc
      obtain ⟨text', rfl⟩ := exists_string_of_naive h hv
      rfl

/-- Where a node has a child the resolved node has one too, and it is that child resolved. -/
theorem exists_child_of_naive {u : Value} (h : s.naive answer [] keys = .ok w)
    (hv : s.document.root.getIn keys = .ok v) (hu : v.child key = .ok u) :
    ∃ x, w.child key = .ok x ∧ s.naive answer [] (keys ++ [key]) = .ok x := by
  rcases Value.child_eq_ok hu with ⟨entries, rfl, he⟩ | ⟨items, i, rfl, hpos, hi⟩
  · obtain ⟨parts, hp, rfl⟩ := (naive_container_iff hv (by simp)).mp h
    have hmem : key ∈ (Value.mapping entries).childKeys :=
      List.mem_map_of_mem (Assoc.mem_of_find? he)
    obtain ⟨x, hx, hn⟩ := Assoc.exists_find?_zip hp hmem
    refine ⟨x, ?_, hn⟩
    simp only [assemble, Value.child]
    rw [← Value.childKeys_mapping, hx]
    rfl
  · obtain ⟨parts, hp, rfl⟩ := (naive_container_iff hv (by simp)).mp h
    obtain ⟨hlt, rfl⟩ := List.getElem?_eq_some_iff.mp hi
    have hk : i < (Value.sequence items).childKeys.length := by simpa [Value.childKeys] using hlt
    have hlt' : i < parts.length := hp.length_eq ▸ hk
    have hn := hp.get hk hlt'
    simp only [Value.childKeys, List.get_eq_getElem, List.getElem_map, List.getElem_range] at hn
    refine ⟨parts[i], by simp [assemble, Value.child, hpos, hlt'], ?_⟩
    -- The key may be another name of the position.
    exact naive_eq_ok_of_getIn_eq hn
      ((Value.getIn_concat hv).mpr (Value.child_ofPosition hi)) ((Value.getIn_concat hv).mpr hu)

theorem child_eq_error_of_naive {m : Value.Miss} (h : s.naive answer [] keys = .ok w)
    (hv : s.document.root.getIn keys = .ok v) (hm : v.child key = .error m) :
    w.child key = .error m := by
  by_cases hc : ∀ text, v ≠ .string text
  · obtain ⟨parts, hp, rfl⟩ := (naive_container_iff hv hc).mp h
    cases v with
    | mapping entries =>
      have hnone : Assoc.find? key entries = none := by
        cases he : Assoc.find? key entries with
        | none => rfl
        | some u => simp [Value.child, he] at hm
      have hzip := Assoc.find?_zip_eq_none hp ((Assoc.find?_eq_none_iff key entries).mp hnone)
      simp only [Value.child, hnone, Option.elim_none] at hm
      simp only [assemble, Value.child]
      rw [← Value.childKeys_mapping, hzip]
      exact hm
    | sequence items =>
      have hlen : items.length = parts.length := by simpa [Value.childKeys] using hp.length_eq
      have hnone : (Path.position? key).bind (parts[·]?) = none := by
        cases hpos : Path.position? key with
        | none => rfl
        | some i =>
          rw [Option.bind_some, List.getElem?_eq_none_iff, ← hlen]
          by_contra hlt
          simp [Value.child, hpos, Nat.lt_of_not_le hlt] at hm
      have hnone' : (Path.position? key).bind (items[·]?) = none := by
        cases hpos : Path.position? key with
        | none => rfl
        | some i =>
          rw [hpos, Option.bind_some, List.getElem?_eq_none_iff, ← hlen] at hnone
          rwa [Option.bind_some, List.getElem?_eq_none_iff]
      simp only [Value.child, hnone', Option.elim_none] at hm
      simpa only [assemble, Value.child, hnone, Option.elim_none] using hm
    | string text => exact absurd rfl (hc text)
    | _ => exact hm
  · push Not at hc
    obtain ⟨text, rfl⟩ := hc
    obtain ⟨text', rfl⟩ := exists_string_of_naive h hv
    exact hm

/-- A walk in a resolved node ends where the walk in the node does, at the node resolved. -/
theorem walk_of_naive (more : Keys) (h : s.naive answer [] keys = .ok w)
    (hv : s.document.root.getIn keys = .ok v) :
    (∀ m, v.walk more = .error m → w.walk more = .error m) ∧
      ∀ u, v.walk more = .ok u →
        ∃ x, w.walk more = .ok x ∧ s.naive answer [] (keys ++ more) = .ok x := by
  induction more generalizing keys v w with
  | nil => exact ⟨nofun, fun u _ => ⟨w, rfl, by simpa using h⟩⟩
  | cons key more ih =>
    simp only [Value.walk]
    cases hu : v.child key with
    | error m => simp [child_eq_error_of_naive h hv hu]
    | ok u =>
      obtain ⟨x, hx, hn⟩ := exists_child_of_naive h hv hu
      simpa [hx] using ih hn ((Value.getIn_concat hv).mpr hu)

/-- Once the root is resolved, any node resolves to what is found there in the resolved root. -/
theorem naive_eq_getIn (h : s.naive answer [] [] = .ok w) (keys : Keys) :
    s.naive answer [] keys = w.getIn keys := by
  have hroot : s.document.root.getIn [] = .ok s.document.root := rfl
  obtain ⟨hmiss, hfound⟩ := walk_of_naive keys h hroot
  cases hw : s.document.root.walk keys with
  | error m =>
    have he : s.document.root.getIn keys = .error (m.error keys) := by rw [Value.getIn, hw]
    rw [naive_of_missing (by simp) he, Value.getIn, hmiss m hw]
  | ok u =>
    obtain ⟨x, hx, hn⟩ := hfound u hw
    rw [Value.getIn_eq_ok.mpr hx]
    exact hn

theorem assemble_children (hc : ∀ text, v ≠ .string text) : assemble v.children v = v := by
  cases v with
  | mapping entries => exact congrArg Value.mapping (List.zip_of_prod rfl rfl).symm
  | sequence items => rfl
  | string text => exact absurd rfl (hc text)
  | _ => rfl

theorem needs_of_plain (s : Scope) (keys : Keys) {text : String}
    (h : Template.hasPlaceholder text = false) :
    s.needs keys (.string text) = [] ∧ assemble [] (.string text) = .string text := by
  have hscan : Template.scan text = [] := by simpa [Template.hasPlaceholder] using h
  have hnone : Template.placeholders (Template.pieces text.toList) = [] := by
    rw [← Template.spansFrom_placeholder 0]
    exact congrArg (List.map Span.placeholder) hscan
  refine ⟨by simp [needs, hnone], ?_⟩
  rw [assemble, List.map_nil, Template.fill_nil_right, Template.flatMap_pieces,
    String.ofList_toList]

theorem naive_of_plain (hv : s.document.root.getIn keys = .ok v) (hp : v.Plain) :
    s.naive answer [] keys = .ok v := by
  induction v using Value.induction_children generalizing keys with
  | h v ih =>
    by_cases hc : ∀ text, v ≠ .string text
    · refine (naive_container_iff hv hc).mpr ⟨v.children, ?_, (assemble_children hc).symm⟩
      have hchildren := forall₂_children hv
      refine List.forall₂_iff_get.mpr ⟨hchildren.length_eq, fun i hi hj => ?_⟩
      have hmem := List.get_mem v.children ⟨i, hj⟩
      exact ih _ hmem (hchildren.get hi hj) (hp.of_mem_children hmem)
    · push Not at hc
      obtain ⟨text, rfl⟩ := hc
      obtain ⟨hneeds, hfill⟩ := s.needs_of_plain keys (hp text (by simp [Value.texts]))
      exact naive_nil_eq_ok_iff.mpr ⟨_, [], hv, by rw [hneeds]; rfl, hfill.symm⟩

end Scope

namespace Resolver

variable {σ : Type} {r : Resolver σ} {answer : Value → String → Except Error Value}

/-- If the root of a document resolves, the result has the document's shape, and each path on its
own resolves to the node that the result has there; where it has none both fail in the same way. -/
theorem resolveOnce_eq_getPath (h : r.Answers answer) {world : σ} {whole : Value}
    (hw : (Run.exec (r.resolveOnce "") world).1 = .ok whole) :
    whole.shape = r.document.root.shape ∧
    ∀ path world',
      (Run.exec (r.resolveOnce path) world').1 = whole.getPath (Path.expand r.home path) ∧
      ∀ e, (Run.exec (r.resolveOnce path) world').1 = .error e → e.kind = .pathNotFound := by
  rw [h.exec_resolveOnce] at hw
  refine ⟨Scope.shape_of_naive hw rfl, fun path world' => ?_⟩
  have hpath : (Run.exec (r.resolveOnce path) world').1 = whole.getIn (r.keys path) := by
    rw [h.exec_resolveOnce]
    exact Scope.naive_eq_getIn hw _
  exact ⟨hpath, fun e he => Value.kind_of_getIn (hpath ▸ he)⟩

/-- Texts in a sequence, under a key with a dot, and one that refers to an item by another name of
its position. Queries are counted. -/
def listing : Resolver Nat where
  document := .ofValue <| .mapping
    [("name", .string "x"), ("list", .sequence [.string "${name~@~}!", .int 3]),
      ("a.b", .string "${.00} ${list.01}")]
  home := some "list"
  evaluate v query := Run.ofStep fun n => (echo v query, n + 1)

theorem resolveOnce_eq_getPath_listing :
    listing.Answers echo ∧
    ∃ whole, (Run.exec (listing.resolveOnce "") 0).1 = .ok whole ∧
      whole.shape = listing.document.root.shape ∧
      whole.getIn ["a.b"] = .ok (.string "x! 3") ∧
      (Run.exec (listing.resolveOnce ".000") 5).1 = .ok (.string "x!") ∧
      (Run.exec (listing.resolveOnce ".1.key") 5).1 =
        .error { Error.pathNotFound "list.1.key" with
          help := some "'key' indexes into a integer, which has no children" } := by
  have h : listing.Answers echo := fun _ _ _ => rfl
  have hw : (Run.exec (listing.resolveOnce "") 0).1 = .ok (.mapping
      [("name", .string "x"), ("list", .sequence [.string "x!", .int 3]),
        ("a.b", .string "x! 3")]) := by
    cbv
  obtain ⟨hshape, hpath⟩ := resolveOnce_eq_getPath h hw
  refine ⟨h, _, hw, hshape, by cbv, ?_, ?_⟩
  · rw [(hpath ".000" 5).1]
    cbv
  · rw [(hpath ".1.key" 5).1]
    cbv

end Resolver
end Manifest
