import Manifest.Proofs.Value.Child

/-! What is known of a value from its children: the texts in it, the nodes below it, and that no
mapping in it repeats a key. -/
namespace Manifest

namespace Assoc

variable {κ α : Type} [DecidableEq κ] {k : κ} {es : List (κ × α)}

theorem put_eq_concat (h : k ∉ es.map Prod.fst) (a : α) : put k a es = es ++ [(k, a)] := by
  induction es with
  | nil => rfl
  | cons e es ih =>
    simp only [List.map_cons, List.mem_cons, not_or] at h
    simp [put, Ne.symm h.1, ih h.2]

theorem foldl_put_eq_append (es acc : List (κ × α)) (h : ((acc ++ es).map Prod.fst).Nodup) :
    es.foldl (fun acc e => put e.1 e.2 acc) acc = acc ++ es := by
  induction es generalizing acc with
  | nil => simp
  | cons e es ih =>
    have hnew : e.1 ∉ acc.map Prod.fst := by
      rw [List.map_append, List.map_cons, List.nodup_append] at h
      exact fun hm => h.2.2 _ hm _ (List.mem_cons_self ..) rfl
    have hrest : ((acc ++ [e] ++ es).map Prod.fst).Nodup := by simpa using h
    rw [List.foldl_cons, put_eq_concat hnew, ih _ hrest, List.append_assoc, List.singleton_append]

theorem ofEntries_eq_self (h : (es.map Prod.fst).Nodup) : ofEntries es = es :=
  foldl_put_eq_append es [] h

end Assoc

namespace Value

variable {v w : Value} {keys : Keys} {key text : String}

theorem Distinct.of_mem_children (h : Distinct v) (hw : w ∈ v.children) : Distinct w := by
  cases v with
  | mapping entries =>
    obtain ⟨e, he, rfl⟩ := List.mem_map.mp hw
    exact (distinctEntries_iff entries).mp h.2 e he
  | sequence items => exact (distinctItems_iff items).mp h w hw
  | _ => cases hw

theorem distinct_eq_self (h : Distinct v) : distinct v = v := by
  have hitems : ∀ vs, distinctItems vs = vs.map distinct := fun vs => by
    induction vs with
    | nil => rfl
    | cons v vs ih => simp [distinctItems, ih]
  have hentries : ∀ es, distinctEntries es = es.map fun e => (e.1, distinct e.2) := fun es => by
    induction es with
    | nil => rfl
    | cons e es ih => simp [distinctEntries, ih]
  induction v using induction_children with
  | h v ih =>
    have hchild : ∀ w ∈ v.children, distinct w = w := fun w hw => ih w hw (h.of_mem_children hw)
    cases v with
    | mapping entries =>
      have hsame : ∀ e ∈ entries, (e.1, distinct e.2) = e := fun e he => by
        rw [hchild e.2 (List.mem_map_of_mem he)]
      rw [distinct, hentries, List.map_congr_left hsame, List.map_id', Assoc.ofEntries_eq_self h.1]
    | sequence items =>
      have hsame : ∀ w ∈ items, distinct w = w := hchild
      rw [distinct, hitems, List.map_congr_left hsame, List.map_id']
    | _ => rfl

theorem mem_texts_iff : text ∈ v.texts ↔ v = .string text ∨ ∃ w ∈ v.children, text ∈ w.texts := by
  cases v with
  | mapping entries =>
    simp only [texts, mem_entryTexts, children, reduceCtorEq, false_or]
    constructor
    · rintro ⟨e, he, ht⟩
      exact ⟨e.2, List.mem_map_of_mem he, ht⟩
    · rintro ⟨w, hw, ht⟩
      obtain ⟨e, he, rfl⟩ := List.mem_map.mp hw
      exact ⟨e, he, ht⟩
  | sequence items => simp [texts, children, mem_itemTexts]
  | _ => simp [texts, children, eq_comm]

theorem Plain.of_child (h : v.Plain) (hw : v.child key = .ok w) : w.Plain := by
  rcases child_eq_ok hw with ⟨entries, rfl, he⟩ | ⟨items, i, rfl, -, hi⟩
  · exact h.of_mem_children (List.mem_map_of_mem (f := Prod.snd) (Assoc.mem_of_find? he))
  · exact h.of_mem_children (List.mem_of_getElem? hi)

theorem Plain.of_getIn (h : v.Plain) (hw : v.getIn keys = .ok w) : w.Plain := by
  rw [getIn_eq_ok] at hw
  induction keys generalizing v with
  | nil => exact Except.ok.inj hw ▸ h
  | cons key keys ih =>
    rw [walk] at hw
    cases hu : v.child key with
    | error m => rw [hu] at hw; cases hw
    | ok u =>
      rw [hu] at hw
      exact ih (h.of_child hu) hw

theorem exists_child_of_cons_mem (hd : Distinct v) (h : key :: keys ∈ v.addresses) :
    key ∈ v.childKeys ∧ ∃ w, v.child key = .ok w ∧ keys ∈ w.addresses := by
  cases v with
  | mapping entries =>
    simp only [addresses, List.mem_cons, reduceCtorEq, false_or] at h
    obtain ⟨e, he, below, hb, hk⟩ := mem_entryAddresses.mp h
    obtain ⟨rfl, rfl⟩ := List.cons.inj hk
    refine ⟨List.mem_map_of_mem he, e.2, ?_, hb⟩
    simp [child, Assoc.find?_of_mem hd.1 he]
  | sequence items =>
    simp only [addresses, List.mem_cons, reduceCtorEq, false_or] at h
    obtain ⟨i, w, hi, below, hb, hk⟩ := mem_itemAddresses.mp h
    obtain ⟨rfl, rfl⟩ := List.cons.inj hk
    rw [Nat.zero_add]
    obtain ⟨hlt, -⟩ := List.getElem?_eq_some_iff.mp hi
    exact ⟨List.mem_map_of_mem (List.mem_range.mpr hlt), w, child_ofPosition hi, hb⟩
  | _ => simp [addresses] at h

end Value
end Manifest
