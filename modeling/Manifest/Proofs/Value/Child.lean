import Manifest.Placeholder
import Manifest.Value.Address
import Mathlib.Data.List.Forall2

/-! The children of a node: they are what its keys lead to, and inductions go through them. The
shape of a value is all of it but its texts. -/
namespace Manifest

namespace Assoc

variable {κ α : Type} [DecidableEq κ] {R : κ → α → Prop} {k : κ} {ks : List κ} {as : List α}

theorem exists_find?_zip (h : List.Forall₂ R ks as) (hk : k ∈ ks) :
    ∃ a, find? k (ks.zip as) = some a ∧ R k a := by
  induction h with
  | nil => cases hk
  | @cons l a ks as hr _ ih =>
    by_cases hl : l = k
    · subst hl
      exact ⟨a, by simp, hr⟩
    · obtain ⟨b, hb, hrb⟩ := ih ((List.mem_cons.mp hk).resolve_left (Ne.symm hl))
      exact ⟨b, by rw [List.zip_cons_cons, find?_cons_ne hl, hb], hrb⟩

theorem find?_zip_eq_none (h : List.Forall₂ R ks as) (hk : k ∉ ks) :
    find? k (ks.zip as) = none := by
  rw [find?_eq_none_iff, List.map_fst_zip (Nat.le_of_eq h.length_eq)]
  exact hk

end Assoc

namespace Value

theorem childKeys_mapping (entries : List (String × Value)) :
    (mapping entries).childKeys = entries.map Prod.fst := rfl

def children : Value → List Value
  | .mapping entries => entries.map Prod.snd
  | .sequence items => items
  | _ => []

theorem sizeOf_lt_of_mem_children {v w : Value} (h : w ∈ v.children) : sizeOf w < sizeOf v := by
  cases v with
  | mapping entries =>
    obtain ⟨e, he, rfl⟩ := List.mem_map.mp h
    have hlt := List.sizeOf_lt_of_mem he
    have hsnd : sizeOf e.2 < sizeOf e := by
      obtain ⟨key, w⟩ := e
      simp only [Prod.mk.sizeOf_spec]
      omega
    simp only [mapping.sizeOf_spec]
    omega
  | sequence items =>
    have hlt : sizeOf w < sizeOf items := List.sizeOf_lt_of_mem h
    simp only [sequence.sizeOf_spec]
    omega
  | _ => cases h

/-- What holds of a value once it holds of its children holds of every value. -/
theorem induction_children {P : Value → Prop} (h : ∀ v, (∀ w ∈ v.children, P w) → P v) (v : Value) :
    P v := by
  induction hn : sizeOf v using Nat.strongRecOn generalizing v with
  | _ n ih =>
    subst hn
    exact h v fun w hw => ih _ (sizeOf_lt_of_mem_children hw) w rfl

theorem child_ofPosition {items : List Value} {i : Nat} {w : Value} (h : items[i]? = some w) :
    (sequence items).child (Path.ofPosition i) = .ok w := by
  simp [child, h]

theorem forall₂_child {v : Value} (hd : Distinct v) :
    List.Forall₂ (fun key w => v.child key = .ok w) v.childKeys v.children := by
  cases v with
  | mapping entries =>
    simp only [childKeys, children, List.forall₂_map_left_iff, List.forall₂_map_right_iff,
      List.forall₂_same]
    intro e he
    simp [child, Assoc.find?_of_mem hd.1 he]
  | sequence items =>
    refine List.forall₂_of_length_eq_of_get (by simp [childKeys, children]) fun i _ hi => ?_
    simp only [childKeys, List.get_eq_getElem, List.getElem_map, List.getElem_range]
    exact child_ofPosition (List.getElem?_eq_getElem hi)
  | _ => exact .nil

theorem exists_child_of_mem {v : Value} {key : String} (hd : Distinct v) (h : key ∈ v.childKeys) :
    ∃ w ∈ v.children, v.child key = .ok w := by
  obtain ⟨i, hi, rfl⟩ := List.getElem_of_mem h
  have hall := forall₂_child hd
  have hi' : i < v.children.length := hall.length_eq ▸ hi
  exact ⟨_, List.getElem_mem hi', hall.get hi hi'⟩

theorem getIn_concat {v w u : Value} {keys : Keys} {key : String} (h : v.getIn keys = .ok w) :
    v.getIn (keys ++ [key]) = .ok u ↔ w.child key = .ok u := by
  rw [getIn_eq_ok] at h ⊢
  rw [walk_append, h]
  simp only [Except.bind, walk]
  cases w.child key <;> simp

/-- No text in the value holds a placeholder. -/
def Plain (v : Value) : Prop := ∀ text ∈ v.texts, Template.hasPlaceholder text = false

instance (v : Value) : Decidable v.Plain :=
  inferInstanceAs (Decidable (∀ text ∈ v.texts, Template.hasPlaceholder text = false))

theorem Plain.of_mem_children {v w : Value} (h : v.Plain) (hw : w ∈ v.children) : w.Plain := by
  intro text ht
  refine h text ?_
  cases v with
  | mapping entries =>
    obtain ⟨e, he, rfl⟩ := List.mem_map.mp hw
    exact mem_entryTexts.mpr ⟨e, he, ht⟩
  | sequence items => exact mem_itemTexts.mpr ⟨w, hw, ht⟩
  | _ => cases hw

mutual

/-- The value with every text in it made empty. Two values of one shape have the same kinds of
containers with the same keys in the same order and the same number of items, the same scalars, and
texts in the same places. -/
def shape : Value → Value
  | .string _ => .string ""
  | .sequence items => .sequence (itemShapes items)
  | .mapping entries => .mapping (entryShapes entries)
  | .null => .null
  | .bool b => .bool b
  | .int n => .int n
  | .float x => .float x
  | .datetime d => .datetime d

def itemShapes : List Value → List Value
  | [] => []
  | v :: vs => shape v :: itemShapes vs

def entryShapes : List (String × Value) → List (String × Value)
  | [] => []
  | (k, v) :: es => (k, shape v) :: entryShapes es

end

theorem shape_sequence (items : List Value) :
    shape (.sequence items) = .sequence (items.map shape) := by
  have h : ∀ vs, itemShapes vs = vs.map shape := fun vs => by
    induction vs with
    | nil => rfl
    | cons v vs ih => simp [itemShapes, ih]
  rw [shape, h]

theorem shape_mapping (entries : List (String × Value)) :
    shape (.mapping entries) =
      .mapping ((entries.map Prod.fst).zip ((entries.map Prod.snd).map shape)) := by
  have h : ∀ es, entryShapes es = (es.map Prod.fst).zip ((es.map Prod.snd).map shape) :=
    fun es => by
    induction es with
    | nil => rfl
    | cons e es ih => simp [entryShapes, ih]
  rw [shape, h]

end Value
end Manifest
