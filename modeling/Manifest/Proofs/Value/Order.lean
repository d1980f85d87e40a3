import Manifest.Proofs.Text.Octets
import Manifest.Proofs.Value.Normal
import Manifest.Proofs.Value.Texts

/-! Values with their mappings in order, and what is in a value: its leaves, which are all but
containers, and how deep containers stand inside one another. Without doubles and datetimes a value
is, up to the order of entries, told by its normal form. -/
namespace Manifest

namespace Assoc

variable {α : Type} {es : List (String × α)} {e : String × α}

theorem mem_of_mem_sorted (h : e ∈ sorted es) : e ∈ es := by
  have hfold : ∀ (fs acc : List (String × α)), e ∈ fs.foldl (fun acc e => insert e.1 e.2 acc) acc →
      e ∈ acc ∨ e ∈ fs := fun fs => by
    induction fs with
    | nil => exact fun acc h => .inl h
    | cons f fs ih =>
      intro acc h
      rcases ih _ h with h | h
      · rcases mem_insert h with rfl | h
        · exact .inr (List.mem_cons_self ..)
        · exact .inl h
      · exact .inr (List.mem_cons_of_mem _ h)
  exact (hfold es [] h).resolve_left List.not_mem_nil

/-- Of entries with different keys none is lost in sorting, whatever is done to what they hold. -/
theorem perm_sorted_map {β : Type} (f : α → β) (h : (es.map Prod.fst).Nodup) :
    (sorted (es.map fun e => (e.1, f e.2))).Perm (es.map fun e => (e.1, f e.2)) := by
  refine perm_sorted ?_
  rwa [List.map_map]

end Assoc

namespace Value

variable {v w : Value} {items : List Value} {entries : List (String × Value)}

mutual

/-- In every mapping inside, the keys ascend in the order of their octets. -/
def Ordered : Value → Prop
  | .sequence items => OrderedItems items
  | .mapping entries =>
    (entries.Pairwise fun a b => Text.Utf8.encode a.1 < Text.Utf8.encode b.1) ∧
      OrderedEntries entries
  | _ => True

def OrderedItems : List Value → Prop
  | [] => True
  | v :: vs => Ordered v ∧ OrderedItems vs

def OrderedEntries : List (String × Value) → Prop
  | [] => True
  | (_, v) :: es => Ordered v ∧ OrderedEntries es

end

mutual

/-- The value with every mapping's entries in ascending order of their keys, and all else as it
is. -/
def sorted : Value → Value
  | .sequence items => .sequence (sortedItems items)
  | .mapping entries => .mapping (Assoc.sorted (sortedEntries entries))
  | .null => .null
  | .bool b => .bool b
  | .int n => .int n
  | .float x => .float x
  | .string s => .string s
  | .datetime d => .datetime d

def sortedItems : List Value → List Value
  | [] => []
  | v :: vs => sorted v :: sortedItems vs

def sortedEntries : List (String × Value) → List (String × Value)
  | [] => []
  | (k, v) :: es => (k, sorted v) :: sortedEntries es

end

mutual

def leaves : Value → List Value
  | .sequence items => itemLeaves items
  | .mapping entries => entryLeaves entries
  | v => [v]

def itemLeaves : List Value → List Value
  | [] => []
  | v :: vs => leaves v ++ itemLeaves vs

def entryLeaves : List (String × Value) → List Value
  | [] => []
  | (_, v) :: es => leaves v ++ entryLeaves es

end

mutual

def depth : Value → Nat
  | .sequence items => itemsDepth items + 1
  | .mapping entries => entriesDepth entries + 1
  | _ => 0

def itemsDepth : List Value → Nat
  | [] => 0
  | v :: vs => max (depth v) (itemsDepth vs)

def entriesDepth : List (String × Value) → Nat
  | [] => 0
  | (_, v) :: es => max (depth v) (entriesDepth es)

end

def FloatFree (v : Value) : Prop := ∀ x, .float x ∉ v.leaves

def DatetimeFree (v : Value) : Prop := ∀ d, .datetime d ∉ v.leaves

theorem ordered_sequence : Ordered (.sequence items) ↔ ∀ v ∈ items, Ordered v := by
  have h : ∀ vs, OrderedItems vs ↔ ∀ v ∈ vs, Ordered v := fun vs => by
    induction vs with
    | nil => simp [OrderedItems]
    | cons v vs ih => simp [OrderedItems, ih]
  rw [Ordered, h]

theorem ordered_mapping : Ordered (.mapping entries) ↔
    (entries.map Prod.fst).Pairwise (· < ·) ∧ ∀ e ∈ entries, Ordered e.2 := by
  have h : ∀ es, OrderedEntries es ↔ ∀ e ∈ es, Ordered e.2 := fun es => by
    induction es with
    | nil => simp [OrderedEntries]
    | cons e es ih => simp [OrderedEntries, ih]
  rw [Ordered, h, List.pairwise_map]
  simp only [Text.Utf8.encode_lt_encode]

theorem sorted_sequence (items : List Value) :
    sorted (.sequence items) = .sequence (items.map sorted) := by
  have h : ∀ vs, sortedItems vs = vs.map sorted := fun vs => by
    induction vs with
    | nil => rfl
    | cons v vs ih => rw [sortedItems, ih, List.map_cons]
  rw [sorted, h]

theorem sorted_mapping (entries : List (String × Value)) :
    sorted (.mapping entries) =
      .mapping (Assoc.sorted (entries.map fun e => (e.1, sorted e.2))) := by
  have h : ∀ es, sortedEntries es = es.map fun e => (e.1, sorted e.2) := fun es => by
    induction es with
    | nil => rfl
    | cons e es ih => rw [sortedEntries, ih, List.map_cons]
  rw [sorted, h]

/-- Entries that come out of sorting are in order if what is behind the keys is. -/
theorem ordered_mapping_sorted (h : ∀ e ∈ entries, Ordered e.2) :
    Ordered (.mapping (Assoc.sorted entries)) := by
  have hbelow : ∀ e ∈ Assoc.sorted entries, Ordered e.2 :=
    fun e he => h e (Assoc.mem_of_mem_sorted he)
  exact ordered_mapping.mpr ⟨Assoc.pairwise_sorted entries, hbelow⟩

theorem ordered_sorted (v : Value) : Ordered v.sorted := by
  induction v using induction_children with
  | h v ih =>
    cases v with
    | sequence items =>
      rw [sorted_sequence, ordered_sequence]
      simpa [children] using ih
    | mapping entries =>
      rw [sorted_mapping]
      refine ordered_mapping_sorted fun e he => ?_
      obtain ⟨f, hf, rfl⟩ := List.mem_map.mp he
      exact ih f.2 (List.mem_map_of_mem hf)
    | _ => trivial

theorem sorted_eq_self (h : Ordered v) : v.sorted = v := by
  induction v using induction_children with
  | h v ih =>
    cases v with
    | sequence items =>
      have hsame : ∀ w ∈ items, sorted w = w := fun w hw => ih w hw (ordered_sequence.mp h w hw)
      rw [sorted_sequence, List.map_congr_left hsame, List.map_id']
    | mapping entries =>
      obtain ⟨hkeys, hbelow⟩ := ordered_mapping.mp h
      have hsame : ∀ e ∈ entries, (e.1, sorted e.2) = e := fun e he => by
        rw [ih e.2 (List.mem_map_of_mem he) (hbelow e he)]
      rw [sorted_mapping, List.map_congr_left hsame, List.map_id', Assoc.sorted_eq_self hkeys]
    | _ => rfl

theorem ordered_norm (v : Value) : Ordered v.norm := by
  induction v using induction_children with
  | h v ih =>
    cases v with
    | sequence items =>
      rw [norm_sequence, ordered_sequence]
      simpa [children] using ih
    | mapping entries =>
      rw [norm_mapping]
      refine ordered_mapping_sorted fun e he => ?_
      obtain ⟨f, hf, rfl⟩ := List.mem_map.mp he
      exact ih f.2 (List.mem_map_of_mem hf)
    | float x =>
      rw [norm]
      split <;> trivial
    | _ => trivial

/-- The JSON form of the normal form is that of the value with its mappings in order. -/
theorem toJson_norm {ρ : Type} (v : Value) : (v.norm.toJson : Json ρ) = v.sorted.toJson := by
  induction v using induction_children with
  | h v ih =>
    cases v with
    | sequence items =>
      rw [norm_sequence, sorted_sequence, toJson, toJson, toJsonItems_eq_map, toJsonItems_eq_map,
        List.map_map,
        List.map_map]
      exact congrArg Json.array (List.map_congr_left ih)
    | mapping entries =>
      have hsame : ∀ e ∈ entries, (e.1, (e.2.norm.toJson : Json ρ)) = (e.1, e.2.sorted.toJson) :=
        fun e he => by
        rw [ih e.2 (List.mem_map_of_mem he)]
      rw [norm_mapping, sorted_mapping, toJson, toJson, toJsonEntries_eq_map, toJsonEntries_eq_map,
        Assoc.map_sorted, Assoc.map_sorted, List.map_map, List.map_map]
      exact congrArg (fun ms => Json.object (Assoc.sorted ms)) (List.map_congr_left hsame)
    | float x => by_cases hx : Decimal.isFinite x <;> simp [norm, sorted, toJson, hx]
    | null | bool | int | string | datetime => rfl

/-- Inside a text nothing tells the normal form from the value with its mappings in order. -/
theorem render_norm (v : Value) : v.norm.render = v.sorted.render := by
  have hjson : v.norm.json = v.sorted.json := by rw [json, json, toJson_norm]
  cases v with
  | float x =>
    rw [norm] at hjson ⊢
    split <;> simp_all [render, sorted]
  | sequence items =>
    rw [norm_sequence, sorted_sequence] at hjson ⊢
    exact hjson
  | mapping entries =>
    rw [norm_mapping, sorted_mapping] at hjson ⊢
    exact hjson
  | null | bool | int | string | datetime => rfl

theorem mem_leaves_of_mem_children {u : Value} (hw : w ∈ v.children) (hu : u ∈ w.leaves) :
    u ∈ v.leaves := by
  have hitems : ∀ vs : List Value, w ∈ vs → u ∈ itemLeaves vs := fun vs h => by
    induction vs with
    | nil => cases h
    | cons x xs ih =>
      rw [itemLeaves, List.mem_append]
      rcases List.mem_cons.mp h with rfl | h
      · exact .inl hu
      · exact .inr (ih h)
  have hentries : ∀ es : List (String × Value), w ∈ es.map Prod.snd → u ∈ entryLeaves es :=
    fun es h => by
    induction es with
    | nil => cases h
    | cons e es ih =>
      rw [entryLeaves, List.mem_append]
      rcases List.mem_cons.mp h with rfl | h
      · exact .inl hu
      · exact .inr (ih h)
  cases v with
  | sequence items => exact hitems items hw
  | mapping entries => exact hentries entries hw
  | _ => cases hw

theorem FloatFree.of_mem_children (h : v.FloatFree) (hw : w ∈ v.children) : w.FloatFree :=
  fun x hx => h x (mem_leaves_of_mem_children hw hx)

theorem DatetimeFree.of_mem_children (h : v.DatetimeFree) (hw : w ∈ v.children) : w.DatetimeFree :=
  fun d hd => h d (mem_leaves_of_mem_children hw hd)

theorem depth_lt_of_mem_children (h : w ∈ v.children) : w.depth < v.depth := by
  have hitems : ∀ vs : List Value, w ∈ vs → w.depth ≤ itemsDepth vs := fun vs h => by
    induction vs with
    | nil => cases h
    | cons x xs ih =>
      rw [itemsDepth]
      rcases List.mem_cons.mp h with rfl | h
      · exact le_max_left _ _
      · exact (ih h).trans (le_max_right _ _)
  have hentries : ∀ es : List (String × Value), w ∈ es.map Prod.snd → w.depth ≤ entriesDepth es :=
    fun es h => by
    induction es with
    | nil => cases h
    | cons e es ih =>
      rw [entriesDepth]
      rcases List.mem_cons.mp h with rfl | h
      · exact le_max_left _ _
      · exact (ih h).trans (le_max_right _ _)
  cases v with
  | sequence items => exact Nat.lt_succ_of_le (hitems items h)
  | mapping entries => exact Nat.lt_succ_of_le (hentries entries h)
  | _ => cases h

theorem sameItems_iff {vs ws : List Value} :
    sameItems vs ws = true ↔ List.Forall₂ (fun v w => same v w = true) vs ws := by
  induction vs generalizing ws with
  | nil => cases ws <;> simp [sameItems]
  | cons v vs ih => cases ws <;> simp [sameItems, ih]

theorem sameEntries_iff {es fs : List (String × Value)} :
    sameEntries es fs = true ↔ ∀ e ∈ es, ∃ w, Assoc.find? e.1 fs = some w ∧ same e.2 w = true := by
  induction es with
  | nil => simp [sameEntries]
  | cons e es ih =>
    simp only [sameEntries, Bool.and_eq_true, ih, List.forall_mem_cons]
    cases Assoc.find? e.1 fs <;> simp

/-- Without doubles and datetimes, values with one normal form are the same up to the order of
entries. -/
theorem same_of_norm_eq (hv : v.Distinct) (hw : w.Distinct) (hfloat : v.FloatFree ∧ w.FloatFree)
    (hdatetime : v.DatetimeFree ∧ w.DatetimeFree) (h : v.norm = w.norm) : same v w = true := by
  induction v using induction_children generalizing w with
  | h v ih =>
    have hchild : ∀ x ∈ v.children, ∀ y ∈ w.children, x.norm = y.norm → same x y = true :=
      fun x hx y hy heq =>
      ih x hx (hv.of_mem_children hx) (hw.of_mem_children hy)
        ⟨hfloat.1.of_mem_children hx, hfloat.2.of_mem_children hy⟩
        ⟨hdatetime.1.of_mem_children hx, hdatetime.2.of_mem_children hy⟩ heq
    have hnofloat : ∀ x, v ≠ .float x ∧ w ≠ .float x := fun x =>
      ⟨fun hx => hfloat.1 x (by simp [hx, leaves]), fun hx => hfloat.2 x (by simp [hx, leaves])⟩
    have hnodate : ∀ d, v ≠ .datetime d ∧ w ≠ .datetime d := fun d =>
      ⟨fun hd => hdatetime.1 d (by simp [hd, leaves]), fun hd =>
        hdatetime.2 d (by simp [hd, leaves])⟩
    cases v with
    | float x => exact absurd rfl (hnofloat x).1
    | datetime d => exact absurd rfl (hnodate d).1
    | sequence items =>
      cases w with
      | float x => exact absurd rfl (hnofloat x).2
      | sequence items' =>
        rw [norm_sequence, norm_sequence, sequence.injEq] at h
        have hlength : items.length = items'.length := by simpa using congrArg List.length h
        rw [same, sameItems_iff, List.forall₂_iff_get]
        refine ⟨hlength, fun i hi hi' =>
          hchild items[i] (List.getElem_mem hi) items'[i] (List.getElem_mem hi') ?_⟩
        have hget := congrArg (fun l : List Value => l[i]?) h
        simpa [hi, hi'] using hget
      | _ => cases h
    | mapping entries =>
      cases w with
      | float x => exact absurd rfl (hnofloat x).2
      | mapping entries' =>
        rw [norm_mapping, norm_mapping, mapping.injEq] at h
        have hperm :=
          (Assoc.perm_sorted_map norm hv.1).symm.trans (h ▸ Assoc.perm_sorted_map norm hw.1)
        have hlength : entries.length = entries'.length := by simpa using hperm.length_eq
        rw [same, Bool.and_eq_true, beq_iff_eq, sameEntries_iff]
        refine ⟨hlength, fun e he => ?_⟩
        -- The entry of the other mapping with this key and this normal form is the one the key
        -- finds.
        have hmem : (e.1, e.2.norm) ∈ entries'.map fun f => (f.1, f.2.norm) :=
          hperm.subset (List.mem_map_of_mem (f := fun e : String × Value => (e.1, e.2.norm)) he)
        obtain ⟨f, hf, heq⟩ := List.mem_map.mp hmem
        obtain ⟨hkey, hnorm⟩ := Prod.mk.inj heq
        have hfind : Assoc.find? e.1 entries' = some f.2 := Assoc.find?_of_mem hw.1 (hkey ▸ hf)
        exact ⟨f.2, hfind, hchild _ (List.mem_map_of_mem he) _ (List.mem_map_of_mem hf) hnorm.symm⟩
      | _ => cases h
    | _ =>
      cases w with
      | float x => exact absurd rfl (hnofloat x).2
      | datetime d => exact absurd rfl (hnodate d).2
      | _ => cases h <;> simp [same]

end Value
end Manifest
