import Manifest.Proofs.Value.Child
import Mathlib.Data.String.Basic

/-! Normal forms of values: what is left of a value that goes to JSON and back. Keys are in
ascending order there, whatever order they were in, and a normal form is its own. -/
namespace Manifest

namespace Assoc

variable {α β : Type} {k l : String} {a : α} {es : List (String × α)}

theorem mem_keys_insert : l ∈ (insert k a es).map Prod.fst ↔ l = k ∨ l ∈ es.map Prod.fst := by
  induction es with
  | nil => simp
  | cons e es ih =>
    simp only [insert]
    split
    · simp
    · split
      · rename_i he
        simp [he]
      · simp only [List.map_cons, List.mem_cons, ih]
        exact or_left_comm

theorem pairwise_insert (h : (es.map Prod.fst).Pairwise (· < ·)) (k : String) (a : α) :
    ((insert k a es).map Prod.fst).Pairwise (· < ·) := by
  induction es with
  | nil => simp
  | cons e es ih =>
    rw [List.map_cons, List.pairwise_cons] at h
    simp only [insert]
    split
    · rename_i hlt
      rw [List.map_cons, List.map_cons, List.pairwise_cons]
      refine ⟨fun l hl => ?_, List.pairwise_cons.mpr h⟩
      rcases List.mem_cons.mp hl with rfl | hl
      · exact hlt
      · exact lt_trans hlt (h.1 l hl)
    · split
      · rename_i he
        exact List.pairwise_cons.mpr (he ▸ h)
      · rename_i hge hne
        refine List.pairwise_cons.mpr ⟨fun l hl => ?_, ih h.2⟩
        rcases mem_keys_insert.mp hl with rfl | hl
        · exact lt_of_le_of_ne (not_lt.mp hge) hne
        · exact h.1 l hl

theorem pairwise_foldl_insert (es acc : List (String × α))
    (h : (acc.map Prod.fst).Pairwise (· < ·)) :
    ((es.foldl (fun acc e => insert e.1 e.2 acc) acc).map Prod.fst).Pairwise (· < ·) := by
  induction es generalizing acc with
  | nil => exact h
  | cons e es ih => exact ih _ (pairwise_insert h e.1 e.2)

theorem pairwise_sorted (es : List (String × α)) : ((sorted es).map Prod.fst).Pairwise (· < ·) :=
  pairwise_foldl_insert es [] .nil

theorem insert_eq_concat (h : ∀ l ∈ es.map Prod.fst, l < k) (a : α) :
    insert k a es = es ++ [(k, a)] := by
  induction es with
  | nil => rfl
  | cons e es ih =>
    rw [List.map_cons, List.forall_mem_cons] at h
    rw [insert, if_neg (lt_asymm h.1), if_neg h.1.ne, ih h.2, List.cons_append]

theorem foldl_insert_eq_append (es acc : List (String × α))
    (h : ((acc ++ es).map Prod.fst).Pairwise (· < ·)) :
    es.foldl (fun acc e => insert e.1 e.2 acc) acc = acc ++ es := by
  induction es generalizing acc with
  | nil => simp
  | cons e es ih =>
    have hlast : ∀ l ∈ acc.map Prod.fst, l < e.1 := by
      rw [List.map_append, List.pairwise_append] at h
      exact fun l hl => h.2.2 l hl e.1 (List.mem_cons_self ..)
    rw [List.foldl_cons, insert_eq_concat hlast, ih _ (by simpa using h), List.append_assoc,
      List.singleton_append]

theorem sorted_eq_self (h : (es.map Prod.fst).Pairwise (· < ·)) : sorted es = es :=
  foldl_insert_eq_append es [] h

@[simp] theorem sorted_sorted (es : List (String × α)) : sorted (sorted es) = sorted es :=
  sorted_eq_self (pairwise_sorted es)

theorem map_insert (f : α → β) (k : String) (a : α) (es : List (String × α)) :
    (insert k a es).map (fun e => (e.1, f e.2)) =
      insert k (f a) (es.map fun e => (e.1, f e.2)) := by
  induction es with
  | nil => rfl
  | cons e es ih =>
    simp only [insert, List.map_cons]
    split
    · rfl
    · split
      · rfl
      · rw [List.map_cons, ih]

theorem map_sorted (f : α → β) (es : List (String × α)) :
    (sorted es).map (fun e => (e.1, f e.2)) = sorted (es.map fun e => (e.1, f e.2)) := by
  have hfold : ∀ acc : List (String × α),
      (es.foldl (fun acc e => insert e.1 e.2 acc) acc).map (fun e => (e.1, f e.2)) =
        (es.map fun e => (e.1, f e.2)).foldl (fun acc e => insert e.1 e.2 acc)
          (acc.map fun e => (e.1, f e.2)) := by
    induction es with
    | nil => exact fun _ => rfl
    | cons e es ih =>
      intro acc
      rw [List.foldl_cons, ih, map_insert, List.map_cons, List.foldl_cons]
  exact hfold []

theorem sorted_map_sorted (f : α → β) (es : List (String × α)) :
    sorted ((sorted es).map fun e => (e.1, f e.2)) = sorted (es.map fun e => (e.1, f e.2)) := by
  rw [map_sorted, sorted_sorted]

theorem perm_insert (h : k ∉ es.map Prod.fst) (a : α) : (insert k a es).Perm ((k, a) :: es) := by
  induction es with
  | nil => exact .refl _
  | cons e es ih =>
    rw [List.map_cons, List.mem_cons, not_or] at h
    simp only [insert]
    split
    · exact .refl _
    · rw [if_neg (Ne.symm h.1)]
      exact ((ih h.2).cons e).trans (.swap ..)

theorem perm_foldl_insert (es acc : List (String × α)) (h : ((acc ++ es).map Prod.fst).Nodup) :
    (es.foldl (fun acc e => insert e.1 e.2 acc) acc).Perm (acc ++ es) := by
  induction es generalizing acc with
  | nil => rw [List.append_nil]; exact .refl _
  | cons e es ih =>
    have hmove : (acc ++ e :: es).Perm (e :: acc ++ es) := List.perm_middle
    rw [(hmove.map Prod.fst).nodup_iff, List.cons_append, List.map_cons, List.map_append,
      List.nodup_cons] at h
    have hnew : e.1 ∉ acc.map Prod.fst := fun hm => h.1 (List.mem_append_left _ hm)
    have hinsert := perm_insert hnew e.2
    refine (ih _ ?_).trans ((hinsert.append_right es).trans hmove.symm)
    rw [((hinsert.append_right es).map Prod.fst).nodup_iff]
    simpa using h

theorem perm_sorted (h : (es.map Prod.fst).Nodup) : (sorted es).Perm es := perm_foldl_insert es [] h

end Assoc

namespace Value

variable {ρ : Type}

theorem normItems_eq_map (items : List Value) : normItems items = items.map norm := by
  induction items with
  | nil => rfl
  | cons v vs ih => rw [normItems, ih, List.map_cons]

theorem normEntries_eq_map (entries : List (String × Value)) :
    normEntries entries = entries.map fun e => (e.1, norm e.2) := by
  induction entries with
  | nil => rfl
  | cons e es ih => rw [normEntries, ih, List.map_cons]

theorem norm_sequence (items : List Value) :
    norm (.sequence items) = .sequence (items.map norm) := by
  rw [norm, normItems_eq_map]

theorem norm_mapping (entries : List (String × Value)) :
    norm (.mapping entries) = .mapping (Assoc.sorted (entries.map fun e => (e.1, norm e.2))) := by
  rw [norm, normEntries_eq_map]

theorem toJsonItems_eq_map (items : List Value) :
    (toJsonItems items : List (Json ρ)) = items.map toJson := by
  induction items with
  | nil => rfl
  | cons v vs ih => rw [toJsonItems, ih, List.map_cons]

theorem toJsonEntries_eq_map (entries : List (String × Value)) :
    (toJsonEntries entries : List (String × Json ρ)) = entries.map fun e => (e.1, toJson e.2) := by
  induction entries with
  | nil => rfl
  | cons e es ih => rw [toJsonEntries, ih, List.map_cons]

theorem toSortedJson_sequence (items : List Value) :
    (toSortedJson (.sequence items) : Json ρ) = .array (items.map toSortedJson) := by
  rw [toSortedJson, toJson, Json.sorted, Json.sortedItems_eq_map, toJsonItems_eq_map, List.map_map]
  rfl

theorem toSortedJson_mapping (entries : List (String × Value)) :
    (toSortedJson (.mapping entries) : Json ρ) =
      .object (Assoc.sorted (entries.map fun e => (e.1, toSortedJson e.2))) := by
  rw [toSortedJson, toJson, Json.sorted, Json.sortedMembers_eq_map, toJsonEntries_eq_map,
    List.map_map]
  rfl

theorem ofJsonItems_eq_map (items : List (Json ρ)) : ofJsonItems items = items.map ofJson := by
  induction items with
  | nil => rfl
  | cons x xs ih => rw [ofJsonItems, ih, List.map_cons]

theorem ofJsonMembers_eq_map (members : List (String × Json ρ)) :
    ofJsonMembers members = members.map fun m => (m.1, ofJson m.2) := by
  induction members with
  | nil => rfl
  | cons m ms ih => rw [ofJsonMembers, ih, List.map_cons]

theorem ofJson_object (members : List (String × Json ρ)) :
    ofJson (.object members) =
      .mapping (Assoc.sorted (members.map fun m => (m.1, ofJson m.2))) := by
  rw [ofJson, ofJsonMembers_eq_map]

theorem ofInteger_toInt (n : Int64) : ofInteger n.toInt = .int n := by
  rw [ofInteger, if_pos ⟨n.le_toInt, n.toInt_lt⟩, Int64.ofInt_toInt]

/-- What a value is when it comes back from JSON is its normal form. -/
theorem ofJson_toSortedJson (v : Value) : ofJson (toSortedJson v : Json ρ) = norm v := by
  induction v using induction_children with
  | h v ih =>
    cases v with
    | mapping entries =>
      have hsame : ∀ e ∈ entries, (e.1, ofJson (toSortedJson e.2 : Json ρ)) = (e.1, norm e.2) :=
        fun e he => by rw [ih e.2 (List.mem_map_of_mem he)]
      rw [toSortedJson_mapping, ofJson_object, Assoc.sorted_map_sorted, List.map_map, norm_mapping]
      exact congrArg (fun es => mapping (Assoc.sorted es)) (List.map_congr_left hsame)
    | sequence items =>
      rw [toSortedJson_sequence, ofJson, ofJsonItems_eq_map, List.map_map, norm_sequence]
      exact congrArg sequence (List.map_congr_left ih)
    | int n => exact ofInteger_toInt n
    | float x =>
      -- Only a double that is a number gets as far as JSON.
      by_cases hx : Decimal.isFinite x
      · simp [toSortedJson, toJson, Json.sorted, ofJson, norm, hx]
      · simp [toSortedJson, toJson, Json.sorted, ofJson, norm, hx]
    | null | bool | string | datetime => rfl

/-- JSON does not tell a value from its normal form. -/
theorem toSortedJson_norm (v : Value) : (toSortedJson (norm v) : Json ρ) = toSortedJson v := by
  induction v using induction_children with
  | h v ih =>
    cases v with
    | mapping entries =>
      have hsame : ∀ e ∈ entries,
          (e.1, (toSortedJson (norm e.2) : Json ρ)) = (e.1, toSortedJson e.2) :=
        fun e he => by rw [ih e.2 (List.mem_map_of_mem he)]
      rw [norm_mapping, toSortedJson_mapping, Assoc.sorted_map_sorted, List.map_map,
        toSortedJson_mapping]
      exact congrArg (fun ms => Json.object (Assoc.sorted ms)) (List.map_congr_left hsame)
    | sequence items =>
      rw [norm_sequence, toSortedJson_sequence, List.map_map, toSortedJson_sequence]
      exact congrArg Json.array (List.map_congr_left ih)
    | float x =>
      by_cases hx : Decimal.isFinite x
      · simp [norm, hx]
      · simp [toSortedJson, toJson, norm, hx]
    | null | bool | int | string | datetime => rfl

theorem norm_ofInteger (n : Int) : norm (ofInteger n) = ofInteger n := by
  unfold ofInteger
  split
  · rfl
  · split
    · rename_i hx
      rw [norm, if_pos hx]
    · rfl

mutual

/-- Whatever comes from JSON is a normal form. -/
theorem norm_ofJson (x : Json ρ) : norm (ofJson x) = ofJson x := by
  match x with
  | .array items =>
    rw [ofJson, norm_sequence, norm_ofJsonItems items]
  | .object members =>
    rw [ofJson, norm_mapping, Assoc.sorted_map_sorted, norm_ofJsonMembers members]
  | .int n => exact norm_ofInteger n
  | .float x =>
    rw [ofJson]
    split
    · rename_i hx
      rw [norm, if_pos hx]
    · rfl
  | .null | .bool _ | .string _ | .reference _ => rfl

theorem norm_ofJsonItems (items : List (Json ρ)) :
    (ofJsonItems items).map norm = ofJsonItems items := by
  match items with
  | [] => rfl
  | x :: xs => rw [ofJsonItems, List.map_cons, norm_ofJson x, norm_ofJsonItems xs]

theorem norm_ofJsonMembers (members : List (String × Json ρ)) :
    (ofJsonMembers members).map (fun e => (e.1, norm e.2)) = ofJsonMembers members := by
  match members with
  | [] => rfl
  | (k, x) :: ms => rw [ofJsonMembers, List.map_cons, norm_ofJson x, norm_ofJsonMembers ms]

end

theorem norm_norm (v : Value) : norm (norm v) = norm v := by
  rw [← ofJson_toSortedJson (ρ := Empty) v, norm_ofJson]

end Value
end Manifest
