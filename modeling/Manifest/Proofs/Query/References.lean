import Manifest.Query
import Manifest.Proofs.Value.Order

/-! The references in a value. Documents and texts have none, and the parts that queries take out of
values have no others than these. -/
namespace Manifest

namespace Json

variable {ρ : Type}

/-- All references in a value have a property. -/
inductive Within (P : ρ → Prop) : Json ρ → Prop
  | null : Within P .null
  | bool (b : Bool) : Within P (.bool b)
  | int (n : Int) : Within P (.int n)
  | float (x : Float) : Within P (.float x)
  | string (s : String) : Within P (.string s)
  | array {items : List (Json ρ)} (h : ∀ x ∈ items, Within P x) : Within P (.array items)
  | object {members : List (String × Json ρ)} (h : ∀ m ∈ members, Within P m.2) :
    Within P (.object members)
  | reference {r : ρ} (h : P r) : Within P (.reference r)

variable {P : ρ → Prop} {x : Json ρ}

@[simp] theorem within_array {items : List (Json ρ)} :
    Within P (.array items) ↔ ∀ x ∈ items, Within P x :=
  ⟨fun h => by cases h with | array h => exact h, .array⟩

@[simp] theorem within_object {members : List (String × Json ρ)} :
    Within P (.object members) ↔ ∀ m ∈ members, Within P m.2 :=
  ⟨fun h => by cases h with | object h => exact h, .object⟩

@[simp] theorem within_reference {r : ρ} : Within P (.reference r) ↔ P r :=
  ⟨fun h => by cases h with | reference h => exact h, .reference⟩

theorem Within.sorted (h : Within P x) : Within P x.sorted := by
  induction h with
  | null => exact .null
  | bool b => exact .bool b
  | int n => exact .int n
  | float x => exact .float x
  | string s => exact .string s
  | array _ ih =>
    rw [Json.sorted, sortedItems_eq_map]
    exact .array (List.forall_mem_map.mpr ih)
  | object _ ih =>
    rw [Json.sorted, sortedMembers_eq_map]
    refine .object fun m hm => ?_
    obtain ⟨n, hn, rfl⟩ := List.mem_map.mp (Assoc.mem_of_mem_sorted hm)
    exact ih n hn
  | reference h => exact .reference h

mutual

theorem within_embed (x : Json Empty) : Within P (embed x) := by
  match x with
  | .null => exact .null
  | .bool b => exact .bool b
  | .int n => exact .int n
  | .float x => exact .float x
  | .string s => exact .string s
  | .array items => exact .array (within_embedItems items)
  | .object members => exact .object (within_embedMembers members)

theorem within_embedItems (items : List (Json Empty)) : ∀ x ∈ embedItems items, Within P x := by
  match items with
  | [] => nofun
  | x :: xs => exact List.forall_mem_cons.mpr ⟨within_embed x, within_embedItems xs⟩

theorem within_embedMembers (members : List (String × Json Empty)) :
    ∀ m ∈ embedMembers members, Within P m.2 := by
  match members with
  | [] => nofun
  | (k, x) :: ms => exact List.forall_mem_cons.mpr ⟨within_embed x, within_embedMembers ms⟩

end

namespace Reader

variable {item : List Char → Option (Json ρ × List Char)} {s rest : List Char}

theorem within_ofInteger (negative : Bool) (n : Nat) : Within P (ofInteger negative n) := by
  unfold ofInteger
  split <;> split
  all_goals first | exact .int _ | exact .float _

theorem within_unsigned {negative : Bool} (h : unsigned negative s = some (x, rest)) :
    Within P x := by
  unfold unsigned at h
  split at h
  · cases h
  · cases h
  · simp only [Option.bind_eq_bind, Option.bind_eq_some_iff, Prod.exists] at h
    obtain ⟨part, s', -, power, s'', -, h⟩ := h
    split at h
    · cases h; exact within_ofInteger ..
    · split at h
      · cases h; exact .float _
      · cases h

theorem within_number (h : number s = some (x, rest)) : Within P x := by
  unfold number at h
  split at h <;> exact within_unsigned h

theorem within_items (hitem : ∀ s x rest, item s = some (x, rest) → Within P x) {n : Nat}
    {xs : List (Json ρ)} (h : items item n s = some (xs, rest)) : ∀ x ∈ xs, Within P x := by
  induction n generalizing s xs with
  | zero => simp [items] at h
  | succ n ih =>
    simp only [items, Option.bind_eq_bind, Option.bind_eq_some_iff, Prod.exists] at h
    obtain ⟨x, s', hx, h⟩ := h
    have hx := hitem _ _ _ hx
    split at h
    · obtain ⟨⟨ys, rest'⟩, hys, heq⟩ := Option.map_eq_some_iff.mp h
      cases heq
      exact List.forall_mem_cons.mpr ⟨hx, ih hys⟩
    · cases h
      exact List.forall_mem_singleton.mpr hx
    · cases h

theorem within_members (hitem : ∀ s x rest, item s = some (x, rest) → Within P x) {n : Nat}
    {ms : List (String × Json ρ)} (h : members item n s = some (ms, rest)) :
    ∀ m ∈ ms, Within P m.2 := by
  induction n generalizing s ms with
  | zero => simp [members] at h
  | succ n ih =>
    rw [members] at h
    split at h
    · simp only [Option.bind_eq_bind, Option.bind_eq_some_iff, Prod.exists] at h
      obtain ⟨k, s', -, h⟩ := h
      split at h
      · simp only [Option.bind_eq_some_iff, Prod.exists] at h
        obtain ⟨x, s'', hx, h⟩ := h
        have hx := hitem _ _ _ hx
        split at h
        · obtain ⟨⟨ns, rest'⟩, hns, heq⟩ := Option.map_eq_some_iff.mp h
          cases heq
          exact List.forall_mem_cons.mpr ⟨hx, ih hns⟩
        · cases h
          exact List.forall_mem_singleton.mpr hx
        · cases h
      · cases h
    · cases h

theorem within_value {depth : Nat} {s rest : List Char} {x : Json ρ}
    (h : value depth s = some (x, rest)) : Within P x := by
  unfold value at h
  split at h
  · cases h; exact .null
  · cases h; exact .bool true
  · cases h; exact .bool false
  · obtain ⟨⟨cs, rest'⟩, -, heq⟩ := Option.map_eq_some_iff.mp h
    cases heq
    exact .string _
  · split at h
    · cases h
    · split at h
      · cases h
        exact .array nofun
      · obtain ⟨⟨xs, rest'⟩, hxs, heq⟩ := Option.map_eq_some_iff.mp h
        cases heq
        exact .array (within_items (fun _ _ _ hx => within_value hx) hxs)
  · split at h
    · cases h
    · split at h
      · cases h
        exact .object nofun
      · obtain ⟨⟨ms, rest'⟩, hms, heq⟩ := Option.map_eq_some_iff.mp h
        cases heq
        exact .object (within_members (fun _ _ _ hx => within_value hx) hms)
  · exact within_number h

end Reader

theorem within_ofText? {s : String} (h : ofText? s = some x) : Within P x := by
  obtain ⟨y, hy, rfl⟩ := Option.map_eq_some_iff.mp h
  refine Within.sorted ?_
  unfold raw? at hy
  split at hy
  · next hvalue =>
    split at hy
    · cases hy
      exact Reader.within_value hvalue
    · cases hy
  · cases hy

end Json

namespace Value

variable {ρ : Type} {P : ρ → Prop}

mutual

theorem within_toJson (v : Value) : Json.Within P v.toJson := by
  match v with
  | .null => exact .null
  | .bool b => exact .bool b
  | .int n => exact .int _
  | .float x =>
    rw [toJson]
    split
    · exact .float x
    · exact .null
  | .string s => exact .string s
  | .datetime d => exact .string _
  | .sequence items => exact .array (within_toJsonItems items)
  | .mapping entries => exact .object (within_toJsonEntries entries)

theorem within_toJsonItems (vs : List Value) : ∀ x ∈ toJsonItems vs, Json.Within P x := by
  match vs with
  | [] => nofun
  | v :: vs => exact List.forall_mem_cons.mpr ⟨within_toJson v, within_toJsonItems vs⟩

theorem within_toJsonEntries (es : List (String × Value)) :
    ∀ m ∈ toJsonEntries es, Json.Within P m.2 := by
  match es with
  | [] => nofun
  | (k, v) :: es => exact List.forall_mem_cons.mpr ⟨within_toJson v, within_toJsonEntries es⟩

end

theorem within_toSortedJson (v : Value) : Json.Within P v.toSortedJson := (within_toJson v).sorted

end Value

namespace Query.Datum

open Json (Within)

variable {P : Reference → Prop} {x y : Datum} {items : List Datum} {members : List (String × Datum)}

theorem within_of_array? (h : Within P x) (hitems : array? x = some items) :
    ∀ y ∈ items, Within P y := by
  unfold array? at hitems
  split at hitems
  · cases hitems
    exact Json.within_array.mp h
  · cases hitems

theorem within_of_object? (h : Within P x) (hmembers : object? x = some members) :
    ∀ m ∈ members, Within P m.2 := by
  unfold object? at hmembers
  split at hmembers
  · cases hmembers
    exact Json.within_object.mp h
  · cases hmembers

theorem within_getD {o : Option Datum} (h : ∀ y, o = some y → Within P y) :
    Within P (o.getD .null) := by
  cases o with
  | none => exact .null
  | some y => exact h y rfl

theorem within_field (name : String) (h : Within P x) : Within P (field name x) := by
  refine within_getD fun y hy => ?_
  obtain ⟨members, hmembers, hfind⟩ := Option.bind_eq_some_iff.mp hy
  exact within_of_object? h hmembers _ (Assoc.mem_of_find? hfind)

theorem within_index (position : Int) (h : Within P x) : Within P (index position x) := by
  unfold index
  split
  · exact .null
  · next items hitems =>
    have hitem : ∀ i : Nat, Within P (items[i]?.getD .null) := fun i =>
      within_getD fun y hy => within_of_array? h hitems y (List.mem_of_getElem? hy)
    dsimp only
    split_ifs
    all_goals first | exact .null | exact hitem _

theorem within_values (h : Within P x) : Within P (values x) := by
  unfold values
  split
  · next members hmembers => exact .array (List.forall_mem_map.mpr (within_of_object? h hmembers))
  · exact .null

theorem within_flatten (h : Within P x) : Within P (flatten x) := by
  unfold flatten
  split
  · next items hitems =>
    refine .array fun y hy => ?_
    obtain ⟨z, hz, hy⟩ := List.mem_flatMap.mp hy
    have hz := within_of_array? h hitems z hz
    cases hys : array? z with
    | none =>
      rw [hys] at hy
      obtain rfl := List.mem_singleton.mp hy
      exact hz
    | some ys =>
      rw [hys] at hy
      exact within_of_array? hz hys y hy
  · exact .null

theorem mem_of_mem_slice {start stop : Option Int} {step : Int}
    (h : x ∈ slice start stop step items) :
    x ∈ items := by
  obtain ⟨i, -, hi⟩ := List.mem_filterMap.mp h
  exact List.mem_of_getElem? hi

theorem within_relate (r : Relation) (x y : Datum) : Within P (relate r x y) := by
  unfold relate
  dsimp only
  split
  any_goals exact .bool _
  all_goals
    split
    · exact .bool _
    · exact .null

end Query.Datum

namespace Query.Standard

open Json (Within)
open Datum (within_getD)

variable {P : Reference → Prop} {x y : Datum} {items args : List Datum}

theorem choose_mem {α : Type} (wanted : Ordering → Bool) (key : α → Datum) (best : α)
    (xs : List α) :
    choose wanted key best xs ∈ best :: xs := by
  induction xs generalizing best with
  | nil => exact List.mem_singleton.mpr rfl
  | cons x xs ih =>
    rw [choose]
    have hmem := ih (if wanted (Datum.order (key x) (key best)) then x else best)
    split at hmem <;> grind

theorem within_extreme (wanted : Ordering → Bool) (h : ∀ x ∈ items, Within P x) :
    Within P (extreme wanted items) := by
  cases items with
  | nil => exact .null
  | cons x xs => exact h _ (choose_mem wanted id x xs)

theorem mem_ascending {α : Type} {key : α → Datum} {xs : List α} {a : α} :
    a ∈ ascending key xs ↔ a ∈ xs := (List.mergeSort_perm xs _).mem_iff

theorem within_contains (x y : Datum) : Within P (contains x y) := by
  unfold contains
  split <;> exact .bool _

theorem within_length (x : Datum) : Within P (length x) := by
  unfold length
  split
  · exact .int _
  · exact .int _
  · exact .int _
  · exact .null

theorem within_reverse (h : Within P x) : Within P (reverse x) := by
  unfold reverse
  split
  · exact .string _
  · exact .array fun y hy => Json.within_array.mp h y (List.mem_reverse.mp hy)
  · exact h

theorem within_toNumber (x : Datum) : Within P (toNumber x) := by
  unfold toNumber
  split
  · exact .int _
  · exact .float _
  · exact within_getD fun _ => Json.within_ofText?
  · exact .null

theorem within_toText (x : Datum) : Within P (toText x) := by
  unfold toText
  split <;> exact .string _

theorem within_toArray (h : Within P x) : Within P (toArray x) := by
  unfold toArray
  split
  · exact h
  · exact .array (List.forall_mem_singleton.mpr h)

theorem within_merge (h : ∀ x ∈ args, Within P x) : Within P (merge args) := by
  refine .object fun m hm => ?_
  obtain ⟨x, hx, hm⟩ := List.mem_flatMap.mp (Assoc.mem_of_mem_sorted hm)
  cases hmembers : Datum.object? x with
  | none =>
    rw [hmembers] at hm
    cases hm
  | some members =>
    rw [hmembers] at hm
    exact Datum.within_of_object? (h x hx) hmembers m hm

end Query.Standard
end Manifest
