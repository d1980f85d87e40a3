import Manifest.Error
import Manifest.Path
import Manifest.Value

/-! Finding nodes: by exact keys, and by dotted path; and the addresses at which a value has
nodes. -/
namespace Manifest.Value

inductive Miss
  | absent
  | scalar (key type : String)
  deriving DecidableEq, Repr

/-- The child of a node under a key. A sequence takes positions, a mapping its keys. -/
def child (v : Value) (key : String) : Except Miss Value :=
  match v with
  | .mapping entries => (Assoc.find? key entries).elim (.error .absent) .ok
  | .sequence items => ((Path.position? key).bind (items[·]?)).elim (.error .absent) .ok
  | v => .error (.scalar key v.typeName)

def walk (v : Value) : Keys → Except Miss Value
  | [] => .ok v
  | key :: keys =>
    match v.child key with
    | .ok w => w.walk keys
    | .error m => .error m

@[simp] theorem walk_nil (v : Value) : v.walk [] = .ok v := rfl

theorem walk_append (v : Value) (a b : Keys) :
    v.walk (a ++ b) = (v.walk a).bind fun w => w.walk b := by
  induction a generalizing v with
  | nil => rfl
  | cons k a ih =>
    simp only [List.cons_append, walk]
    cases v.child k with
    | ok w => exact ih w
    | error m => rfl

def Miss.error (keys : Keys) : Miss → Error
  | .absent => .pathNotFound (Path.dotted keys)
  | .scalar key type =>
    { Error.pathNotFound (Path.dotted keys) with
      help := some s!"'{key}' indexes into a {type}, which has no children" }

def getIn (v : Value) (keys : Keys) : Except Error Value :=
  match v.walk keys with
  | .ok w => .ok w
  | .error m => .error (m.error keys)

def getPath (v : Value) (path : String) : Except Error Value := v.getIn (Path.segments path)

def childKeys : Value → List String
  | .mapping entries => entries.map Prod.fst
  | .sequence items => (List.range items.length).map Path.ofPosition
  | _ => []

mutual

/-- The addresses of all nodes of a value, its own among them, with positions in plain decimals. -/
def addresses : Value → List Keys
  | .mapping entries => [] :: entryAddresses entries
  | .sequence items => [] :: itemAddresses 0 items
  | .null | .bool _ | .int _ | .float _ | .string _ | .datetime _ => [[]]

def itemAddresses (position : Nat) : List Value → List Keys
  | [] => []
  | v :: vs =>
    (addresses v).map (Path.ofPosition position :: ·) ++ itemAddresses (position + 1) vs

def entryAddresses : List (String × Value) → List Keys
  | [] => []
  | (k, v) :: es => (addresses v).map (k :: ·) ++ entryAddresses es

end

mutual

def texts : Value → List String
  | .string s => [s]
  | .mapping entries => entryTexts entries
  | .sequence items => itemTexts items
  | .null | .bool _ | .int _ | .float _ | .datetime _ => []

def itemTexts : List Value → List String
  | [] => []
  | v :: vs => texts v ++ itemTexts vs

def entryTexts : List (String × Value) → List String
  | [] => []
  | (_, v) :: es => texts v ++ entryTexts es

end

theorem nil_mem_addresses (v : Value) : [] ∈ addresses v := by
  cases v <;> simp [addresses]

theorem mem_entryAddresses {a : Keys} {es : List (String × Value)} :
    a ∈ entryAddresses es ↔ ∃ e ∈ es, ∃ b ∈ addresses e.2, a = e.1 :: b := by
  induction es with
  | nil => simp [entryAddresses]
  | cons e es ih =>
    simp only [entryAddresses, List.mem_append, List.mem_map, ih]
    constructor
    · rintro (⟨b, hb, rfl⟩ | ⟨f, hf, b, hb, rfl⟩)
      · exact ⟨e, List.mem_cons_self .., b, hb, rfl⟩
      · exact ⟨f, List.mem_cons_of_mem _ hf, b, hb, rfl⟩
    · rintro ⟨f, hf, b, hb, rfl⟩
      rcases List.mem_cons.mp hf with rfl | hf
      · exact .inl ⟨b, hb, rfl⟩
      · exact .inr ⟨f, hf, b, hb, rfl⟩

theorem mem_itemAddresses {a : Keys} {n : Nat} {vs : List Value} :
    a ∈ itemAddresses n vs ↔
      ∃ i v, vs[i]? = some v ∧ ∃ b ∈ addresses v, a = Path.ofPosition (n + i) :: b := by
  induction vs generalizing n with
  | nil => simp [itemAddresses]
  | cons v vs ih =>
    simp only [itemAddresses, List.mem_append, List.mem_map, ih]
    constructor
    · rintro (⟨b, hb, rfl⟩ | ⟨i, w, hw, b, hb, rfl⟩)
      · exact ⟨0, v, by simp, b, hb, by simp⟩
      · exact ⟨i + 1, w, by simpa using hw, b, hb, by rw [Nat.add_right_comm, Nat.add_assoc]⟩
    · rintro ⟨i, w, hw, b, hb, rfl⟩
      cases i with
      | zero =>
        simp only [List.getElem?_cons_zero, Option.some.injEq] at hw
        subst hw
        exact .inl ⟨b, hb, by simp⟩
      | succ i =>
        exact .inr ⟨i, w, by simpa using hw, b, hb, by rw [Nat.add_right_comm, Nat.add_assoc]⟩

theorem child_eq_ok {v w : Value} {key : String} (h : v.child key = .ok w) :
    (∃ es, v = .mapping es ∧ Assoc.find? key es = some w) ∨
      ∃ vs i, v = .sequence vs ∧ Path.position? key = some i ∧ vs[i]? = some w := by
  unfold child at h
  split at h
  · rename_i es
    cases he : Assoc.find? key es with
    | none => simp [he] at h
    | some u =>
      simp only [he, Option.elim_some, Except.ok.injEq] at h
      subst h; exact .inl ⟨es, rfl, he⟩
  · rename_i vs
    cases hp : Path.position? key with
    | none => simp [hp] at h
    | some i =>
      cases hv : vs[i]? with
      | none => simp [hp, hv] at h
      | some u =>
        simp only [hp, Option.bind_some, hv, Option.elim_some, Except.ok.injEq] at h
        subst h; exact .inr ⟨vs, i, rfl, rfl, hv⟩
  · cases h

theorem distinctItems_iff (vs : List Value) : DistinctItems vs ↔ ∀ v ∈ vs, Distinct v := by
  induction vs with
  | nil => simp [DistinctItems]
  | cons v vs ih => simp [DistinctItems, ih]

theorem distinct_child {v w : Value} {key : String} (hd : Distinct v) (h : v.child key = .ok w) :
    Distinct w := by
  rcases child_eq_ok h with ⟨es, rfl, he⟩ | ⟨vs, i, rfl, _, hv⟩
  · exact (distinctEntries_iff es).mp hd.2 _ (Assoc.mem_of_find? he)
  · exact (distinctItems_iff vs).mp hd _ (List.mem_of_getElem? hv)

theorem distinct_walk {v w : Value} {keys : Keys} (hd : Distinct v) (h : v.walk keys = .ok w) :
    Distinct w := by
  induction keys generalizing v with
  | nil => simp only [walk, Except.ok.injEq] at h; exact h ▸ hd
  | cons k keys ih =>
    simp only [walk] at h
    cases hc : v.child k with
    | error m => simp [hc] at h
    | ok u => rw [hc] at h; exact ih (distinct_child hd hc) h

theorem singleton_mem_addresses {v : Value} {key : String} (h : key ∈ v.childKeys) :
    [key] ∈ addresses v := by
  cases v with
  | mapping es =>
    obtain ⟨e, he, rfl⟩ := List.mem_map.mp h
    exact List.mem_cons_of_mem _ (mem_entryAddresses.mpr ⟨e, he, [], nil_mem_addresses _, rfl⟩)
  | sequence vs =>
    obtain ⟨i, hi, rfl⟩ := List.mem_map.mp h
    have hi := List.mem_range.mp hi
    exact List.mem_cons_of_mem _ (mem_itemAddresses.mpr
      ⟨i, vs[i], by simp [hi], [], nil_mem_addresses _, by simp⟩)
  | _ => simp [childKeys] at h

theorem concat_mem_addresses {v w : Value} {a : Keys} {key : String} (hd : Distinct v)
    (ha : a ∈ addresses v) (hw : v.walk a = .ok w) (hk : key ∈ w.childKeys) :
    a ++ [key] ∈ addresses v := by
  induction a generalizing v with
  | nil =>
    simp only [walk, Except.ok.injEq] at hw
    subst hw; exact singleton_mem_addresses hk
  | cons k a ih =>
    simp only [walk] at hw
    cases hc : v.child k with
    | error m => simp [hc] at hw
    | ok u =>
      rw [hc] at hw
      rcases child_eq_ok hc with ⟨es, rfl, he⟩ | ⟨vs, i, rfl, hp, hv⟩
      · simp only [addresses, List.mem_cons, reduceCtorEq, false_or, List.cons_append] at ha ⊢
        obtain ⟨e, hm, b, hb, hab⟩ := mem_entryAddresses.mp ha
        obtain ⟨rfl, rfl⟩ := List.cons.inj hab
        have := Assoc.eq_of_mem_of_find? hd.1 hm he
        subst this
        exact mem_entryAddresses.mpr ⟨e, hm, _, ih (distinct_child hd hc) hb hw, rfl⟩
      · simp only [addresses, List.mem_cons, reduceCtorEq, false_or, List.cons_append] at ha ⊢
        obtain ⟨j, w', hj, b, hb, hab⟩ := mem_itemAddresses.mp ha
        obtain ⟨rfl, rfl⟩ := List.cons.inj hab
        simp only [Nat.zero_add, Path.position?_ofPosition, Option.some.injEq] at hp
        subst hp
        rw [hj, Option.some.injEq] at hv
        subst hv
        exact mem_itemAddresses.mpr ⟨j, w', hj, _, ih (distinct_child hd hc) hb hw, rfl⟩

theorem mem_entryTexts {s : String} {es : List (String × Value)} :
    s ∈ entryTexts es ↔ ∃ e ∈ es, s ∈ texts e.2 := by
  induction es with
  | nil => simp [entryTexts]
  | cons e es ih => simp [entryTexts, ih]

theorem mem_itemTexts {s : String} {vs : List Value} :
    s ∈ itemTexts vs ↔ ∃ v ∈ vs, s ∈ texts v := by
  induction vs with
  | nil => simp [itemTexts]
  | cons v vs ih => simp [itemTexts, ih]

theorem mem_texts_of_walk {v : Value} {keys : Keys} {s : String}
    (h : v.walk keys = .ok (.string s)) : s ∈ texts v := by
  induction keys generalizing v with
  | nil => simp only [walk, Except.ok.injEq] at h; subst h; simp [texts]
  | cons k keys ih =>
    simp only [walk] at h
    cases hc : v.child k with
    | error m => simp [hc] at h
    | ok u =>
      rw [hc] at h
      rcases child_eq_ok hc with ⟨es, rfl, he⟩ | ⟨vs, i, rfl, _, hv⟩
      · exact mem_entryTexts.mpr ⟨_, Assoc.mem_of_find? he, ih h⟩
      · exact mem_itemTexts.mpr ⟨_, List.mem_of_getElem? hv, ih h⟩

theorem getIn_eq_ok {v w : Value} {keys : Keys} : v.getIn keys = .ok w ↔ v.walk keys = .ok w := by
  unfold getIn
  cases v.walk keys <;> simp

end Manifest.Value
