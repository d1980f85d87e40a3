/-! Lists of keyed entries: lookup, replacement in place, and insertion in key order. -/
namespace Manifest.Assoc

variable {α : Type} {κ : Type} [DecidableEq κ]

def find? (k : κ) : List (κ × α) → Option α
  | [] => none
  | e :: es => if e.1 = k then some e.2 else find? k es

@[simp] theorem find?_nil (k : κ) : find? k ([] : List (κ × α)) = none := rfl

@[simp] theorem find?_cons_self (k : κ) (a : α) (es : List (κ × α)) :
    find? k ((k, a) :: es) = some a := by simp [find?]

theorem find?_cons_ne {k l : κ} (h : l ≠ k) (a : α) (es : List (κ × α)) :
    find? k ((l, a) :: es) = find? k es := by simp [find?, h]

def contains (k : κ) (es : List (κ × α)) : Bool := (find? k es).isSome

theorem find?_eq_none_iff (k : κ) (es : List (κ × α)) :
    find? k es = none ↔ k ∉ es.map Prod.fst := by
  induction es with
  | nil => simp
  | cons e es ih =>
    by_cases h : e.1 = k
    · simp [find?, h]
    · simp [find?, h, ih, Ne.symm h]

theorem mem_of_find? {k : κ} {a : α} {es : List (κ × α)}
    (h : find? k es = some a) : (k, a) ∈ es := by
  induction es with
  | nil => simp at h
  | cons e es ih =>
    by_cases hk : e.1 = k
    · simp only [find?, hk, if_true, Option.some.injEq] at h
      subst hk h; simp
    · simp only [find?, hk, if_false] at h
      exact List.mem_cons_of_mem _ (ih h)

theorem eq_of_mem_of_find? {k : κ} {a b : α} {es : List (κ × α)}
    (hd : (es.map Prod.fst).Nodup) (hm : (k, b) ∈ es) (h : find? k es = some a) : b = a := by
  induction es with
  | nil => simp at h
  | cons e es ih =>
    rw [List.map_cons, List.nodup_cons] at hd
    by_cases hk : e.1 = k
    · simp only [find?, hk, if_true, Option.some.injEq] at h
      rcases List.mem_cons.mp hm with rfl | hm
      · exact h
      · exact absurd (List.mem_map.mpr ⟨_, hm, rfl⟩) (hk ▸ hd.1)
    · simp only [find?, hk, if_false] at h
      rcases List.mem_cons.mp hm with rfl | hm
      · exact absurd rfl hk
      · exact ih hd.2 hm h

theorem find?_of_mem {k : κ} {a : α} {es : List (κ × α)} (hd : (es.map Prod.fst).Nodup)
    (h : (k, a) ∈ es) : find? k es = some a := by
  cases hf : find? k es with
  | none => exact absurd (List.mem_map_of_mem h) ((find?_eq_none_iff k es).mp hf)
  | some b => rw [eq_of_mem_of_find? hd h hf]

theorem find?_map {β : Type} (f : κ → α → β) (k : κ) (es : List (κ × α)) :
    find? k (es.map fun e => (e.1, f e.1 e.2)) = (find? k es).map (f k) := by
  induction es with
  | nil => rfl
  | cons e es ih =>
    by_cases h : e.1 = k
    · subst h
      simp only [List.map_cons, find?, if_true, Option.map_some]
    · simp only [List.map_cons, find?, h, if_false, ih]

/-- Where a key stands at most once, looking it up finds every entry that has it. -/
theorem find?_eq_some_iff_mem {k : κ} {a : α} {es : List (κ × α)}
    (h : (es.filter fun e => e.1 = k).length ≤ 1) :
    find? k es = some a ↔ (k, a) ∈ es := by
  refine ⟨mem_of_find?, fun hmem => ?_⟩
  cases hfind : find? k es with
  | none => exact absurd (List.mem_map.mpr ⟨_, hmem, rfl⟩) ((find?_eq_none_iff k es).mp hfind)
  | some b =>
    have hfilter : ∀ {c}, (k, c) ∈ es → (k, c) ∈ es.filter fun e => e.1 = k := fun hc =>
      List.mem_filter.mpr ⟨hc, by simp⟩
    have ha := hfilter hmem
    have hb := hfilter (mem_of_find? hfind)
    generalize es.filter (fun e => e.1 = k) = found at h ha hb
    match found, h with
    | [], _ => cases ha
    | [e], _ =>
      obtain rfl := List.mem_singleton.mp ha
      exact congrArg some (Prod.mk.inj (List.mem_singleton.mp hb)).2

/-- Sets the value of a key: an entry that has the key keeps its place, a new one goes to the
end. -/
def put (k : κ) (a : α) : List (κ × α) → List (κ × α)
  | [] => [(k, a)]
  | e :: es => if e.1 = k then (k, a) :: es else e :: put k a es

@[simp] theorem put_nil (k : κ) (a : α) : put k a [] = [(k, a)] := rfl

@[simp] theorem find?_put_self (k : κ) (a : α) (es : List (κ × α)) :
    find? k (put k a es) = some a := by
  induction es with
  | nil => simp
  | cons e es ih => by_cases h : e.1 = k <;> simp [put, find?, h, ih]

theorem find?_put_ne {k l : κ} (h : l ≠ k) (a : α) (es : List (κ × α)) :
    find? k (put l a es) = find? k es := by
  induction es with
  | nil => simp [find?, h]
  | cons e es ih =>
    by_cases hl : e.1 = l
    · subst hl; simp [put, find?, h]
    · simp [put, find?, hl, ih]

theorem mem_put {k : κ} {a : α} {es : List (κ × α)} {e : κ × α} (h : e ∈ put k a es) :
    e = (k, a) ∨ e ∈ es := by
  induction es with
  | nil => simpa using h
  | cons f es ih =>
    by_cases hf : f.1 = k
    · simp only [put, hf, if_true, List.mem_cons] at h ⊢
      rcases h with h | h
      · exact .inl h
      · exact .inr (.inr h)
    · simp only [put, hf, if_false, List.mem_cons] at h ⊢
      rcases h with h | h
      · exact .inr (.inl h)
      · exact (ih h).imp id .inr

theorem mem_keys_put {k l : κ} {a : α} {es : List (κ × α)} :
    l ∈ (put k a es).map Prod.fst ↔ l = k ∨ l ∈ es.map Prod.fst := by
  induction es with
  | nil => simp
  | cons f es ih =>
    by_cases hf : f.1 = k
    · subst hf; simp [put]
    · simp only [put, hf, if_false, List.map_cons, List.mem_cons, ih]
      exact ⟨fun h => by rcases h with h | h | h <;> simp [h], fun h => by
        rcases h with h | h | h <;> simp [h]⟩

theorem nodup_put {k : κ} {a : α} {es : List (κ × α)} (h : (es.map Prod.fst).Nodup) :
    ((put k a es).map Prod.fst).Nodup := by
  induction es with
  | nil => simp
  | cons f es ih =>
    rw [List.map_cons, List.nodup_cons] at h
    by_cases hf : f.1 = k
    · subst hf; simpa [put] using h
    · simp only [put, hf, if_false, List.map_cons, List.nodup_cons, mem_keys_put, not_or]
      exact ⟨⟨not_false, h.1⟩, ih h.2⟩

def ofEntries (es : List (κ × α)) : List (κ × α) := es.foldl (fun acc e => put e.1 e.2 acc) []

theorem nodup_foldl_put (es acc : List (κ × α)) (h : (acc.map Prod.fst).Nodup) :
    ((es.foldl (fun acc e => put e.1 e.2 acc) acc).map Prod.fst).Nodup := by
  induction es generalizing acc with
  | nil => exact h
  | cons e es ih => exact ih _ (nodup_put h)

theorem nodup_ofEntries (es : List (κ × α)) : ((ofEntries es).map Prod.fst).Nodup :=
  nodup_foldl_put es [] (by simp)

theorem mem_foldl_put {es acc : List (κ × α)} {e : κ × α}
    (h : e ∈ es.foldl (fun acc e => put e.1 e.2 acc) acc) : e ∈ acc ∨ e ∈ es := by
  induction es generalizing acc with
  | nil => exact .inl h
  | cons f es ih =>
    rcases ih h with h | h
    · rcases mem_put h with h | h
      · exact .inr (by simp [h])
      · exact .inl h
    · exact .inr (List.mem_cons_of_mem _ h)

theorem mem_of_mem_ofEntries {es : List (κ × α)} {e : κ × α} (h : e ∈ ofEntries es) : e ∈ es := by
  simpa using mem_foldl_put h

def erase (k : κ) (es : List (κ × α)) : List (κ × α) := es.filter fun e => e.1 ≠ k

def insert (k : String) (a : α) : List (String × α) → List (String × α)
  | [] => [(k, a)]
  | e :: es =>
    if k < e.1 then (k, a) :: e :: es
    else if e.1 = k then (k, a) :: es
    else e :: insert k a es

@[simp] theorem insert_nil (k : String) (a : α) : insert k a [] = [(k, a)] := rfl

theorem mem_insert {k : String} {a : α} {es : List (String × α)} {e : String × α}
    (h : e ∈ insert k a es) : e = (k, a) ∨ e ∈ es := by
  induction es with
  | nil => exact .inl (List.mem_singleton.mp h)
  | cons f es ih =>
    rw [insert] at h
    split at h
    · exact List.mem_cons.mp h
    split at h
    · exact (List.mem_cons.mp h).imp_right (List.mem_cons_of_mem f)
    · rcases List.mem_cons.mp h with rfl | h
      · exact .inr (List.mem_cons_self ..)
      · exact (ih h).imp_right (List.mem_cons_of_mem f)

def sorted (es : List (String × α)) : List (String × α) :=
  es.foldl (fun acc e => insert e.1 e.2 acc) []

@[simp] theorem sorted_nil : sorted ([] : List (String × α)) = [] := rfl

end Manifest.Assoc
