import Manifest.Proofs.Path.Expand
import Manifest.Proofs.Resolver.Plain

/-! Nodes and their addresses. An address leads to its node, a walk goes on from where another has
come to, and one that stops short tells where it was to go and whether a scalar stood in its way. -/
namespace Manifest

namespace Value

variable {v w : Value} {a b keys : Keys} {key type : String} {e : Error}

/-- The nodes inside a value, each at its address: the keys of mappings as they are, the positions
in sequences in plain decimals. -/
inductive Node : Value → Keys → Value → Prop
  | self {v : Value} : Node v [] v
  | entry {entries : List (String × Value)} {key : String} {w u : Value} {keys : Keys}
      (he : (key, w) ∈ entries) (hn : Node w keys u) : Node (.mapping entries) (key :: keys) u
  | item {items : List Value} {i : Nat} {w u : Value} {keys : Keys} (hi : items[i]? = some w)
      (hn : Node w keys u) : Node (.sequence items) (Path.ofPosition i :: keys) u

theorem walk_cons_of_child (h : v.child key = .ok w) (keys : Keys) :
    v.walk (key :: keys) = w.walk keys := by
  rw [walk, h]

theorem Node.walk_eq (h : v.Node keys w) (hd : v.Distinct) : v.walk keys = .ok w := by
  induction h with
  | self => rfl
  | @entry entries key w u keys he _ ih =>
    have hchild : (mapping entries).child key = .ok w := by simp [child, Assoc.find?_of_mem hd.1 he]
    rw [walk_cons_of_child hchild]
    exact ih (distinct_child hd hchild)
  | item hi _ ih =>
    have hchild := child_ofPosition hi
    rw [walk_cons_of_child hchild]
    exact ih (distinct_child hd hchild)

theorem mem_addresses_iff : keys ∈ v.addresses ↔ ∃ w, v.Node keys w := by
  induction keys generalizing v with
  | nil => exact ⟨fun _ => ⟨v, .self⟩, fun _ => nil_mem_addresses v⟩
  | cons key keys ih =>
    constructor
    · intro h
      cases v with
      | mapping entries =>
        rw [addresses, List.mem_cons, or_iff_right (List.cons_ne_nil key keys),
          mem_entryAddresses] at h
        obtain ⟨e, he, b, hb, hkeys⟩ := h
        obtain ⟨rfl, rfl⟩ := List.cons.inj hkeys
        obtain ⟨w, hw⟩ := ih.mp hb
        exact ⟨w, .entry he hw⟩
      | sequence items =>
        rw [addresses, List.mem_cons, or_iff_right (List.cons_ne_nil key keys),
          mem_itemAddresses] at h
        obtain ⟨i, u, hi, b, hb, hkeys⟩ := h
        obtain ⟨rfl, rfl⟩ := List.cons.inj hkeys
        obtain ⟨w, hw⟩ := ih.mp hb
        rw [Nat.zero_add]
        exact ⟨w, .item hi hw⟩
      | _ => simp [addresses] at h
    · rintro ⟨w, hw⟩
      cases hw with
      | entry he hn =>
        exact List.mem_cons_of_mem _ (mem_entryAddresses.mpr ⟨_, he, keys, ih.mpr ⟨w, hn⟩, rfl⟩)
      | @item items i u _ _ hi hn =>
        refine List.mem_cons_of_mem _ (mem_itemAddresses.mpr ⟨i, u, hi, keys, ih.mpr ⟨w, hn⟩, ?_⟩)
        rw [Nat.zero_add]

theorem getIn_append_eq_ok_iff {u : Value} :
    v.getIn (a ++ b) = .ok u ↔ ∃ w, v.getIn a = .ok w ∧ w.getIn b = .ok u := by
  simp only [getIn_eq_ok, walk_append]
  cases v.walk a <;> simp [Except.bind]

/-- A walk comes to a scalar, and to a key that would lead on from there. -/
def Blocked (v : Value) (keys : Keys) (key : String) (w : Value) : Prop :=
  ∃ a b, keys = a ++ key :: b ∧ v.getIn a = .ok w ∧ w.isContainer = false

theorem child_eq_scalar_iff {k : String} :
    v.child key = .error (.scalar k type) ↔
      v.isContainer = false ∧ key = k ∧ v.typeName = type := by
  cases v with
  | mapping entries => cases h : Assoc.find? key entries <;> simp [child, isContainer, h]
  | sequence items => cases h : (Path.position? key).bind (items[·]?) <;>
      simp [child, isContainer, h]
  | _ => simp [child, isContainer]

theorem walk_eq_scalar_iff :
    v.walk keys = .error (.scalar key type) ↔ ∃ w, v.Blocked keys key w ∧ w.typeName = type := by
  constructor
  · intro h
    induction keys generalizing v with
    | nil => cases h
    | cons k keys ih =>
      cases hc : v.child k with
      | ok u =>
        rw [walk_cons_of_child hc] at h
        obtain ⟨w, ⟨a, b, rfl, ha, hw⟩, htype⟩ := ih h
        rw [getIn_eq_ok, ← walk_cons_of_child hc, ← getIn_eq_ok] at ha
        exact ⟨w, ⟨k :: a, b, rfl, ha, hw⟩, htype⟩
      | error m =>
        rw [walk, hc] at h
        obtain rfl := Except.error.inj h
        obtain ⟨hv, rfl, htype⟩ := child_eq_scalar_iff.mp hc
        exact ⟨v, ⟨[], keys, rfl, rfl, hv⟩, htype⟩
  · rintro ⟨w, ⟨a, b, rfl, ha, hw⟩, rfl⟩
    have hchild : w.child key = .error (.scalar key w.typeName) :=
      child_eq_scalar_iff.mpr ⟨hw, rfl, rfl⟩
    rw [getIn_eq_ok] at ha
    rw [walk_append, ha, Except.bind, walk, hchild]

theorem Blocked.getIn_eq (h : v.Blocked keys key w) :
    v.getIn keys = .error { Error.pathNotFound (Path.dotted keys) with
      help := some s!"'{key}' indexes into a {w.typeName}, which has no children" } := by
  rw [getIn, walk_eq_scalar_iff.mpr ⟨w, h, rfl⟩]
  rfl

theorem eq_of_getIn_eq_error (h : v.getIn keys = .error e)
    (hblocked : ¬∃ key w, v.Blocked keys key w) :
    e = .pathNotFound (Path.dotted keys) := by
  unfold getIn at h
  cases hwalk : v.walk keys with
  | ok w =>
    rw [hwalk] at h
    cases h
  | error m =>
    rw [hwalk] at h
    obtain rfl := Except.error.inj h
    cases m with
    | absent => rfl
    | scalar key type =>
      obtain ⟨w, hw, -⟩ := walk_eq_scalar_iff.mp hwalk
      exact absurd ⟨key, w, hw⟩ hblocked

theorem help_ne (path key type : String) : (Error.pathNotFound path).help ≠
    some s!"'{key}' indexes into a {type}, which has no children" := by
  intro h
  have hhead := congrArg (fun s => s.toList.head?) (Option.some.inj h)
  simp only [toString, String.toList_append, List.append_assoc] at hhead
  cases hhead

theorem help_eq_iff_blocked (h : v.getIn keys = .error e) :
    (∃ key type : String, e.help = some s!"'{key}' indexes into a {type}, which has no children") ↔
      ∃ key w, v.Blocked keys key w := by
  constructor
  · rintro ⟨key, type, he⟩
    by_contra hblocked
    rw [eq_of_getIn_eq_error h hblocked] at he
    exact help_ne _ _ _ he
  · rintro ⟨key, w, hw⟩
    rw [hw.getIn_eq] at h
    obtain rfl := Except.error.inj h
    exact ⟨key, w.typeName, rfl⟩

end Value

namespace Scope

/-- In the root of a document, each node is found at its address, and the addresses that are made
for the children of a container lead to them, one by one. A walk along more keys is one from the
node that the first keys lead to. A walk fails as `PathNotFound` at the path of all its keys; the
help says that there are no children just when a scalar is in its way, and then names it. A path is
walked along its keys, behind those of the home path if it starts with a dot. -/
theorem getIn_root (s : Scope) :
    let root := s.document.root
    (∀ keys w, root.Node keys w → root.getIn keys = .ok w) ∧
    (∀ keys, keys ∈ root.addresses ↔ ∃ w, root.Node keys w) ∧
    (∀ keys w, root.getIn keys = .ok w → w.isContainer →
      List.Forall₂ (fun need child => root.getIn need.keys = .ok child)
        (s.needs keys w) w.children) ∧
    (∀ a b u, root.getIn (a ++ b) = .ok u ↔ ∃ w, root.getIn a = .ok w ∧ w.getIn b = .ok u) ∧
    (∀ keys e, root.getIn keys = .error e →
      e.kind = .pathNotFound ∧ e.path = some (Path.dotted keys) ∧
      ((∃ key type : String,
      e.help = some s!"'{key}' indexes into a {type}, which has no children") ↔
        ∃ key w, root.Blocked keys key w)) ∧
    (∀ keys key w, root.Blocked keys key w → root.getIn keys =
      .error { Error.pathNotFound (Path.dotted keys) with
        help := some s!"'{key}' indexes into a {w.typeName}, which has no children" }) ∧
    (∀ path, root.getPath (Path.expand s.home path) =
      root.getIn ((if Path.Relative path then Path.segments (s.home.getD "") else []) ++
        Path.segments path)) := by
  intro root
  refine ⟨fun keys w h => Value.getIn_eq_ok.mpr (h.walk_eq s.document.distinct),
    fun keys => Value.mem_addresses_iff, fun keys w hw hc => ?_,
    fun a b u => Value.getIn_append_eq_ok_iff,
    fun keys e h => ⟨Value.kind_of_getIn h, Value.path_of_getIn h, Value.help_eq_iff_blocked h⟩,
    fun keys key w h => h.getIn_eq, fun path => ?_⟩
  · have htext : ∀ text, w ≠ .string text := by
      rintro text rfl
      cases hc
    exact (forall₂_needs hw htext).imp fun _ _ h => h.2.2
  · rw [Value.getPath]
    split
    · rename_i h
      rw [Path.segments_expand h]
    · rename_i h
      rw [Path.expand_of_absolute h, List.nil_append]

end Scope
end Manifest
