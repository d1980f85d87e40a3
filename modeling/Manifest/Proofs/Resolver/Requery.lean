import Manifest.Proofs.Placeholder.Requery
import Manifest.Proofs.Resolver.Local
import Manifest.Proofs.Value.Order

/-! Two documents that are the same but for texts in which a placeholder has the query for the value
itself. Resolution goes through both alike, as long as what that placeholder's path comes to is
rendered the same through the query. -/
namespace Manifest

namespace Value

variable {v w : Value}

theorem entryShapes_eq_map (entries : List (String × Value)) :
    entryShapes entries = entries.map fun e => (e.1, shape e.2) := by
  induction entries with
  | nil => rfl
  | cons e es ih => rw [entryShapes, ih, List.map_cons]

theorem child_shape (v : Value) (key : String) : v.shape.child key = (v.child key).map shape := by
  cases v with
  | mapping entries =>
    rw [shape, entryShapes_eq_map, child, child, Assoc.find?_map fun _ => shape]
    cases Assoc.find? key entries <;> rfl
  | sequence items =>
    rw [shape_sequence, child, child]
    cases Path.position? key with
    | none => rfl
    | some i =>
      simp only [Option.bind_some, List.getElem?_map]
      cases items[i]? <;> rfl
  | _ => rfl

theorem getIn_shape (v : Value) (keys : Keys) : v.shape.getIn keys = (v.getIn keys).map shape := by
  have hwalk : v.shape.walk keys = (v.walk keys).map shape := by
    induction keys generalizing v with
    | nil => rfl
    | cons key keys ih =>
      rw [walk, walk, child_shape]
      cases v.child key with
      | ok w => exact ih w
      | error m => rfl
  rw [getIn, getIn, hwalk]
  cases v.walk keys <;> rfl

theorem alike_of_shape_eq (h : w.shape = v.shape) (hc : ∀ text, v ≠ .string text) : v.Alike w := by
  cases v with
  | mapping entries =>
    cases w with
    | mapping entries' =>
      have hkeys := congrArg (List.map Prod.fst) (mapping.inj h)
      simp only [entryShapes_eq_map, List.map_map] at hkeys
      exact ⟨entries', rfl, hkeys.symm⟩
    | _ => cases h
  | sequence items =>
    cases w with
    | sequence items' =>
      rw [shape_sequence, shape_sequence, sequence.injEq] at h
      exact ⟨items', rfl, by simpa using (congrArg List.length h).symm⟩
    | _ => cases h
  | string text => exact absurd rfl (hc text)
  | _ => cases w <;> first | cases h; rfl | cases h

end Value

/-- One document is the other but for texts in which a placeholder with some path has no query in
the one and the query for the value itself in the other. -/
structure Document.Requeried (path : String) (d d' : Document) : Prop where
  shape : d'.root.shape = d.root.shape
  text : ∀ keys text, d.root.getIn keys = .ok (.string text) →
    ∃ text', d'.root.getIn keys = .ok (.string text') ∧
      (text' = text ∨ Template.Requeried path text text')

namespace Scope

variable {σ : Type} {s s' : Scope} {settle : Settling σ} {path text text' : String}
  {keys owner : Keys} {v : Value}
  {needs needs' : List Need}

/-- A need is the same but for the query for the value itself, which it may get if it has none and
is for some keys. -/
def Requeried (target : Keys) (n n' : Need) : Prop :=
  n' = n ∨ n.keys = target ∧ n.query = none ∧ n' = { n with query := some "@" }

theorem Requeried.keys_eq {target : Keys} {n n' : Need} (h : Requeried target n n') :
    n'.keys = n.keys := by
  rcases h with rfl | ⟨-, -, rfl⟩ <;> rfl

theorem requeried_needs_text (hhome : s'.home = s.home) (h : Template.Requeried path text text')
    (keys : Keys) :
    List.Forall₂ (Requeried (s.keys path)) (s.needs keys (.string text))
      (s'.needs keys (.string text')) := by
  obtain ⟨-, before, behind, hbefore, hbehind⟩ := h.gaps_eq
  have hpath : ∀ p, s'.keys p = s.keys p := fun p => by rw [Scope.keys, Scope.keys, hhome]
  have hrefl : ∀ ns : List Need, List.Forall₂ (Requeried (s.keys path)) ns ns := fun ns =>
    List.forall₂_same.mpr fun n _ => .inl rfl
  simp only [needs, hbefore, hbehind, hpath, List.mapIdx_append, List.mapIdx_cons]
  exact List.rel_append (hrefl _) (.cons (.inr ⟨rfl, rfl, rfl⟩) (hrefl _))

/-- Nodes at the same keys need the same but for the query, and are put together alike from parts
that are rendered alike. -/
theorem exists_requeried (hhome : s'.home = s.home)
    (hd : Document.Requeried path s.document s'.document)
    (hv : s.document.root.getIn keys = .ok v) :
    ∃ v', s'.document.root.getIn keys = .ok v' ∧
      List.Forall₂ (Requeried (s.keys path)) (s.needs keys v) (s'.needs keys v') ∧
      ∀ parts parts' : List Value, parts.length = (s.needs keys v).length →
        parts'.map Value.render = parts.map Value.render →
          (s'.needs keys v' = s.needs keys v → parts' = parts) →
        assemble parts' v' = assemble parts v := by
  have hrefl : ∀ ns : List Need, List.Forall₂ (Requeried (s.keys path)) ns ns := fun ns =>
    List.forall₂_same.mpr fun n _ => .inl rfl
  have hshape : (s'.document.root.getIn keys).map Value.shape = .ok v.shape := by
    rw [← Value.getIn_shape, hd.shape, Value.getIn_shape, hv]
    rfl
  -- A node that is written alike has the same needs and is put together from the same parts.
  have hsame : ∀ {w : Value}, s'.document.root.getIn keys = .ok w → v.Alike w →
      List.Forall₂ (Requeried (s.keys path)) (s.needs keys v) (s'.needs keys w) ∧
      ∀ parts parts' : List Value, parts.length = (s.needs keys v).length →
        parts'.map Value.render = parts.map Value.render →
          (s'.needs keys w = s.needs keys v → parts' = parts) →
        assemble parts' w = assemble parts v := fun {w} hw halike => by
    have hneeds : s'.needs keys w = s.needs keys v := needs_of_alike hhome halike keys
    refine ⟨hneeds ▸ hrefl _, fun parts parts' _ _ hparts => ?_⟩
    rw [hparts hneeds, assemble_of_alike halike]
  by_cases hc : ∀ text, v ≠ .string text
  · cases hw : s'.document.root.getIn keys with
    | error e => rw [hw] at hshape; cases hshape
    | ok w =>
      rw [hw] at hshape
      exact ⟨w, rfl, hsame hw (Value.alike_of_shape_eq (Except.ok.inj hshape) hc)⟩
  · push Not at hc
    obtain ⟨text, rfl⟩ := hc
    obtain ⟨text', hw, rfl | htext⟩ := hd.text keys text hv
    · exact ⟨_, hw, hsame hw rfl⟩
    refine ⟨_, hw, requeried_needs_text hhome htext keys, fun parts parts' hlength hrender _ => ?_⟩
    obtain ⟨hgaps, before, behind, hbefore, hbehind⟩ := htext.gaps_eq
    have hcount : (s.needs keys (.string text)).length =
        (Template.placeholders (Template.pieces text.toList)).length := by simp [needs]
    have hcount' : (Template.placeholders (Template.pieces text'.toList)).length =
        (Template.placeholders (Template.pieces text.toList)).length := by simp [hbefore, hbehind]
    have hfill : Template.fill (Template.pieces text'.toList) (parts.map Value.render) =
        Template.fill (Template.pieces text.toList) (parts.map Value.render) := by
      rw [Template.fill_eq_weave (by simp [hlength, hcount, hcount']), hgaps,
        ← Template.fill_eq_weave (by simp [hlength, hcount])]
    rw [assemble, assemble, hrender, hfill]

/-- Two scopes with such documents, and the settling of needs without a query and with the one for
the value itself. -/
structure Requeries (path : String) (s s' : Scope) (settle : Settling σ) : Prop where
  home : s'.home = s.home
  document : Document.Requeried path s.document s'.document
  plain : ∀ owner n v world, n.query = none → Run.exec (settle owner n v) world = (.ok v, world)
  current : ∀ owner n v world, n.query = some "@" →
    Run.exec (settle owner n v) world = (.ok v.norm, world)

theorem getIn_eq_error_of_requeried {e : Error}
    (hd : Document.Requeried path s.document s'.document)
    (he : s.document.root.getIn keys = .error e) : s'.document.root.getIn keys = .error e := by
  have hshape : (s'.document.root.getIn keys).map Value.shape = .error e := by
    rw [← Value.getIn_shape, hd.shape, Value.getIn_shape, he]
    rfl
  cases hw : s'.document.root.getIn keys with
  | error e' => rw [hw] at hshape; exact hshape
  | ok w => rw [hw] at hshape; cases hshape

/-- What a run keeps of the keys in question is in order. -/
abbrev OrderedAt (target : Keys) (q : Progress σ) : Prop :=
  ∀ v, Assoc.find? target q.memo = some v → v.Ordered

theorem OrderedAt.of_grows {target : Keys} {p q : Progress σ} (h : OrderedAt target q)
    (hg : p.Grows q) :
    OrderedAt target p := fun v hv => h v (hg _ v hv)

theorem Requeries.exec_settle (hr : Requeries path s s' settle) {n n' : Need}
    (hn : Requeried (s.keys path) n n') (hv : n.keys = s.keys path → v.Ordered) {world world' : σ}
    {r : Except Error Value} (hs : Run.exec (settle owner n v) world = (r, world')) :
    ∃ r', Run.exec (settle owner n' v) world = (r', world') ∧
      r'.map Value.render = r.map Value.render ∧
      (n' = n → r' = r) := by
  rcases hn with rfl | ⟨hkeys, hquery, rfl⟩
  · exact ⟨r, hs, rfl, fun _ => rfl⟩
  · rw [hr.plain owner n v world hquery] at hs
    obtain ⟨rfl, rfl⟩ := Prod.mk.inj hs
    have hrender : v.norm.render = v.render := by
      rw [Value.render_norm, Value.sorted_eq_self (hv hkeys)]
    refine ⟨.ok v.norm, hr.current owner _ v world rfl, congrArg Except.ok hrender, fun he => ?_⟩
    rw [← he] at hquery
    cases hquery

/-- Needs that are met are met each with what the memory keeps of its keys, settled. -/
theorem Gathers.forall₂_settled {p q : Progress σ} {parts : List Value}
    (h : Gathers s settle owner needs p (.ok parts) q) :
    List.Forall₂ (fun n w => ∃ v world world', Assoc.find? n.keys q.memo = some v ∧
      Run.exec (settle owner n v) world = (.ok w, world')) needs parts := by
  induction needs generalizing p parts with
  | nil => cases h; exact .nil
  | cons n needs ih =>
    cases h with
    | cons hn hs hg => exact .cons ⟨_, _, _, hg.grows _ _ hn.find?_eq, hs⟩ (ih hg)

mutual

theorem Visits.requeried (hr : Requeries path s s' settle) {keys : Keys} {p q : Progress σ}
    {r : Except Error Value} (h : Visits s settle keys p r q) (ht : s.Tidy p)
    (hq : OrderedAt (s.keys path) q) :
    Visits s' settle keys p r q := by
  match h with
  | .circle h => exact .circle h
  | .done h hm => exact .done h hm
  | .missing h hm he => exact .missing h hm (getIn_eq_error_of_requeried hr.document he)
  | .failed h hm hv hg =>
    obtain ⟨v', hv', hneeds, -⟩ := exists_requeried hr.home hr.document hv
    obtain ⟨r', hg', hrender, -⟩ := hg.requeried hr hneeds (ht.push h hm) hq
    cases r' with
    | error e' => cases hrender; exact .failed h hm hv' hg'
    | ok parts' => cases hrender
  | .built (q := q) h hm hv hg =>
    obtain ⟨v', hv', hneeds, hassemble⟩ := exists_requeried hr.home hr.document hv
    have ht' := ht.push h hm
    have hdone : Assoc.find? keys q.pop.memo = none :=
      (hg.tidy ht').apart keys (by simp [hg.stack_eq])
    have hgrows : ∀ w, q.pop.Grows (q.pop.remember keys w) :=
      (Progress.Grows.refl q.pop).remember hdone
    obtain ⟨r', hg', hrender, hsame⟩ :=
      hg.requeried hr hneeds ht' (OrderedAt.of_grows hq (hgrows _))
    cases r' with
    | error e' => cases hrender
    | ok parts' =>
      have hlength := hg.forall₂_settled.length_eq.symm
      rw [← hassemble _ parts' hlength (Except.ok.inj hrender) fun he => Except.ok.inj (hsame he)]
      exact .built h hm hv' hg'

/-- Needs that are the same but for the query come to parts that are rendered alike. -/
theorem Gathers.requeried (hr : Requeries path s s' settle) {owner : Keys}
    {needs needs' : List Need}
    {p q : Progress σ} {r : Except Error (List Value)} (h : Gathers s settle owner needs p r q)
    (hneeds : List.Forall₂ (Requeried (s.keys path)) needs needs') (ht : s.Tidy p)
    (hq : OrderedAt (s.keys path) q) :
    ∃ r', Gathers s' settle owner needs' p r' q ∧
      r'.map (List.map Value.render) = r.map (List.map Value.render) ∧
        (needs' = needs → r' = r) := by
  match h with
  | .nil =>
    cases hneeds
    exact ⟨_, .nil, rfl, fun _ => rfl⟩
  | .unresolved hn =>
    cases hneeds with
    | cons hneed hrest =>
      have hn' := hn.requeried hr ht hq
      rw [← hneed.keys_eq] at hn'
      exact ⟨_, .unresolved hn', rfl, fun _ => rfl⟩
  | .unsettled hn hs =>
    cases hneeds with
    | cons hneed hrest =>
      have hn' := hn.requeried hr ht hq
      rw [← hneed.keys_eq] at hn'
      obtain ⟨r', hs', hrender, -⟩ := hr.exec_settle hneed (fun hk => hq _ (hk ▸ hn.find?_eq)) hs
      cases r' with
      | error e' => cases hrender; exact ⟨_, .unsettled hn' hs', rfl, fun _ => rfl⟩
      | ok w' => cases hrender
  | .stopped hn hs hg =>
    cases hneeds with
    | cons hneed hrest =>
      have hq' := OrderedAt.of_grows hq hg.grows
      have hn' := hn.requeried hr ht hq'
      rw [← hneed.keys_eq] at hn'
      obtain ⟨r', hs', hrender, -⟩ := hr.exec_settle hneed (fun hk => hq' _ (hk ▸ hn.find?_eq)) hs
      obtain ⟨x', hg', hrest', -⟩ := hg.requeried hr hrest ((hn.tidy ht).world _) hq
      cases r' with
      | error e' => cases hrender
      | ok w' =>
        cases x' with
        | error e' => cases hrest'; exact ⟨_, .stopped hn' hs' hg', rfl, fun _ => rfl⟩
        | ok ws' => cases hrest'
  | .cons hn hs hg =>
    cases hneeds with
    | cons hneed hrest =>
      have hq' := OrderedAt.of_grows hq hg.grows
      have hn' := hn.requeried hr ht hq'
      rw [← hneed.keys_eq] at hn'
      obtain ⟨r', hs', hrender, hsame⟩ :=
        hr.exec_settle hneed (fun hk => hq' _ (hk ▸ hn.find?_eq)) hs
      obtain ⟨x', hg', hrest', hsame'⟩ := hg.requeried hr hrest ((hn.tidy ht).world _) hq
      cases r' with
      | error e' => cases hrender
      | ok w' =>
        cases x' with
        | error e' => cases hrest'
        | ok ws' =>
          refine ⟨_, .cons hn' hs' hg', ?_, fun he => ?_⟩
          · have hw := Except.ok.inj hrender
            have hws := Except.ok.inj hrest'
            exact congrArg Except.ok (congrArg₂ List.cons hw hws)
          · obtain ⟨hhead, htail⟩ := List.cons.inj he
            rw [Except.ok.inj (hsame hhead), Except.ok.inj (hsame' htail)]

end

end Scope
end Manifest
