import Manifest.Proofs.Resolver.Memory

/-! What a node resolves to depends on the nodes that it reaches and on nothing else in the
document: other keys, circles and targets that are missing elsewhere can neither change it nor break
it. -/
namespace Manifest

/-- Two nodes that are written alike, whatever is inside their children: mappings with the same keys
in the same order, sequences of one length, or the same scalar. -/
def Value.Alike : Value → Value → Prop
  | .mapping entries, w => ∃ entries', w = .mapping entries' ∧
      entries.map Prod.fst = entries'.map Prod.fst
  | .sequence items, w => ∃ items', w = .sequence items' ∧ items.length = items'.length
  | v, w => v = w

namespace Scope

variable {s s' : Scope} {answer : Value → String → Except Error Value} {stack : List Keys}
  {keys keys' : Keys} {v w x : Value}

/-- Nodes that are written alike need the same. -/
theorem needs_of_alike (hhome : s'.home = s.home) (h : v.Alike w) (keys : Keys) :
    s'.needs keys w = s.needs keys v := by
  cases v with
  | mapping entries =>
    obtain ⟨entries', rfl, hkeys⟩ := h
    simp only [needs, Value.childKeys, hkeys]
  | sequence items =>
    obtain ⟨items', rfl, hlen⟩ := h
    simp only [needs, Value.childKeys, hlen]
  | string text =>
    obtain rfl : Value.string text = w := h
    have hpath : ∀ path, s'.keys path = s.keys path := fun path => by
      rw [Scope.keys, Scope.keys, hhome]
    simp only [needs, hpath]
  | _ =>
    have hvw : _ = w := h
    rw [← hvw]
    rfl

theorem assemble_of_alike (h : v.Alike w) (parts : List Value) :
    assemble parts w = assemble parts v := by
  cases v with
  | mapping entries =>
    obtain ⟨entries', rfl, hkeys⟩ := h
    rw [assemble, assemble, hkeys]
  | sequence items =>
    obtain ⟨items', rfl, -⟩ := h
    rfl
  | _ =>
    have hvw : _ = w := h
    rw [← hvw]

/-- Two documents that agree on all that a node reaches resolve it to the same. -/
theorem naive_eq_ok_of_alike (hhome : s'.home = s.home)
    (hd : ∀ k v, s.Reaches keys k → s.document.root.getIn k = .ok v →
      ∃ w, s'.document.root.getIn k = .ok w ∧ v.Alike w)
    (h : s.naive answer stack keys = .ok x) : s'.naive answer stack keys = .ok x := by
  induction stack, keys using naive.induct s generalizing x with
  | case1 stack keys hs => rw [naive_of_mem_stack hs] at h; cases h
  | case2 stack keys hs e he => rw [naive_of_missing hs he] at h; cases h
  | case3 stack keys hs v hv ih =>
    obtain ⟨-, u, parts, hu, hp, rfl⟩ := naive_eq_ok_iff.mp h
    cases Except.ok.inj (hv.symm.trans hu)
    obtain ⟨w, hw, hvw⟩ := hd keys v .refl hv
    rw [← assemble_of_alike hvw]
    refine naive_of_met hs hw ?_
    rw [needs_of_alike hhome hvw]
    refine mapM_eq_ok_of_forall hp fun n hn y hy => ?_
    obtain ⟨z, hz, ht⟩ := met_eq_ok_iff.mp hy
    -- What the need reaches the node reaches too, so the documents agree there.
    have hreach : ∀ k, s.Reaches n.keys k → s.Reaches keys k :=
      fun k hk => .head (.of_need hv hn) hk
    exact met_eq_ok_iff.mpr ⟨z, ih n hn (fun k v hk => hd k v (hreach k hk)) hz, ht⟩

end Scope

namespace Resolver

variable {σ : Type} {r : Resolver σ} {answer : Value → String → Except Error Value}

/-- A path that resolves in one document resolves to the same value in every other one that has a
node written alike at all keys that the path reaches in the first. -/
theorem resolveOnce_local (h : r.Answers answer) {path : String} {world : σ} {v : Value}
    (hv : (Run.exec (r.resolveOnce path) world).1 = .ok v) (d : Document)
    (hd : ∀ k u, r.Reaches (r.keys path) k → r.document.root.getIn k = .ok u →
      ∃ w, d.root.getIn k = .ok w ∧ u.Alike w) (world' : σ) :
    (Run.exec ({ r with document := d }.resolveOnce path) world').1 = .ok v := by
  have h' : Answers { r with document := d } answer := h
  rw [h.exec_resolveOnce] at hv
  rw [h'.exec_resolveOnce]
  exact Scope.naive_eq_ok_of_alike (s := r.toScope) rfl hd hv

def rewritten : Document := .ofValue <| .mapping
  [("left", .string "${nowhere}"), ("title", .string "${name} ${name~@~}"), ("name", .string "x"),
    ("more", .sequence [.string "${more}"])]

theorem getIn_title :
    counting.document.root.getIn ["title"] = .ok (.string "${name} ${name~@~}") := by
  cbv

theorem getIn_name : counting.document.root.getIn ["name"] = .ok (.string "x") := by
  cbv

theorem reaches_title {k : Keys} (h : counting.Reaches ["title"] k) :
    k = ["title"] ∨ k = ["name"] := by
  have htitle : counting.needs ["title"] (.string "${name} ${name~@~}") =
      [⟨0, ["name"], none⟩, ⟨1, ["name"], some "@"⟩] := by cbv
  have hname : counting.needs ["name"] (.string "x") = [] := by cbv
  induction h with
  | refl => exact .inl rfl
  | tail _ he ih =>
    rcases ih with rfl | rfl
    · obtain ⟨n, hn, rfl⟩ := (Scope.edge_iff_exists_need getIn_title).mp he
      rw [htitle] at hn
      simp only [List.mem_cons, List.not_mem_nil, or_false] at hn
      rcases hn with rfl | rfl <;> exact .inr rfl
    · obtain ⟨n, hn, rfl⟩ := (Scope.edge_iff_exists_need getIn_name).mp he
      rw [hname] at hn
      cases hn

theorem resolveOnce_local_rewritten :
    counting.Answers echo ∧
    (Run.exec (counting.resolveOnce "title") 0).1 = .ok (.string "x x") ∧
    (∀ k, counting.Reaches (counting.keys "title") k → k = ["title"] ∨ k = ["name"]) ∧
    (Run.exec ({ counting with document := rewritten }.resolveOnce "title") 7).1 =
      .ok (.string "x x") := by
  have h : counting.Answers echo := fun _ _ _ => rfl
  have hv : (Run.exec (counting.resolveOnce "title") 0).1 = .ok (.string "x x") := by
    cbv
  have hkeys : counting.keys "title" = ["title"] := by cbv
  have hreach : ∀ k, counting.Reaches (counting.keys "title") k → k = ["title"] ∨ k = ["name"] := by
    rw [hkeys]
    exact fun _ => reaches_title
  refine ⟨h, hv, hreach, resolveOnce_local h hv rewritten (fun k u hk hu => ?_) 7⟩
  rcases hreach k hk with rfl | rfl
  · cases Except.ok.inj (getIn_title.symm.trans hu)
    exact ⟨.string "${name} ${name~@~}", by cbv, rfl⟩
  · cases Except.ok.inj (getIn_name.symm.trans hu)
    exact ⟨.string "x", by cbv, rfl⟩

end Resolver
end Manifest
