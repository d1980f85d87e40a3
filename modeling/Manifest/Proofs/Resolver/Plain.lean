import Manifest.Proofs.Resolver.Coherent

/-! Nodes without placeholders. Whatever a resolver has done before, such a node resolves to itself,
and no query is evaluated for it. -/
namespace Manifest

variable {σ : Type}

namespace Scope

variable {s : Scope} {settle : Settling σ} {keys : Keys} {p : Progress σ} {v : Value}

/-- Needs are met in a row when each of them is from all progress that the others leave. -/
theorem exists_gathers {P : Progress σ → Prop} {owner : Keys} {needs : List Need}
    {parts : List Value}
    (hsettle : ∀ n v, n.query = none → settle owner n v = pure v)
    (h : List.Forall₂ (fun n part => n.query = none ∧
      ∀ p, P p → ∃ q, Visits s settle n.keys p (.ok part) q ∧ P q) needs parts) (hp : P p) :
    ∃ q, Gathers s settle owner needs p (.ok parts) q ∧ P q := by
  induction h generalizing p with
  | nil => exact ⟨p, .nil, hp⟩
  | @cons n part needs parts hn _ ih =>
    obtain ⟨hquery, hvisit⟩ := hn
    obtain ⟨q, hv, hq⟩ := hvisit p hp
    obtain ⟨q', hg, hq'⟩ := ih hq
    exact ⟨q', .cons hv (by rw [hsettle n part hquery]; rfl) hg, hq'⟩

/-- What is remembered of a node without placeholders is the node. -/
def Verbatim (s : Scope) (p : Progress σ) : Prop :=
  ∀ keys v w, s.document.root.getIn keys = .ok v → v.Plain →
    Assoc.find? keys p.memo = some w → w = v

theorem Verbatim.remember (h : s.Verbatim p) (hv : s.document.root.getIn keys = .ok v) :
    s.Verbatim (p.remember keys v) := by
  intro k u w hu hplain hw
  rw [Progress.remember_memo] at hw
  by_cases hk : keys = k
  · subst hk
    rw [Assoc.find?_put_self] at hw
    exact (Option.some.inj hw).symm.trans (Except.ok.inj (hv.symm.trans hu))
  · rw [Assoc.find?_put_ne hk] at hw
    exact h k u w hu hplain hw

theorem forall₂_needs (hv : s.document.root.getIn keys = .ok v) (hc : ∀ text, v ≠ .string text) :
    List.Forall₂ (fun n w => n.query = none ∧ (∃ key, n.keys = keys ++ [key]) ∧
      s.document.root.getIn n.keys = .ok w) (s.needs keys v) v.children := by
  have hchildren := forall₂_children hv
  rw [← List.zipIdx_map_fst 0 v.childKeys, List.forall₂_map_left_iff] at hchildren
  rw [needs_of_container hc, List.mapIdx_eq_zipIdx_map, List.forall₂_map_left_iff]
  exact hchildren.imp fun e _ hw => ⟨rfl, ⟨e.1, rfl⟩, hw⟩

/-- A node without placeholders is visited without any effect but on the memory, as long as nothing
at or below its keys is in progress. -/
theorem exists_visits_of_plain (hsettle : ∀ owner n v, n.query = none → settle owner n v = pure v)
    (hp : s.Verbatim p) (hv : s.document.root.getIn keys = .ok v) (hplain : v.Plain)
    (hs : ∀ k ∈ p.stack, ¬keys <+: k) :
    ∃ q, Visits s settle keys p (.ok v) q ∧ s.Verbatim q ∧ q.world = p.world := by
  induction v using Value.induction_children generalizing keys p with
  | h v ih =>
    have hnew : keys ∉ p.stack := fun hk => hs keys hk (List.prefix_refl _)
    cases hm : Assoc.find? keys p.memo with
    | some w =>
      obtain rfl := hp keys v w hv hplain hm
      exact ⟨p, .done hnew hm, hp, rfl⟩
    | none =>
      have hbuilt : ∃ parts q, Gathers s settle keys (s.needs keys v) (p.push keys) (.ok parts) q ∧
          assemble parts v = v ∧ s.Verbatim q ∧ q.world = p.world := by
        by_cases hc : ∀ text, v ≠ .string text
        · -- The children go one level down each, away from all that is in progress.
          let P : Progress σ → Prop := fun q =>
            q.stack = p.stack ++ [keys] ∧ s.Verbatim q ∧ q.world = p.world
          have hall : List.Forall₂ (fun n w => n.query = none ∧
              ∀ q, P q → ∃ q', Visits s settle n.keys q (.ok w) q' ∧ P q')
              (s.needs keys v) v.children := by
            refine ((List.forall₂_and_left _ _).mpr
              ⟨fun w hw => hw, (forall₂_needs hv hc).flip⟩).flip.imp ?_
            rintro n w ⟨hmem, hquery, ⟨key, hkey⟩, hw⟩
            refine ⟨hquery, fun q ⟨hstack, hq, hworld⟩ => ?_⟩
            have hbelow : ∀ k ∈ q.stack, ¬n.keys <+: k := by
              rw [hstack, hkey]
              refine forall_mem_concat (fun k hk hle => ?_) fun hle => ?_
              · exact hs k hk ((List.prefix_append keys [key]).trans hle)
              · simpa using hle.length_le
            obtain ⟨q', hvisit, hq', hworld'⟩ :=
              ih w hmem hq hw (hplain.of_mem_children hmem) hbelow
            exact ⟨q', hvisit, hvisit.stack_eq.trans hstack, hq', hworld'.trans hworld⟩
          obtain ⟨q, hg, -, hq, hworld⟩ := exists_gathers (hsettle keys) hall
            (p := p.push keys) ⟨rfl, hp, rfl⟩
          exact ⟨v.children, q, hg, assemble_children hc, hq, hworld⟩
        · push Not at hc
          obtain ⟨text, rfl⟩ := hc
          obtain ⟨hneeds, hfill⟩ := s.needs_of_plain keys (hplain text (by simp [Value.texts]))
          exact ⟨[], p.push keys, by rw [hneeds]; exact .nil, hfill, hp, rfl⟩
      obtain ⟨parts, q, hg, hsame, hq, hworld⟩ := hbuilt
      have hvisit := Visits.built hnew hm hv hg
      rw [hsame] at hvisit
      exact ⟨_, hvisit, Verbatim.remember hq hv, hworld⟩

end Scope

namespace Resolver

theorem settle_of_query_eq_none (r : Resolver σ) (owner : Keys) (n : Need) (v : Value)
    (h : n.query = none) : r.settle owner n v = pure v := by
  simp [settle, h]

/-- Between calls a resolver remembers a node without placeholders as it is written. -/
theorem verbatim_resolveEach (r : Resolver σ) (paths : List String) (world : σ) :
    r.Verbatim (r.resolveEach paths { world }).2 :=
  fun _ _ _ hv hplain hw => (r.coherent_resolveEach paths world).eq_of_plain hw hv hplain

/-- A path is read without any effect but on the memory if no text at or below its node has a
placeholder. -/
theorem exists_visits_get {r : Resolver σ} {p : Progress σ} (path : String) (hstack : p.stack = [])
    (htidy : r.Tidy p) (hp : r.Verbatim p)
    (hplain : ∀ v, r.document.get (Path.expand r.home path) = .ok v → v.Plain) :
    ∃ q, r.Visits r.settle (r.keys path) p (r.document.get (Path.expand r.home path)) q ∧
      q.world = p.world := by
  have hget : r.document.get (Path.expand r.home path) = r.document.root.getIn (r.keys path) := rfl
  rw [hget] at hplain ⊢
  cases hv : r.document.root.getIn (r.keys path) with
  | ok v =>
    obtain ⟨q, hvisit, -, hworld⟩ := Scope.exists_visits_of_plain r.settle_of_query_eq_none hp hv
      (hplain v hv) (by simp [hstack])
    exact ⟨q, hvisit, hworld⟩
  | error e =>
    have hm : Assoc.find? (r.keys path) p.memo = none := by
      cases hm : Assoc.find? (r.keys path) p.memo with
      | none => rfl
      | some w =>
        obtain ⟨v, hv'⟩ := htidy.there _ w hm
        cases hv.symm.trans hv'
    exact ⟨p, .missing (by simp [hstack]) hm hv, rfl⟩

/-- After any calls of a resolver, a path resolves to the node that is written there, or fails as it
does to read it, if no text at or below the node has a placeholder. The evaluator is asked nothing,
and the state that it shares is left as it was. -/
theorem resolve_eq_get (r : Resolver σ) (world : σ) (paths : List String) (path : String)
    (hplain : ∀ v, r.document.get (Path.expand r.home path) = .ok v → v.Plain) :
    let p := (r.resolveEach paths { world }).2
    let q := (Run.exec (r.resolve path) p).2
    let node := r.document.get (Path.expand r.home path)
    Run.exec (r.resolve path) p = (node, q) ∧ (∀ e, node = .error e → e.kind = .pathNotFound) ∧
      Run.exec (r.observed.resolve path) (p.map (·, [])) = (node, q.map (·, [])) ∧
      q.world = p.world := by
  intro p q node
  obtain ⟨hstack, htidy⟩ := r.tidy_resolveEach world paths
  have hverbatim := r.verbatim_resolveEach paths world
  obtain ⟨q₁, hvisit, hworld⟩ := exists_visits_get path hstack htidy hverbatim hplain
  have hexec : Run.exec (r.resolve path) p = (node, q₁) := exec_resolve_eq_iff.mpr hvisit
  obtain rfl : q = q₁ := congrArg Prod.snd hexec
  refine ⟨hexec, fun e he => Value.kind_of_getIn he, ?_, hworld⟩
  -- An evaluator that writes down what it is asked has nothing to write.
  obtain ⟨q₂, hvisit', hworld'⟩ := exists_visits_get (r := r.observed) (p := p.map (·, []))
    path hstack ⟨htidy.nodup, htidy.apart, htidy.once, htidy.there, htidy.closed⟩
    hverbatim hplain
  have hobserved := r.exec_resolve_observed path p
  rw [exec_resolve_eq_iff.mpr hvisit'] at hobserved
  obtain ⟨-, rfl⟩ := Prod.mk.inj hobserved
  have hnone : (r.usesIn path p).filterMap Use.question? = [] := congrArg Prod.snd hworld'
  rw [r.exec_resolve_observed path p, hnone, hexec]

/-- A mapping with keys that hold dots, are empty or look like positions, and texts around it that
refer to all of it and to themselves. Queries are counted. -/
def cabinet : Resolver Nat where
  document := .ofValue <| .mapping
    [("drawer",
      .mapping [("a.b", .sequence [.int 1, .string "x $\x7b"]), ("", .null), ("00", .bool true)]),
      ("label", .string "${drawer} ${drawer.00~@~}"), ("loop", .string "${drawer}${loop}")]
  home := some "drawer"
  evaluate v query := Run.ofStep fun n => (echo v query, n + 1)

theorem resolve_eq_get_cabinet :
    (∀ v, cabinet.document.get (Path.expand cabinet.home ".") = .ok v → v.Plain) ∧
    (Run.exec (cabinet.resolve ".")
      (cabinet.resolveEach ["label", "loop", "nowhere"] { world := 0 }).2).1 =
      .ok (.mapping
        [("a.b", .sequence [.int 1, .string "x $\x7b"]), ("", .null), ("00", .bool true)]) := by
  have hget : cabinet.document.get (Path.expand cabinet.home ".") = .ok (.mapping
      [("a.b", .sequence [.int 1, .string "x $\x7b"]), ("", .null), ("00", .bool true)]) := by
    cbv
  have hplain : ∀ v, cabinet.document.get (Path.expand cabinet.home ".") = .ok v → v.Plain := by
    rintro v hv
    obtain rfl := Except.ok.inj (hget.symm.trans hv)
    decide +kernel
  refine ⟨hplain, ?_⟩
  rw [(resolve_eq_get cabinet 0 ["label", "loop", "nowhere"] "." hplain).1, hget]

end Resolver
end Manifest
