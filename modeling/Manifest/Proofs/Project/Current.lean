import Manifest.Proofs.Project.Entry
import Manifest.Proofs.Query.Normal
import Manifest.Proofs.Resolver.Requery

/-! The query for the value itself in a text: it shows the value with its mappings in order, and a
value that is in order anyway as it is shown without the query. -/
namespace Manifest

variable {σ : Type} {keys : Keys} {path text : String} {v x : Value} {world : σ}

namespace Scope

variable {s : Scope} {settle : Settling σ} {q : Progress σ}

/-- A text that is resolved with nothing done before has, between the gaps, what its placeholders'
targets are remembered as, settled and rendered. -/
theorem Visits.exists_weave (h : Visits s settle keys { world } (.ok x) q)
    (htext : s.document.root.getIn keys = .ok (.string text)) :
    ∃ gaps rs, Template.Cut 0 text.toList (Template.scan text) gaps ∧
      x = .string (String.ofList (Template.weave gaps rs)) ∧
      List.Forall₂ (fun (m : Span) r => ∃ n v w world world', n.query = m.placeholder.query ∧
        Assoc.find? (s.keys m.placeholder.path) q.memo = some v ∧
        Run.exec (settle keys n v) world = (.ok w, world') ∧ r = w.render)
          (Template.scan text) rs := by
  cases h with
  | done _ hm => cases hm
  | @built _ _ q y parts hs hm hv hg =>
    cases Except.ok.inj (htext.symm.trans hv)
    have ht := (s.tidy_start world).push hs hm
    have hdone : Assoc.find? keys q.pop.memo = none :=
      (hg.tidy ht).apart keys (by simp [hg.stack_eq])
    have hgrows : ∀ w, q.pop.Grows (q.pop.remember keys w) :=
      (Progress.Grows.refl q.pop).remember hdone
    have hneeds :
      List.Forall₂ (fun (a : Keys × Option String) r => ∃ n v w world world', n.query = a.2 ∧
        Assoc.find? a.1 q.pop.memo = some v ∧ Run.exec (settle keys n v) world = (.ok w, world') ∧
        r = w.render)
        ((s.needs keys (.string text)).map fun n => (n.keys, n.query))
          (parts.map Value.render) := by
      rw [List.forall₂_map_left_iff, List.forall₂_map_right_iff]
      refine hg.forall₂_settled.imp ?_
      rintro n w ⟨v, world, world', hfind, hsettle⟩
      exact ⟨n, v, w, world, world', rfl, hfind, hsettle, rfl⟩
    rw [map_needs_string, List.forall₂_map_left_iff] at hneeds
    have hlength : (parts.map Value.render).length =
        (Template.placeholders (Template.pieces text.toList)).length := by
      rw [← hneeds.length_eq, ← Template.spansFrom_placeholder 0, List.length_map]
      rfl
    refine ⟨_, parts.map Value.render, (Template.cut_scan_iff text _).mpr rfl, ?_, hneeds.imp ?_⟩
    · rw [assemble, Template.fill_eq_weave hlength]
    · rintro m r ⟨n, v, w, world, world', hquery, hfind, hsettle, rfl⟩
      exact ⟨n, v, w, world, world', hquery, hgrows _ _ _ hfind, hsettle, rfl⟩

end Scope

namespace Project

variable {p : Project σ} {q : Progress σ} {r : Except Error Value}

theorem requeries (p : Project σ) {d : Document} (hd : Document.Requeried path p.document d) :
    Scope.Requeries path p.resolver.toScope { p with document := d }.resolver.toScope
      p.resolver.settle where
  home := rfl
  document := hd
  plain owner n v world hn := by rw [Resolver.settle, hn]; rfl
  current owner n v world hn := by
    rw [Resolver.settle, hn, resolver]
    simp only [Query.evaluate_current]
    rfl

/-- A value's own query gives the value with its mappings in order, as it is shown inside a text; a
value in order is shown as it is. So in a document in which some placeholders get that query, and in
the order of whose targets nothing changes, a resolution from any node comes to what it came to
before, whatever the functions do. In any text, a placeholder with that query is replaced by what
its path resolves to, with its mappings in order; where queries depend on nothing but value and
query, that is what the path resolves to on its own. -/
theorem current_query_renders
    (h : Run.exec (p.resolver.node p.resolver.settle keys) { world } = (r, q)) :
    (∀ v world, ∃ w, Run.exec (Query.evaluate p.registry v "@") world = (.ok w, world) ∧
      w.render = v.sorted.render ∧ v.sorted.Ordered ∧ (v.Ordered → w.render = v.render)) ∧
    (∀ path d, Document.Requeried path p.document d →
      (∀ v, Assoc.find? (p.resolver.keys path) q.memo = some v → v.Ordered) →
      let p' := { p with document := d }
      Run.exec (p'.resolver.node p'.resolver.settle keys) { world } = (r, q)) ∧
    (∀ text x, p.document.root.getIn keys = .ok (.string text) → r = .ok x →
      ∃ gaps rs, Template.Cut 0 text.toList (Template.scan text) gaps ∧
        x = .string (String.ofList (Template.weave gaps rs)) ∧
        List.Forall₂ (fun (m : Span) r => ∃ v,
          Assoc.find? (p.resolver.keys m.placeholder.path) q.memo = some v ∧
          (m.placeholder.query = none → r = v.render) ∧
          (m.placeholder.query = some "@" → r = v.sorted.render)) (Template.scan text) rs) ∧
    ∀ answer, p.resolver.Answers answer → ∀ path v,
      Assoc.find? (p.resolver.keys path) q.memo = some v →
      ∀ world, (Run.exec (p.resolver.resolveOnce path) world).1 = .ok v := by
  have hvisits := Scope.exec_node_eq_iff.mp h
  refine ⟨fun v world => ?_, fun path d hd hq => ?_, fun text x htext hx => ?_,
    fun answer ha path v hv world' => ?_⟩
  · have hrender := v.render_norm
    refine ⟨v.norm, by rw [Query.evaluate_current]; rfl, hrender, v.ordered_sorted, fun hv => ?_⟩
    rw [hrender, Value.sorted_eq_self hv]
  · have hr := p.requeries hd
    exact Scope.exec_node_eq_iff.mpr (hvisits.requeried hr (Scope.tidy_start _ world) hq)
  · subst hx
    obtain ⟨gaps, rs, hcut, hweave, hall⟩ := hvisits.exists_weave htext
    refine ⟨gaps, rs, hcut, hweave, hall.imp ?_⟩
    rintro m r ⟨n, v, w, world, world', hquery, hfind, hsettle, rfl⟩
    refine ⟨v, hfind, fun hnone => ?_, fun hcurrent => ?_⟩
    · rw [Resolver.settle, hquery, hnone] at hsettle
      cases hsettle
      rfl
    · have hnorm : Run.exec (p.resolver.settle keys n v) world = (.ok v.norm, world) := by
        rw [Resolver.settle, hquery, hcurrent, resolver]
        simp only [Query.evaluate_current]
        rfl
      rw [hnorm] at hsettle
      cases hsettle
      exact v.render_norm
  · have hfaithful :=
      (hvisits.eq_naive ha.exec_settle (Scope.tidy_start _ world) (by simp [Scope.Faithful])).2
    rw [ha.exec_resolveOnce]
    exact hfaithful _ v hv

def unordered : Value := .mapping [("b", .int 1), ("a", .datetime (.date ⟨2024, 2, 29⟩))]

def ordered : Value := .mapping [("a", .int Int64.minValue), ("b", .sequence [.string "\"", .null])]

def board (text : String) : Project Unit where
  document := .ofValue <| .mapping [("odd", unordered), ("even", ordered), ("text", .string text)]
  registry := .empty

theorem root_board (text : String) :
    (board text).document.root =
      .mapping [("odd", unordered), ("even", ordered), ("text", .string text)] := rfl

theorem requeried_board :
    Document.Requeried "even" (board "${odd~@~} ${even}!").document
      (board "${odd~@~} ${even ~ @ ~}!").document where
  shape := by cbv
  text keys text h := by
    rw [Value.getIn_eq_ok, root_board] at h
    simp only [Value.getIn_eq_ok, root_board]
    cases keys with
    | nil => cases h
    | cons key keys =>
      by_cases hkey : key = "text"
      · subst hkey
        cases keys with
        | cons key keys => cases h
        | nil =>
          cases h
          have hpath : ∀ c ∈ "even".toList, Placeholder.isPathChar c := List.all_eq_true.mp (by cbv)
          have hscan : Template.scan "${odd~@~} ${even}!" =
              [⟨0, 9, ⟨"odd", some "@"⟩⟩, ⟨10, 17, ⟨"even", none⟩⟩] := by cbv
          have hspan : ∃ m ∈ Template.scan "${odd~@~} ${even}!",
            m.start = Text.width "${odd~@~} ".toList :=
            ⟨_, hscan ▸ List.mem_cons_of_mem _ (List.mem_singleton_self _), by cbv⟩
          exact ⟨_, rfl,
            .inr (Template.requeried_of_scan (b := ['!']) hpath (by cbv) (by cbv) hspan)⟩
      · refine ⟨text, ?_, .inl rfl⟩
        have hchild : ∀ t,
          Value.child (.mapping [("odd", unordered), ("even", ordered), ("text", .string t)]) key =
            Value.child (.mapping [("odd", unordered), ("even", ordered)]) key := fun t => by
          simp [Value.child, Assoc.find?, Ne.symm hkey]
        rw [Value.walk, hchild] at h ⊢
        exact h

def shown (text : String) : Except Error Value × Progress Unit :=
  Run.exec ((board text).resolver.node (board text).resolver.settle ["text"]) { world := () }

theorem current_query_renders_board :
    (shown "${odd~@~} ${even}!").1 = .ok (.string
      "\x7b\"a\":\"2024-02-29\",\"b\":1\x7d \x7b\"a\":-9223372036854775808,\"b\":[\"\\\"\",null]\x7d!") ∧
    shown "${odd~@~} ${even ~ @ ~}!" = shown "${odd~@~} ${even}!" := by
  have hrun : Run.exec
    ((board "${odd~@~} ${even}!").resolver.node (board "${odd~@~} ${even}!").resolver.settle
      ["text"]) { world := () } =
        ((shown "${odd~@~} ${even}!").1, (shown "${odd~@~} ${even}!").2) := rfl
  have heven : Assoc.find? ["even"] (shown "${odd~@~} ${even}!").2.memo = some ordered := by cbv
  have hordered : ordered.Ordered := by
    rw [ordered, Value.ordered_mapping]
    exact ⟨by decide, by simp [Value.Ordered, Value.OrderedItems]⟩
  obtain ⟨-, hsame, -⟩ := current_query_renders hrun
  refine ⟨by cbv, hsame "even" _ requeried_board fun v hv => ?_⟩
  obtain rfl := Option.some.inj (heven.symm.trans hv)
  exact hordered

end Project
end Manifest
