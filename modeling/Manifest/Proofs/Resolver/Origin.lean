import Manifest.Proofs.Query.Errors
import Manifest.Proofs.Resolver.Circle
import Manifest.Proofs.Resolver.Invariant

/-! Where errors come from. An error of a call is that of one call inside it which fails by itself,
and all calls around that pass it on as it is. If it is an error of a query, it is located at the
text that asks for the query. -/
namespace Manifest

variable {σ : Type}

namespace Scope

variable {s : Scope} {settle : Settling σ}

/-- A call fails by itself, not through a call that it makes: its keys are in progress already,
there is no such node, or a resolved need of the node comes to nothing. -/
inductive Fails (s : Scope) (settle : Settling σ) : Keys × Progress σ → Error → Prop
  | circle {keys : Keys} {p : Progress σ} (h : keys ∈ p.stack) :
      Fails s settle (keys, p) (circle p.stack keys)
  | missing {keys : Keys} {p : Progress σ} {e : Error}
    (he : s.document.root.getIn keys = .error e) :
      Fails s settle (keys, p) e
  | unsettled {keys : Keys} {p a b : Progress σ} {v w : Value} {n : Need} {e : Error} {world : σ}
      (hv : s.document.root.getIn keys = .ok v) (hn : n ∈ s.needs keys v)
      (hc : s.Calls settle (keys, p) (n.keys, a)) (hw : Visits s settle n.keys a (.ok w) b)
      (hs : Run.exec (settle keys n w) b.world = (.error e, world)) : Fails s settle (keys, p) e

mutual

/-- A call that fails has a call inside it, perhaps itself, that fails by itself with the same
error. -/
theorem Visits.exists_fails {keys : Keys} {p q : Progress σ} {r : Except Error Value} {e : Error}
    (h : Visits s settle keys p r q) (hr : r = .error e) :
    ∃ b q', s.Within settle (keys, p) b ∧ Visits s settle b.1 b.2 (.error e) q' ∧
      s.Fails settle b e := by
  match h with
  | .circle hs => cases hr; exact ⟨_, _, .refl, .circle hs, .circle hs⟩
  | .done .. | .built .. => cases hr
  | .missing hs hm he => cases hr; exact ⟨_, _, .refl, .missing hs hm he, .missing he⟩
  | .failed (v := v) hs hm hv hg =>
    obtain ⟨met, n, rest, parts, a, hneeds, hmet, hn⟩ :=
      hg.exists_fails (congrArg Except.error (Except.error.inj hr))
    have hc : s.Calls settle (keys, p) (n.keys, a) := .intro hs hm hv hneeds hmet
    rcases hn with ⟨b, q', hb, hvisit, hfails⟩ | ⟨w, b, world, hw, hsettle⟩
    · exact ⟨b, q', .head hc hb, hvisit, hfails⟩
    · have hmem : n ∈ s.needs keys v := by rw [hneeds]; simp
      cases hr
      exact ⟨_, _, .refl, .failed hs hm hv hg, .unsettled hv hmem hc hw hsettle⟩

/-- The first need that is not met is not resolved, or comes to nothing once it is. -/
theorem Gathers.exists_fails {owner : Keys} {needs : List Need} {p q : Progress σ}
    {r : Except Error (List Value)} {e : Error} (h : Gathers s settle owner needs p r q)
    (hr : r = .error e) :
    ∃ (met : List Need) (n : Need) (rest : List Need) (parts : List Value) (a : Progress σ),
      needs = met ++ n :: rest ∧ Gathers s settle owner met p (.ok parts) a ∧
      ((∃ b q', s.Within settle (n.keys, a) b ∧ Visits s settle b.1 b.2 (.error e) q' ∧
          s.Fails settle b e) ∨
        ∃ w b world, Visits s settle n.keys a (.ok w) b ∧
          Run.exec (settle owner n w) b.world = (.error e, world)) := by
  match h with
  | .nil | .cons .. => cases hr
  | .unresolved hn =>
    have hfails := hn.exists_fails (congrArg Except.error (Except.error.inj hr))
    exact ⟨[], _, _, [], p, rfl, .nil, .inl hfails⟩
  | .unsettled hn hs => cases hr; exact ⟨[], _, _, [], p, rfl, .nil, .inr ⟨_, _, _, hn, hs⟩⟩
  | .stopped (n := n) (w := w) hn hs hg =>
    obtain ⟨met, m, rest, parts, a, rfl, hmet, hm⟩ :=
      hg.exists_fails (congrArg Except.error (Except.error.inj hr))
    exact ⟨n :: met, m, rest, w :: parts, a, rfl, .cons hn hs hmet, hm⟩

end

end Scope

namespace Resolver

variable {r : Resolver σ}

/-- A resolved need comes to nothing only through its query. -/
theorem exists_query_of_settle {owner : Keys} {n : Need} {w : Value} {world world' : σ} {e : Error}
    (h : Run.exec (r.settle owner n w) world = (.error e, world')) :
    ∃ query raised, n.query = some query ∧
      Run.exec (r.evaluate w query) world = (.error raised, world') ∧
      e = raised.orAt (Path.dotted owner) := by
  unfold settle at h
  cases hq : n.query with
  | none => rw [hq] at h; cases h
  | some query =>
    simp only [hq, Run.exec_mapError] at h
    obtain ⟨he, rfl⟩ := Prod.mk.inj h
    cases hx : (Run.exec (r.evaluate w query) world).1 with
    | ok u => rw [hx] at he; cases he
    | error raised =>
      rw [hx] at he
      cases he
      exact ⟨query, raised, rfl, Prod.ext hx rfl, rfl⟩

/-- Every error of a resolver has a path, and is that of one call inside the failing one which fails
by itself; all calls around that fail with the very same error. Either the keys of that call are in
progress already, and the error is about this circle; or there is no node at these keys, and the
error says so; or there is a text, and the query of one of its placeholders fails on the resolved
target. Then the error is the query's own, with the keys of that text for its path unless it has one
already. An evaluator of queries gives a path to an error only where the body of a registered
function has raised it so. -/
theorem error_located (r : Resolver σ) {path : String} {p q : Progress σ} {e : Error}
    (h : Run.exec (r.resolve path) p = (.error e, q)) :
    e.path ≠ none ∧ ∃ keys p', r.Within r.settle (r.keys path, p) (keys, p') ∧
      (∀ b, r.Within r.settle (r.keys path, p) b → r.Within r.settle b (keys, p') →
        (Run.exec (r.node r.settle b.1) b.2).1 = .error e) ∧
      ((keys ∈ p'.stack ∧
          e = .circularReference (Path.dotted keys) ((p'.stack ++ [keys]).map Path.dotted)) ∨
        (r.document.root.getIn keys = .error e ∧ e.kind = .pathNotFound ∧
          e.path = some (Path.dotted keys)) ∨
        ∃ text m query a b target raised world,
          r.document.root.getIn keys = .ok (.string text) ∧ m ∈ Template.scan text ∧
          m.placeholder.query = some query ∧
          r.Calls r.settle (keys, p') (r.keys m.placeholder.path, a) ∧
          Run.exec (r.node r.settle (r.keys m.placeholder.path)) a = (.ok target, b) ∧
          Run.exec (r.evaluate target query) b.world = (.error raised, world) ∧
          e = { raised with path := some (raised.path.getD (Path.dotted keys)) } ∧
          ∀ registry, r.evaluate = Query.evaluate registry → raised.path = none ∨
            ∃ expr, Query.Compiles query expr ∧ ∃ c ∈ Query.calls registry expr target b.world, ∃ f,
              registry.get? c.name = some f ∧
              (Run.exec (f.body (c.args.map Value.ofJson)) c.world).1 = .error raised) := by
  obtain ⟨⟨keys, p'⟩, q', hwithin, hvisit, hfails⟩ := (exec_resolve_eq_iff.mp h).exists_fails rfl
  -- A failure passes through the calls between.
  have hpass : ∀ b, r.Within r.settle (r.keys path, p) b → r.Within r.settle b (keys, p') →
      (Run.exec (r.node r.settle b.1) b.2).1 = .error e := fun b _ hb =>
    (Scope.Within.error hb (Scope.exec_node_eq_iff.mp rfl) hvisit).1
  cases hfails with
  | circle hs => exact ⟨nofun, keys, p', hwithin, hpass, .inl ⟨hs, rfl⟩⟩
  | missing he =>
    have hpath := Value.path_of_getIn he
    exact ⟨by rw [hpath]; exact nofun, keys, p', hwithin, hpass,
      .inr (.inl ⟨he, Value.kind_of_getIn he, hpath⟩)⟩
  | @unsettled _ _ a b v target n _ world hv hn hc hw hs =>
    obtain ⟨query, raised, hquery, hraised, rfl⟩ := exists_query_of_settle hs
    obtain ⟨text, rfl⟩ := Scope.exists_text_of_query hn hquery
    obtain ⟨m, hm, hkeys, hmquery⟩ := Scope.exists_span_of_need hn
    rw [← hkeys] at hc hw
    refine ⟨nofun, keys, p', hwithin, hpass,
      .inr (.inr ⟨text, m, query, a, b, target, raised, world, hv,
      hm, hmquery.trans hquery, hc, Scope.exec_node_eq_iff.mpr hw, hraised, rfl, ?_⟩)⟩
    intro registry hevaluate
    rw [hevaluate] at hraised
    exact Query.path_eq_none_or_exists_body (congrArg Prod.fst hraised)

/-- A text whose query fails, in a list that another text refers to, which a third one quotes. -/
def relayed : Resolver Unit where
  document := .ofValue <| .mapping
    [("front", .string "${quote}"), ("quote", .string "> ${list}"),
      ("list", .sequence [.string "${name}", .string "${name~no~}"]), ("name", .string "x")]
  evaluate v query := Run.ofExcept (echo v query)

theorem error_located_relayed :
    Run.exec (relayed.resolve "front") { world := () } =
      (.error { Error.queryEval "no" with path := some "list.1" },
        { memo := [(["name"], .string "x"), (["list", "0"], .string "x")], world := () }) ∧
    ∃ keys p', relayed.Within relayed.settle (["front"], { world := () }) (keys, p') ∧
      ∃ text, relayed.document.root.getIn keys = .ok (.string text) ∧
        Path.dotted keys = "list.1" := by
  have h : Run.exec (relayed.resolve "front") { world := () } =
      (.error { Error.queryEval "no" with path := some "list.1" },
        { memo := [(["name"], .string "x"), (["list", "0"], .string "x")], world := () }) := by
    cbv
  obtain ⟨-, keys, p', hwithin, -, horigin⟩ := error_located relayed h
  refine ⟨h, keys, p', hwithin, ?_⟩
  rcases horigin with ⟨-, he⟩ | ⟨-, he, -⟩ |
    ⟨text, m, query, a, b, target, raised, world, htext, -, -, -, -, hraised, he, -⟩
  · cases he
  · cases he
  · have hecho : echo target query = .error raised := congrArg Prod.fst hraised
    unfold echo at hecho
    split at hecho
    · cases hecho
    · cases hecho
      exact ⟨text, htext, (Option.some.inj (congrArg Error.path he)).symm⟩

end Resolver
end Manifest
