import Manifest.Proofs.Query.Errors
import Manifest.Proofs.Query.Normal
import Manifest.Proofs.Query.Spelling

/-! Queries that are nothing but calls of functions do what these functions do when they are called
directly, on values in normal form. -/
namespace Manifest

variable {σ α β : Type}

/-- Calls of functions one after another, from the last of the names on. Each gets what the one
before has given, in normal form. -/
def Registry.chain (registry : Registry σ) : List String → Value → Run σ Value
  | [], v => pure v
  | f :: fs, v => do
    let w ← registry.chain fs v
    registry.call f [w.norm]

namespace Query

variable {query : String}

/-- A search that starts with an empty slot does what a run does. -/
structure Mirrors (query : String) (x : Search σ α) (y : Run σ α) : Prop where
  ok : ∀ {world world' a}, Run.exec y world = (.ok a, world') →
    Run.exec x { world } = (.ok a, { world := world' })
  error : ∀ {world world' e}, Run.exec y world = (.error e, world') →
    ∃ failure slot, Run.exec x { world } = (.error failure, ⟨world', slot⟩) ∧
      slot.getD (failure.error query) = e

theorem Mirrors.toRun_eq {x : Search σ α} {y : Run σ α} (h : Mirrors query x y) :
    Search.toRun query x = y := by
  refine Run.ext_exec fun world => ?_
  rw [Search.exec_toRun]
  rcases hy : Run.exec y world with ⟨e | a, world'⟩
  · obtain ⟨failure, slot, hx, rfl⟩ := h.error hy
    rw [hx]
  · rw [h.ok hy]

theorem mirrors_pure (query : String) (a : α) : Mirrors query (pure a : Search σ α) (pure a) where
  ok h := by cases h; rfl
  error h := by cases h

theorem mirrors_ofRun (query : String) (y : Run σ α) : Mirrors query (Search.ofRun y) y where
  ok h := by rw [Search.exec_ofRun, h]
  error h := ⟨_, _, by rw [Search.exec_ofRun, h], rfl⟩

theorem Mirrors.bind {x : Search σ α} {y : Run σ α} {f : α → Search σ β} {g : α → Run σ β}
    (hxy : Mirrors query x y) (hfg : ∀ a, Mirrors query (f a) (g a)) :
    Mirrors query (x >>= f) (y >>= g) where
  ok {world _ _} h := by
    rcases hy : Run.exec y world with ⟨e | a, world'⟩
    · rw [Run.exec_bind_of_error hy] at h
      cases h
    · rw [Run.exec_bind_of_ok hy] at h
      rw [Run.exec_bind_of_ok (hxy.ok hy), (hfg a).ok h]
  error {world _ _} h := by
    rcases hy : Run.exec y world with ⟨e | a, world'⟩
    · rw [Run.exec_bind_of_error hy] at h
      cases h
      obtain ⟨failure, slot, hx, he⟩ := hxy.error hy
      exact ⟨failure, slot, Run.exec_bind_of_error hx f, he⟩
    · rw [Run.exec_bind_of_ok hy] at h
      obtain ⟨failure, slot, hf, he⟩ := (hfg a).error h
      exact ⟨failure, slot, (Run.exec_bind_of_ok (hxy.ok hy) f).trans hf, he⟩

variable {registry : Registry σ} {name : String} {names : List String}

def Decides (registry : Registry σ) (name : String) : Prop :=
  registry.contains name ∨ Assoc.find? name (Standard.functions (apply registry depthLimit)) = none

/-- To call a function of the registry from a query is to call it on the arguments as values. -/
theorem mirrors_call (h : Decides registry name) (query : String) (offset : Nat)
    (args : List Datum) :
    Mirrors query (call registry (apply registry depthLimit) offset name args)
      (do return (← registry.call name (args.map Value.ofJson)).toSortedJson) := by
  unfold call
  cases hname : registry.contains name with
  | true =>
    rw [if_pos rfl]
    exact (mirrors_ofRun query _).bind fun v => mirrors_pure query _
  | false =>
    -- A name of nothing is unknown to the query and to the registry alike.
    have hstandard := h.resolve_left (by rw [hname]; exact Bool.false_ne_true)
    have hnone : registry.get? name = none := by simpa [Registry.contains] using hname
    rw [if_neg Bool.false_ne_true, hstandard, Registry.call, hnone]
    refine ⟨fun h => ?_, fun h => ?_⟩
    · cases h
    · cases h
      exact ⟨_, none, rfl, rfl⟩

theorem mirrors_eval_nesting (h : ∀ f ∈ names, Decides registry f) (query : String) (offset : Nat)
    (v : Value) :
    Mirrors query
      ((nesting offset names).eval (call registry (apply registry depthLimit)) v.toSortedJson)
      (do return (← registry.chain names v).toSortedJson) := by
  induction names generalizing offset with
  | nil => exact mirrors_pure query _
  | cons f fs ih =>
    obtain ⟨hf, hfs⟩ := List.forall_mem_cons.mp h
    have hinner := (ih hfs (offset + Text.width f.toList + 1)).bind fun y =>
      mirrors_call hf query (offset + Text.width f.toList) [y]
    simpa [nesting, Expr.eval, Expr.evalItems, Registry.chain, Value.ofJson_toSortedJson]
      using hinner

theorem compiles_nested (h : ∀ f ∈ names, Token.isName f) :
    Compiles (nested names) (nesting 0 names) where
  trim_ne := by
    have hmem : '@' ∈ (nested names).toList := by
      induction names with
      | nil => decide
      | cons f fs ih => simp [nested, ih (List.forall_mem_cons.mp h).2]
    exact Text.trim_ne_empty hmem rfl
  ofText := ofText?_nested h

/-- A query of calls inside one another is these calls, made directly one after another. -/
theorem evaluate_nested (hnames : ∀ f ∈ names, Token.isName f) (h : ∀ f ∈ names, Decides registry f)
    (v : Value) :
    evaluate registry v (nested names) = (do return (← registry.chain names v).norm) := by
  rw [(compiles_nested hnames).evaluate_eq]
  have hsearch := (mirrors_eval_nesting h (nested names) 0 v).bind fun y =>
    mirrors_pure (nested names) (Value.ofJson y)
  simpa [search, Value.ofJson_toSortedJson] using hsearch.toRun_eq

/-- A query that calls a function on the value itself does what the registry does when the function
is called on the normal form of the value; a call on the result of another does what the two calls
do one after another, the outer one on the normal form of what the inner one has given. What comes
of it is in normal form, and errors and effects are the same. The names are of registered functions,
which may be those of functions that queries have anyway, or of no function at all. -/
theorem evaluate_call (registry : Registry σ) (v : Value) {f g : String} (hf : Token.isName f)
    (hg : Token.isName g) (hf' : Decides registry f) (hg' : Decides registry g) :
    evaluate registry v (f ++ "(@)") = (do
      let r ← registry.call f [v.norm]
      return r.norm) ∧
    evaluate registry v (f ++ "(" ++ g ++ "(@))") = (do
      let w ← registry.call g [v.norm]
      let r ← registry.call f [w.norm]
      return r.norm) := by
  have hsingle : nested [f] = f ++ "(@)" := by simp [nested, String.append_assoc]
  have hdouble : nested [f, g] = f ++ "(" ++ g ++ "(@))" := by simp [nested, String.append_assoc]
  constructor
  · rw [← hsingle, evaluate_nested (by simpa using hf) (by simpa using hf')]
    simp [Registry.chain]
  · rw [← hdouble, evaluate_nested (by simp [hf, hg]) (by simp [hf', hg'])]
    simp [Registry.chain]

/-- A function in place of one that queries have anyway. It wants a list, and counts its calls. -/
def boxing : Registry Nat :=
  Registry.empty.register "length" ⟨⟨[.list]⟩, fun args =>
    Run.ofStep fun n => (.ok (.mapping [("list", args.headD .null), ("count", .int 2)]), n + 1)⟩

theorem evaluate_call_boxing :
    Token.isName "length" ∧ Decides boxing "length" ∧ Decides boxing "no_such" ∧
    Run.exec (evaluate boxing (.sequence [.null]) "length(@)") 0 =
      (.ok (.mapping [("count", .int 2), ("list", .sequence [.null])]), 1) ∧
    Run.exec (evaluate boxing (.sequence [.null]) "length(length(@))") 0 =
      (.error (.arityOrType "length" "argument 1 must be list, got mapping"), 1) ∧
    Run.exec (evaluate boxing (.sequence [.null]) "no_such(length(@))") 0 =
      (.error (.unknownFunction "no_such"), 1) := by
  have hlength : Token.isName "length" := by decide +kernel
  have hdecides : Decides boxing "length" := .inl (by decide +kernel)
  have hnone : Decides boxing "no_such" := .inr (by decide +kernel)
  obtain ⟨hone, htwo⟩ := evaluate_call boxing (.sequence [.null]) hlength hlength hdecides hdecides
  have hother :=
    (evaluate_call boxing (.sequence [.null]) (f := "no_such") (by decide +kernel) hlength hnone
    hdecides).2
  refine ⟨hlength, hdecides, hnone, ?_, ?_, ?_⟩
  · exact (congrArg (Run.exec · 0) hone).trans (by cbv)
  · exact (congrArg (Run.exec · 0) htwo).trans (by cbv)
  · exact (congrArg (Run.exec · 0) hother).trans (by cbv)

end Query
end Manifest
