import Manifest.Resolver.Scope
import Manifest.Run

/-! Resolving node by node. A node is resolved once all it needs is: children and targets one after
another, in the order of the document. Nodes in progress form a stack, by which circles are noticed;
nodes that are done are remembered. -/
namespace Manifest

/-- How far a resolver has come: the nodes in progress, outermost first, the nodes that are done,
and the state that queries change. -/
structure Progress (σ : Type) where
  stack : List Keys := []
  memo : List (Keys × Value) := []
  world : σ

namespace Progress

variable {σ : Type}

def push (p : Progress σ) (keys : Keys) : Progress σ := { p with stack := p.stack ++ [keys] }

def pop (p : Progress σ) : Progress σ := { p with stack := p.stack.dropLast }

def remember (p : Progress σ) (keys : Keys) (v : Value) : Progress σ :=
  { p with memo := Assoc.put keys v p.memo }

@[simp] theorem push_stack (p : Progress σ) (keys : Keys) :
    (p.push keys).stack = p.stack ++ [keys] := rfl
@[simp] theorem push_memo (p : Progress σ) (keys : Keys) : (p.push keys).memo = p.memo := rfl
@[simp] theorem pop_stack (p : Progress σ) : p.pop.stack = p.stack.dropLast := rfl
@[simp] theorem pop_memo (p : Progress σ) : p.pop.memo = p.memo := rfl
@[simp] theorem remember_stack (p : Progress σ) (keys : Keys) (v : Value) :
    (p.remember keys v).stack = p.stack := rfl
@[simp] theorem remember_memo (p : Progress σ) (keys : Keys) (v : Value) :
    (p.remember keys v).memo = Assoc.put keys v p.memo := rfl

@[simp] theorem pop_push (p : Progress σ) (keys : Keys) : (p.push keys).pop = p := by
  simp [push, pop]

def size (p : Progress σ) : Nat := p.memo.length

end Progress

/-- What becomes of a resolved need of the node at some keys. -/
abbrev Settling (σ : Type) := Keys → Need → Value → Run σ Value

namespace Scope

variable {σ : Type}

def circle (stack : List Keys) (keys : Keys) : Error :=
  .circularReference (Path.dotted keys) ((stack ++ [keys]).map Path.dotted)

mutual

/-- The resolved node at some keys. It counts as in progress while it is built, and is remembered
when that succeeds. Nothing, if there is no end to it. -/
def visit (s : Scope) (settle : Settling σ) (keys : Keys) (p : Progress σ) :
    Option (Except Error Value × Progress σ) :=
  if keys ∈ p.stack then some (.error (circle p.stack keys), p)
  else
    match Assoc.find? keys p.memo with
    | some v => some (.ok v, p)
    | none => do
      match ← s |>.build settle keys (p.push keys) with
      | (.ok v, q) => some (.ok v, q.pop.remember keys v)
      | (.error e, q) => some (.error e, q.pop)
partial_fixpoint

def build (s : Scope) (settle : Settling σ) (keys : Keys) (p : Progress σ) :
    Option (Except Error Value × Progress σ) :=
  match s.document.root.getIn keys with
  | .error e => some (.error e, p)
  | .ok v => do
    match ← s |>.gather settle keys (s.needs keys v) p with
    | (.ok parts, q) => some (.ok (assemble parts v), q)
    | (.error e, q) => some (.error e, q)
partial_fixpoint

def gather (s : Scope) (settle : Settling σ) (owner : Keys) (needs : List Need) (p : Progress σ) :
    Option (Except Error (List Value) × Progress σ) :=
  match needs with
  | [] => some (.ok [], p)
  | n :: needs => do
    match ← s |>.visit settle n.keys p with
    | (.error e, q) => some (.error e, q)
    | (.ok v, q) =>
      match Run.exec (settle owner n v) q.world with
      | (.error e, world) => some (.error e, { q with world })
      | (.ok w, world) =>
        match ← s |>.gather settle owner needs { q with world } with
        | (.ok ws, q) => some (.ok (w :: ws), q)
        | (.error e, q) => some (.error e, q)
partial_fixpoint

end

mutual

/-- How the node at some keys comes to its result: the finished runs of `visit`. -/
inductive Visits (s : Scope) (settle : Settling σ) :
    Keys → Progress σ → Except Error Value → Progress σ → Prop
  | circle {keys : Keys} {p : Progress σ} (h : keys ∈ p.stack) :
      Visits s settle keys p (.error (circle p.stack keys)) p
  | done {keys : Keys} {p : Progress σ} {v : Value} (h : keys ∉ p.stack)
      (hm : Assoc.find? keys p.memo = some v) : Visits s settle keys p (.ok v) p
  | missing {keys : Keys} {p : Progress σ} {e : Error} (h : keys ∉ p.stack)
      (hm : Assoc.find? keys p.memo = none) (he : s.document.root.getIn keys = .error e) :
      Visits s settle keys p (.error e) p
  | failed {keys : Keys} {p q : Progress σ} {v : Value} {e : Error} (h : keys ∉ p.stack)
      (hm : Assoc.find? keys p.memo = none) (hv : s.document.root.getIn keys = .ok v)
      (hg : Gathers s settle keys (s.needs keys v) (p.push keys) (.error e) q) :
      Visits s settle keys p (.error e) q.pop
  | built {keys : Keys} {p q : Progress σ} {v : Value} {parts : List Value} (h : keys ∉ p.stack)
      (hm : Assoc.find? keys p.memo = none) (hv : s.document.root.getIn keys = .ok v)
      (hg : Gathers s settle keys (s.needs keys v) (p.push keys) (.ok parts) q) :
      Visits s settle keys p (.ok (assemble parts v)) (q.pop.remember keys (assemble parts v))

/-- How needs of the node at `owner` come to their results: the finished runs of `gather`. -/
inductive Gathers (s : Scope) (settle : Settling σ) :
    Keys → List Need → Progress σ → Except Error (List Value) → Progress σ → Prop
  | nil {owner : Keys} {p : Progress σ} : Gathers s settle owner [] p (.ok []) p
  | unresolved {owner : Keys} {n : Need} {needs : List Need} {p q : Progress σ} {e : Error}
      (hn : Visits s settle n.keys p (.error e) q) :
      Gathers s settle owner (n :: needs) p (.error e) q
  | unsettled {owner : Keys} {n : Need} {needs : List Need} {p q : Progress σ} {v : Value}
      {e : Error} {world : σ} (hn : Visits s settle n.keys p (.ok v) q)
      (hs : Run.exec (settle owner n v) q.world = (.error e, world)) :
      Gathers s settle owner (n :: needs) p (.error e) { q with world }
  | stopped {owner : Keys} {n : Need} {needs : List Need} {p q q' : Progress σ} {v w : Value}
      {world : σ} {e : Error} (hn : Visits s settle n.keys p (.ok v) q)
      (hs : Run.exec (settle owner n v) q.world = (.ok w, world))
      (hg : Gathers s settle owner needs { q with world } (.error e) q') :
      Gathers s settle owner (n :: needs) p (.error e) q'
  | cons {owner : Keys} {n : Need} {needs : List Need} {p q q' : Progress σ} {v w : Value}
      {world : σ} {parts : List Value} (hn : Visits s settle n.keys p (.ok v) q)
      (hs : Run.exec (settle owner n v) q.world = (.ok w, world))
      (hg : Gathers s settle owner needs { q with world } (.ok parts) q') :
      Gathers s settle owner (n :: needs) p (.ok (w :: parts)) q'

end

variable {s : Scope} {settle : Settling σ}

/-- Runs that finish are derived by the rules. -/
theorem visits_and_gathers_of_finished (s : Scope) (settle : Settling σ) :
    (∀ keys p o, s.visit settle keys p = some o → Visits s settle keys p o.1 o.2) ∧
      ∀ owner needs p o, s.gather settle owner needs p = some o →
        Gathers s settle owner needs p o.1 o.2 := by
  -- What `build` does is part of the visit that has pushed the keys.
  have h := visit.mutual_partial_correctness s settle
    (fun keys p o => Visits s settle keys p o.1 o.2)
    (fun keys p o => ∀ p₀ : Progress σ, p = p₀.push keys → keys ∉ p₀.stack →
      Assoc.find? keys p₀.memo = none → match o with
        | (.ok v, q) => Visits s settle keys p₀ (.ok v) (q.pop.remember keys v)
        | (.error e, q) => Visits s settle keys p₀ (.error e) q.pop)
    (fun owner needs p o => Gathers s settle owner needs p o.1 o.2) ?visit ?build ?gather
  · exact ⟨h.1, h.2.2⟩
  case visit =>
    intro build ih keys p o h
    split at h
    · cases h; exact .circle ‹_›
    split at h
    · cases h; exact .done ‹_› ‹_›
    obtain ⟨x, hb, h⟩ := Option.bind_eq_some_iff.mp h
    have hv := ih _ _ _ hb p rfl ‹_› ‹_›
    split at h <;> cases h <;> exact hv
  case build =>
    rintro gather ih keys p o h p₀ rfl hs hm
    split at h
    · cases h
      simp only [Progress.pop_push]
      exact .missing hs hm ‹_›
    obtain ⟨x, hb, h⟩ := Option.bind_eq_some_iff.mp h
    have hg := ih _ _ _ _ hb
    split at h <;> cases h
    · exact .built hs hm ‹_› hg
    · exact .failed hs hm ‹_› hg
  case gather =>
    intro visit gather ihv ihg owner needs p o h
    split at h
    · cases h; exact .nil
    obtain ⟨x, hb, h⟩ := Option.bind_eq_some_iff.mp h
    have hv := ihv _ _ _ hb
    split at h
    · cases h; exact .unresolved hv
    split at h
    · cases h; exact .unsettled hv ‹_›
    obtain ⟨y, hb, h⟩ := Option.bind_eq_some_iff.mp h
    have hg := ihg _ _ _ _ hb
    split at h <;> cases h
    · exact .cons hv ‹_› hg
    · exact .stopped hv ‹_› hg

mutual

theorem visit_of_visits {keys : Keys} {p q : Progress σ} {r : Except Error Value}
    (h : Visits s settle keys p r q) : s.visit settle keys p = some (r, q) := by
  match h with
  | .circle h => rw [visit, if_pos h]
  | .done h hm => rw [visit, if_neg h, hm]
  | .missing h hm he => rw [visit, if_neg h, hm]; simp [build, he]
  | .failed h hm hv hg => rw [visit, if_neg h, hm]; simp [build, hv, gather_of_gathers hg]
  | .built h hm hv hg => rw [visit, if_neg h, hm]; simp [build, hv, gather_of_gathers hg]

theorem gather_of_gathers {owner : Keys} {needs : List Need} {p q : Progress σ}
    {r : Except Error (List Value)} (h : Gathers s settle owner needs p r q) :
    s.gather settle owner needs p = some (r, q) := by
  match h with
  | .nil => rw [gather]
  | .unresolved hn => rw [gather, visit_of_visits hn]; rfl
  | .unsettled hn hs => rw [gather, visit_of_visits hn]; simp [hs]
  | .stopped hn hs hg => rw [gather, visit_of_visits hn]; simp [hs, gather_of_gathers hg]
  | .cons hn hs hg => rw [gather, visit_of_visits hn]; simp [hs, gather_of_gathers hg]

end

theorem visit_eq_some_iff {keys : Keys} {p q : Progress σ} {r : Except Error Value} :
    s.visit settle keys p = some (r, q) ↔ Visits s settle keys p r q :=
  ⟨(visits_and_gathers_of_finished s settle).1 keys p (r, q), visit_of_visits⟩

/-- One call has one outcome. -/
theorem Visits.unique {keys : Keys} {p q q' : Progress σ} {r r' : Except Error Value}
    (h : Visits s settle keys p r q) (h' : Visits s settle keys p r' q') : r = r' ∧ q = q' :=
  Prod.mk.inj (Option.some.inj ((visit_of_visits h).symm.trans (visit_of_visits h')))

mutual

/-- The stack is left as it was found, whatever comes of the node. -/
theorem Visits.stack_eq {keys : Keys} {p q : Progress σ} {r : Except Error Value}
    (h : Visits s settle keys p r q) : q.stack = p.stack := by
  match h with
  | .circle _ | .done .. | .missing .. => rfl
  | .failed _ _ _ hg => simp [hg.stack_eq]
  | .built _ _ _ hg => simp [hg.stack_eq]

theorem Gathers.stack_eq {owner : Keys} {needs : List Need} {p q : Progress σ}
    {r : Except Error (List Value)} (h : Gathers s settle owner needs p r q) :
    q.stack = p.stack := by
  match h with
  | .nil => rfl
  | .unresolved hn => exact hn.stack_eq
  | .unsettled hn _ => exact hn.stack_eq
  | .stopped hn _ hg => exact hg.stack_eq.trans hn.stack_eq
  | .cons hn _ hg => exact hg.stack_eq.trans hn.stack_eq

end

end Scope
end Manifest
