import Manifest.Resolver.Territory
import Manifest.Resolver.Visit

/-! Resolving placeholders: visits come to an end, and a resolver answers one path after another. -/
namespace Manifest

namespace Scope

variable {σ : Type}

/-- There is an end to a visit because the stack holds different keys of a finite territory. -/
theorem exists_visits {s : Scope} {start keys : Keys} (settle : Settling σ)
    (hk : keys ∈ s.territory start) (p : Progress σ) : ∃ r q, Visits s settle keys p r q := by
  induction hu : s.unused start p.stack using Nat.strongRecOn generalizing keys p with
  | _ u ih =>
    by_cases h : keys ∈ p.stack
    · exact ⟨_, _, .circle h⟩
    cases hm : Assoc.find? keys p.memo with
    | some v => exact ⟨_, _, .done h hm⟩
    | none =>
      cases hv : s.document.root.getIn keys with
      | error e => exact ⟨_, _, .missing h hm hv⟩
      | ok v =>
        have hlt := unused_concat_lt hk h
        have hg : ∀ needs ⊆ s.needs keys v, ∀ q : Progress σ, q.stack = p.stack ++ [keys] →
            ∃ r q', Gathers s settle keys needs q r q' := by
          intro needs
          induction needs with
          | nil => exact fun _ q _ => ⟨_, _, .nil⟩
          | cons n needs ihn =>
            intro hsub q hq
            have hmem := need_mem_territory hk hv (hsub (List.mem_cons_self ..))
            obtain ⟨r, q₁, hn⟩ := ih _ (by rw [← hu, hq]; exact hlt) hmem q rfl
            cases r with
            | error e => exact ⟨_, _, .unresolved hn⟩
            | ok w =>
              cases hs : Run.exec (settle keys n w) q₁.world with
              | mk r world =>
                cases r with
                | error e => exact ⟨_, _, .unsettled hn hs⟩
                | ok u =>
                  obtain ⟨r, q₂, hg⟩ := ihn (fun _ hx => hsub (List.mem_cons_of_mem _ hx))
                    { q₁ with world } (hn.stack_eq.trans hq)
                  cases r with
                  | error e => exact ⟨_, _, .stopped hn hs hg⟩
                  | ok us => exact ⟨_, _, .cons hn hs hg⟩
        obtain ⟨r, q, hg⟩ := hg _ (List.Subset.refl _) (p.push keys) rfl
        cases r with
        | error e => exact ⟨_, _, .failed h hm hv hg⟩
        | ok parts => exact ⟨_, _, .built h hm hv hg⟩

theorem isSome_visit (s : Scope) (settle : Settling σ) (keys : Keys) (p : Progress σ) :
    (s.visit settle keys p).isSome := by
  obtain ⟨r, q, h⟩ := exists_visits settle (s.start_mem_territory keys) p
  rw [visit_of_visits h]; rfl

def node (s : Scope) (settle : Settling σ) (keys : Keys) : Run (Progress σ) Value :=
  Run.ofStep fun p => (s.visit settle keys p).get (s.isSome_visit settle keys p)

theorem exec_node_eq_iff {s : Scope} {settle : Settling σ} {keys : Keys} {p q : Progress σ}
    {r : Except Error Value} :
    Run.exec (s.node settle keys) p = (r, q) ↔ Visits s settle keys p r q := by
  rw [← visit_eq_some_iff, Option.eq_some_iff_get_eq]
  exact ⟨fun h => ⟨_, h⟩, fun ⟨_, h⟩ => h⟩

end Scope

/-- Resolution in a document, with a way to answer queries. -/
structure Resolver (σ : Type) extends Scope where
  evaluate : Value → String → Run σ Value

namespace Resolver

variable {σ : Type}

/-- A resolved target as the text at `owner` asks for it. An error of its query is located at the
owner unless it has a path already. -/
def settle (r : Resolver σ) (owner : Keys) (need : Need) (v : Value) : Run σ Value :=
  match need.query with
  | none => pure v
  | some q => Run.mapError (Error.orAt · (Path.dotted owner)) (r.evaluate v q)

def resolve (r : Resolver σ) (path : String) : Run (Progress σ) Value :=
  r.node r.settle (r.keys path)

/-- The resolved node at a path for a resolver that has done nothing yet. -/
def resolveOnce (r : Resolver σ) (path : String) : Run σ Value :=
  Run.onPart (fun world => { world }) (fun p _ => p.world) (r.resolve path)

end Resolver
end Manifest
