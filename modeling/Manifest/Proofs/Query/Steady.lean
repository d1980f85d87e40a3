import Manifest.Proofs.Query.Congruence

/-! Queries that call only functions whose results depend on nothing but their arguments have
results that depend on nothing but value and query: the state is handed on, and never looked at. -/
namespace Manifest

variable {ε σ α β : Type}

namespace Run

def Steady (x : RunWith ε σ α) : Prop := ∀ s t, (exec x s).1 = (exec x t).1

theorem steady_throw (e : ε) : Steady (throw e : RunWith ε σ α) := fun _ _ => rfl

theorem Steady.ite {c : Prop} [Decidable c] {x y : RunWith ε σ α} (hx : Steady x) (hy : Steady y) :
    Steady (if c then x else y) := by
  split
  · exact hx
  · exact hy

end Run

/-- What the functions of a registry answer depends on nothing but their arguments. -/
def Registry.Steady (r : Registry σ) : Prop :=
  ∀ name f, r.get? name = some f → ∀ args, Run.Steady (f.body args)

theorem Registry.Steady.call {r : Registry σ} (h : r.Steady) (name : String) (args : List Value) :
    Run.Steady (r.call name args) := by
  unfold Registry.call
  split
  · exact Run.steady_throw _
  · rename_i f hf
    split
    · exact Run.steady_throw _
    · exact h name f hf args

namespace Query

/-- What a search answers and what it leaves in the slot depend on the state no further than on the
slot. -/
def Search.Steady (x : Search σ α) : Prop :=
  ∀ s t : Slotted σ, s.slot = t.slot →
    (Run.exec x s).1 = (Run.exec x t).1 ∧ (Run.exec x s).2.slot = (Run.exec x t).2.slot

namespace Search.Steady

theorem bind {x : Search σ α} {f : α → Search σ β} (hx : Search.Steady x)
    (hf : ∀ a, Search.Steady (f a)) : Search.Steady (x >>= f) := by
  intro s t hslot
  have h := hx s t hslot
  rw [Run.exec_bind, Run.exec_bind]
  rcases hs : Run.exec x s with ⟨r, s'⟩
  rcases ht : Run.exec x t with ⟨r', t'⟩
  rw [hs, ht] at h
  obtain ⟨rfl : r = r', hslot'⟩ := h
  cases r with
  | ok a => exact hf a s' t' hslot'
  | error e => exact ⟨rfl, hslot'⟩

theorem ofRun {x : Run σ α} (hx : Run.Steady x) : Search.Steady (Search.ofRun x) := by
  intro s t hslot
  have h := hx s.world t.world
  rw [Search.exec_ofRun, Search.exec_ofRun]
  rcases hs : Run.exec x s.world with ⟨r, world⟩
  rcases ht : Run.exec x t.world with ⟨r', world'⟩
  obtain rfl : r = r' := by rwa [hs, ht] at h
  cases r with
  | ok a => exact ⟨rfl, hslot⟩
  | error e => exact ⟨rfl, rfl⟩

theorem toRun {x : Search σ α} (hx : Search.Steady x) (query : String) :
    Run.Steady (Search.toRun query x) := by
  intro s t
  have h := hx { world := s } { world := t } rfl
  rw [Search.exec_toRun, Search.exec_toRun]
  rcases hs : Run.exec x { world := s } with ⟨r, s'⟩
  rcases ht : Run.exec x { world := t } with ⟨r', t'⟩
  rw [hs, ht] at h
  obtain ⟨rfl : r = r', hslot : s'.slot = t'.slot⟩ := h
  cases r with
  | ok a => rfl
  | error failure => simp only [hslot]

end Search.Steady

def steady (σ : Type) : Congruence σ σ where
  Rel x _ := Search.Steady x
  rel_pure _ _ _ hslot := ⟨rfl, hslot⟩
  rel_throw _ _ _ hslot := ⟨rfl, hslot⟩
  rel_bind hx hf := hx.bind hf

variable {registry : Registry σ}

theorem steady_finite (wanted : String) (x : Float) :
    (steady σ).Rel (Standard.finite wanted x) (Standard.finite wanted x) := by
  unfold Standard.finite
  split <;> exact fun _ _ hslot => ⟨rfl, hslot⟩

theorem steady_call (hr : registry.Steady) {apply : Reference → Datum → Search σ Datum}
    (h : ∀ r x, (steady σ).Rel (apply r x) (apply r x)) (offset : Nat) (name : String)
    (args : List Datum) :
    (steady σ).Rel (call registry apply offset name args)
      (call registry apply offset name args) := by
  cases hname : registry.contains name with
  | true =>
    rw [call, hname, if_pos rfl]
    exact (steady σ).rel_bind_pure (Search.Steady.ofRun (hr.call name _)) _
  | false => exact (Congruence.answers_call hname hname h offset args).rel _ steady_finite

theorem steady_apply (hr : registry.Steady) (depth : Nat) (r : Reference) (x : Datum) :
    (steady σ).Rel (apply registry depth r x) (apply registry depth r x) := by
  induction depth generalizing r x with
  | zero => exact (steady σ).rel_throw nofun
  | succ depth ih => exact (steady σ).rel_eval (steady_call hr ih) r.body x

/-- What a query gives on a value depends on the state only as far as the registered functions
do. -/
theorem steady_evaluate (hr : registry.Steady) (v : Value) (query : String) :
    Run.Steady (evaluate registry v query) := by
  refine .ite (Run.steady_throw _) ?_
  cases Expr.ofText? query with
  | none => exact Run.steady_throw _
  | some e =>
    have heval := (steady σ).rel_eval (steady_call hr (steady_apply hr depthLimit)) e v.toSortedJson
    exact Search.Steady.toRun ((steady σ).rel_bind_pure heval Value.ofJson) query

end Query
end Manifest
