import Manifest.Error

/-! Computations that may fail and that change a state; the state outlives a failure. -/
namespace Manifest

/-- Computations on states in `σ` with failures in `ε`. -/
abbrev RunWith (ε σ : Type) := ExceptT ε (StateM σ)

abbrev Run := RunWith Error

namespace Run

variable {ε δ σ τ α β : Type}

/-- What a computation answers in a state, and the state it leaves. -/
def exec (x : RunWith ε σ α) (s : σ) : Except ε α × σ := x s

@[simp] theorem exec_pure (a : α) (s : σ) : exec (pure a : RunWith ε σ α) s = (.ok a, s) := rfl
@[simp] theorem exec_throw (e : ε) (s : σ) :
    exec (throw e : RunWith ε σ α) s = (.error e, s) := rfl

theorem exec_bind (x : RunWith ε σ α) (f : α → RunWith ε σ β) (s : σ) :
    exec (x >>= f) s =
      match exec x s with
      | (.ok a, t) => exec (f a) t
      | (.error e, t) => (.error e, t) := by
  simp only [exec, bind, ExceptT.bind, ExceptT.mk, StateT.bind]
  cases h : x s with
  | mk r t => cases r <;> rfl

theorem exec_bind_of_ok {x : RunWith ε σ α} {a : α} {s t : σ} (h : exec x s = (.ok a, t))
    (f : α → RunWith ε σ β) : exec (x >>= f) s = exec (f a) t := by
  rw [exec_bind, h]

theorem exec_bind_of_error {x : RunWith ε σ α} {e : ε} {s t : σ} (h : exec x s = (.error e, t))
    (f : α → RunWith ε σ β) : exec (x >>= f) s = (.error e, t) := by
  rw [exec_bind, h]

theorem exec_bind_pure (x : RunWith ε σ α) (f : α → β) (s : σ) :
    exec (do return f (← x)) s = ((exec x s).1.map f, (exec x s).2) := by
  rw [exec_bind]
  cases exec x s with
  | mk r t => cases r <;> rfl

/-- A computation is what it does to every state. -/
theorem ext_exec {x y : RunWith ε σ α} (h : ∀ s, exec x s = exec y s) : x = y := funext h

def ofStep (f : σ → Except ε α × σ) : RunWith ε σ α := f

@[simp] theorem exec_ofStep (f : σ → Except ε α × σ) (s : σ) : exec (ofStep f) s = f s := rfl

def ofExcept (r : Except ε α) : RunWith ε σ α := ofStep fun s => (r, s)

@[simp] theorem exec_ofExcept (r : Except ε α) (s : σ) : exec (ofExcept r) s = (r, s) := rfl

def mapError (f : ε → δ) (x : RunWith ε σ α) : RunWith δ σ α :=
  ofStep fun s =>
    match exec x s with
    | (.ok a, t) => (.ok a, t)
    | (.error e, t) => (.error (f e), t)

theorem exec_mapError (f : ε → δ) (x : RunWith ε σ α) (s : σ) :
    exec (mapError f x) s = ((exec x s).1.mapError f, (exec x s).2) := by
  simp only [mapError, exec_ofStep]
  cases h : exec x s with
  | mk r t => cases r <;> rfl

def onPart (get : τ → σ) (set : σ → τ → τ) (x : RunWith ε σ α) : RunWith ε τ α :=
  ofStep fun t =>
    let (r, s) := exec x (get t)
    (r, set s t)

@[simp] theorem exec_onPart (get : τ → σ) (set : σ → τ → τ) (x : RunWith ε σ α) (t : τ) :
    exec (onPart get set x) t = ((exec x (get t)).1, set (exec x (get t)).2 t) := rfl

def each (f : α → RunWith ε σ β) : List α → RunWith ε σ (List β)
  | [] => pure []
  | x :: xs => do
    let y ← f x
    let ys ← each f xs
    return y :: ys

@[simp] theorem each_nil (f : α → RunWith ε σ β) : each f [] = pure [] := rfl

theorem each_cons (f : α → RunWith ε σ β) (x : α) (xs : List α) :
    each f (x :: xs) = (do let y ← f x; let ys ← each f xs; return y :: ys) := rfl

end Run
end Manifest
