import Manifest.Query
import Mathlib.Data.List.Forall2

/-! What relates the function calls of two kinds of searches relates the searches. Expressions and
the functions that every query has only put searches together, and fail in ways of their own. -/
namespace Manifest

theorem Assoc.find?_of_forall₂ {α β : Type} {r : String → α → β → Prop} {es : List (String × α)}
    {fs : List (String × β)} (h : List.Forall₂ (fun e f => e.1 = f.1 ∧ r e.1 e.2 f.2) es fs)
    (key : String) :
    (find? key es = none ∧ find? key fs = none) ∨
      ∃ a b, find? key es = some a ∧ find? key fs = some b ∧ r key a b := by
  induction h with
  | nil => exact .inl ⟨rfl, rfl⟩
  | @cons e f es fs h _ ih =>
    obtain ⟨k, a⟩ := e
    obtain ⟨l, b⟩ := f
    obtain ⟨rfl : k = l, h⟩ := h
    by_cases hk : k = key
    · subst hk
      exact .inr ⟨a, b, find?_cons_self .., find?_cons_self .., h⟩
    · rw [find?_cons_ne hk, find?_cons_ne hk]
      exact ih

namespace Query

variable {σ τ α β : Type}

/-- Failures that tell what is wrong. The others only hand on a message. -/
def Failure.Plain (f : Failure) : Prop := ∀ message, f ≠ .parse message

theorem Arity.plain_of_check {a : Arity} {offset : Nat} {args : List Datum} {f : Failure}
    (h : a.check offset args = .error f) : f.Plain := by
  intro message hf
  subst hf
  unfold check at h
  dsimp only at h
  split at h
  · cases h
  split at h
  · cases h
  split at h <;> cases h

/-- A function of one parameter is called with one argument, which the parameter accepts. -/
theorem Arity.exists_of_check {p : Param} {offset : Nat} {args : List Datum}
    (h : (⟨[p], none⟩ : Arity).check offset args = .ok ()) : ∃ x, args = [x] ∧ p.accepts x := by
  unfold check at h
  simp only [List.length_singleton, Option.isNone_none, and_true] at h
  split at h
  · cases h
  split at h
  · cases h
  obtain ⟨x, rfl⟩ := List.length_eq_one_iff.mp (by omega : args.length = 1)
  refine ⟨x, rfl, ?_⟩
  by_contra hx
  simp [mismatch?, hx] at h

theorem Arity.check_of_accepts {p : Param} {offset : Nat} {x : Datum} (h : p.accepts x) :
    (⟨[p], none⟩ : Arity).check offset [x] = .ok () := by
  simp [check, mismatch?, h]

namespace Standard

def arithmetic? (f : Float → Float) : List Datum → Option (String × Float)
  | [x] => (Datum.float? x).map fun x => ("f64", f x)
  | _ => none

def statistic? (wanted : String) (f : List Datum → Float) : List Datum → Option (String × Float)
  | [.array items] =>
    if (Param.arrayOf .number).accepts (.array items) then some (wanted, f items) else none
  | _ => none

def number? : String → List Datum → Option (String × Float)
  | "abs" => arithmetic? Float.abs
  | "avg" => statistic? "f64" mean
  | "ceil" => arithmetic? Float.ceil
  | "floor" => arithmetic? Float.floor
  | "sum" => statistic? "number" sum
  | _ => fun _ => none

theorem call_of_check {f : Standard σ} {offset : Nat} {args : List Datum}
    (h : f.arity.check offset args = .ok ()) : f.call offset args = f.body args := by
  rw [call, h]

theorem call_of_refused {f : Standard σ} {offset : Nat} {args : List Datum} {failure : Failure}
    (h : f.arity.check offset args = .error failure) : f.call offset args = throw failure := by
  rw [call, h]

end Standard

/-- A relation between searches on two kinds of states, kept by all that puts searches together. -/
structure Congruence (σ τ : Type) where
  Rel : ∀ {α : Type}, Search σ α → Search τ α → Prop
  rel_pure : ∀ {α : Type} (a : α), Rel (pure a) (pure a)
  rel_throw : ∀ {α : Type} {f : Failure}, f.Plain → Rel (throw f : Search σ α) (throw f)
  rel_bind : ∀ {α β : Type} {x : Search σ α} {y : Search τ α} {f : α → Search σ β}
    {g : α → Search τ β}, Rel x y → (∀ a, Rel (f a) (g a)) → Rel (x >>= f) (y >>= g)

namespace Congruence

open Standard (number? finite)

variable (C : Congruence σ τ)

theorem rel_ite {c : Prop} [Decidable c] {x x' : Search σ α} {y y' : Search τ α} (h : C.Rel x y)
    (h' : C.Rel x' y') : C.Rel (if c then x else x') (if c then y else y') := by
  split
  · exact h
  · exact h'

theorem rel_bind_pure {x : Search σ α} {y : Search τ α} (h : C.Rel x y) (f : α → β) :
    C.Rel (do return f (← x)) (do return f (← y)) := C.rel_bind h fun _ => C.rel_pure _

theorem rel_each {f : α → Search σ β} {g : α → Search τ β} (h : ∀ a, C.Rel (f a) (g a))
    (items : List α) : C.Rel (Run.each f items) (Run.each g items) := by
  induction items with
  | nil => exact C.rel_pure _
  | cons a items ih => exact C.rel_bind (h a) fun _ => C.rel_bind_pure ih _

section Expr

variable {call : Nat → String → List Datum → Search σ Datum}
  {call' : Nat → String → List Datum → Search τ Datum}

mutual

theorem rel_eval (h : ∀ offset name args, C.Rel (call offset name args) (call' offset name args))
    (e : Expr) (x : Datum) : C.Rel (e.eval call x) (e.eval call' x) := by
  match e with
  | .current | .field _ | .literal _ | .index _ | .reference .. => exact C.rel_pure _
  | .slice start stop step =>
    refine C.rel_ite (C.rel_throw nofun) ?_
    cases Datum.array? x <;> exact C.rel_pure _
  | .pipe left right => exact C.rel_bind (rel_eval h left x) fun y => rel_eval h right y
  | .or left right =>
    exact C.rel_bind (rel_eval h left x) fun y => C.rel_ite (C.rel_pure _) (rel_eval h right x)
  | .and left right =>
    exact C.rel_bind (rel_eval h left x) fun y => C.rel_ite (rel_eval h right x) (C.rel_pure _)
  | .not operand | .values operand | .flatten operand =>
      exact C.rel_bind_pure (rel_eval h operand x) _
  | .compare relation left right =>
    exact C.rel_bind (rel_eval h left x) fun y => C.rel_bind_pure (rel_eval h right x) _
  | .select condition body =>
    exact C.rel_bind (rel_eval h condition x) fun y => C.rel_ite (rel_eval h body x) (C.rel_pure _)
  | .project left right =>
    refine C.rel_bind (rel_eval h left x) fun y => ?_
    cases Datum.array? y with
    | none => exact C.rel_pure _
    | some items => exact C.rel_bind_pure (C.rel_each (fun item => rel_eval h right item) items) _
  | .list items => exact C.rel_ite (C.rel_pure _) (C.rel_bind_pure (rel_evalItems h items x) _)
  | .hash pairs => exact C.rel_ite (C.rel_pure _) (C.rel_bind_pure (rel_evalPairs h pairs x) _)
  | .call offset name args => exact C.rel_bind (rel_evalItems h args x) fun ys => h offset name ys

theorem rel_evalItems
    (h : ∀ offset name args, C.Rel (call offset name args) (call' offset name args))
    (es : List Expr) (x : Datum) :
    C.Rel (Expr.evalItems call es x) (Expr.evalItems call' es x) := by
  match es with
  | [] => exact C.rel_pure _
  | e :: es => exact C.rel_bind (rel_eval h e x) fun y => C.rel_bind_pure (rel_evalItems h es x) _

theorem rel_evalPairs
    (h : ∀ offset name args, C.Rel (call offset name args) (call' offset name args))
    (es : List (String × Expr)) (x : Datum) :
    C.Rel (Expr.evalPairs call es x) (Expr.evalPairs call' es x) := by
  match es with
  | [] => exact C.rel_pure _
  | (k, e) :: es => exact C.rel_bind (rel_eval h e x) fun y =>
      C.rel_bind_pure (rel_evalPairs h es x) _

end

end Expr

section Keys

variable {apply : Datum → Search σ Datum} {apply' : Datum → Search τ Datum}

theorem rel_keysAfter (h : ∀ x, C.Rel (apply x) (apply' x)) (type : String) (n : Nat)
    (items : List Datum) :
    C.Rel (Standard.keysAfter apply type n items) (Standard.keysAfter apply' type n items) := by
  induction items generalizing n with
  | nil => exact C.rel_pure _
  | cons x xs ih =>
    exact C.rel_bind (h x) fun key => C.rel_ite (C.rel_bind_pure (ih (n + 1)) _) (C.rel_throw nofun)

theorem rel_keyed (h : ∀ x, C.Rel (apply x) (apply' x)) (wanted : String) (items : List Datum) :
    C.Rel (Standard.keyed apply wanted items) (Standard.keyed apply' wanted items) := by
  cases items with
  | nil => exact C.rel_pure _
  | cons x xs =>
    refine C.rel_bind (h x) fun key => ?_
    have hrest := C.rel_keysAfter h (Datum.typeName key) 1 xs
    cases key with
    | int | float | string => exact C.rel_bind_pure hrest _
    | _ => exact C.rel_throw nofun

theorem rel_extremeBy (h : ∀ x, C.Rel (apply x) (apply' x)) (wanted : Ordering → Bool)
    (items : List Datum) :
    C.Rel (Standard.extremeBy apply wanted items) (Standard.extremeBy apply' wanted items) := by
  refine C.rel_bind (C.rel_keyed h _ items) fun pairs => ?_
  cases pairs <;> exact C.rel_pure _

theorem rel_sortBy (h : ∀ x, C.Rel (apply x) (apply' x)) (items : List Datum) :
    C.Rel (Standard.sortBy apply items) (Standard.sortBy apply' items) :=
  C.rel_bind_pure (C.rel_keyed h _ items) _

end Keys

/-- Two calls come to one number, or they are related. -/
def Answers (n : Option (String × Float)) (x : Search σ Datum) (y : Search τ Datum) : Prop :=
  match n with
  | some (wanted, number) => x = finite wanted number ∧ y = finite wanted number
  | none => C.Rel x y

theorem Answers.rel (hfinite : ∀ wanted x, C.Rel (finite wanted x) (finite wanted x))
    {n : Option (String × Float)} {x : Search σ Datum} {y : Search τ Datum} (h : C.Answers n x y) :
    C.Rel x y := by
  cases n with
  | none => exact h
  | some n =>
    obtain ⟨rfl, rfl⟩ := h
    exact hfinite ..

/-- Two functions of one name are called alike. -/
def Alike (name : String) (f : Standard σ) (g : Standard τ) : Prop :=
  ∀ offset args, C.Answers (number? name args) (f.call offset args) (g.call offset args)

variable {C} {name : String}

theorem alike_of_finite {p : Param} {wanted : String} {f : List Datum → Float}
    (hsome : ∀ x, p.accepts x → number? name [x] = some (wanted, f [x]))
    (hnone : ∀ args, (∀ x, args = [x] → ¬p.accepts x) → number? name args = none) :
    C.Alike name ⟨⟨[p], none⟩, fun args => finite wanted (f args)⟩
      ⟨⟨[p], none⟩, fun args => finite wanted (f args)⟩ := by
  intro offset args
  cases hcheck : Arity.check ⟨[p], none⟩ offset args with
  | ok =>
    rw [Standard.call_of_check hcheck, Standard.call_of_check hcheck]
    obtain ⟨x, rfl, hx⟩ := Arity.exists_of_check hcheck
    rw [hsome x hx]
    exact ⟨rfl, rfl⟩
  | error e =>
    have hname : number? name args = none := by
      refine hnone args fun x hargs hx => ?_
      rw [hargs, Arity.check_of_accepts hx] at hcheck
      cases hcheck
    rw [hname, Standard.call_of_refused hcheck, Standard.call_of_refused hcheck]
    exact C.rel_throw (Arity.plain_of_check hcheck)

theorem alike_arithmetic {f : Float → Float} (h : number? name = Standard.arithmetic? f) :
    C.Alike name (Standard.arithmetic f) (Standard.arithmetic f) := by
  refine alike_of_finite (fun x hx => ?_) fun args hargs => ?_
  · rw [h]
    cases x with
    | int | float => rfl
    | _ => simp [Param.accepts] at hx
  · rw [h]
    match args with
    | [] | _ :: _ :: _ => rfl
    | [x] =>
      cases x with
      | int | float => exact absurd rfl (hargs _ rfl)
      | _ => rfl

theorem alike_statistic {wanted : String} {f : List Datum → Float}
    (h : number? name = Standard.statistic? wanted f) :
    C.Alike name (Standard.statistic wanted f) (Standard.statistic wanted f) := by
  refine alike_of_finite (fun x hx => ?_) fun args hargs => ?_
  · rw [h]
    cases x with
    | array items => exact if_pos hx
    | _ => simp [Param.accepts] at hx
  · rw [h]
    match args with
    | [] => rfl
    | x :: _ :: _ => cases x <;> rfl
    | [x] =>
      cases x with
      | array items => exact if_neg (hargs _ rfl)
      | _ => rfl

theorem alike_of_body {f : Standard σ} {g : Standard τ} (h : number? name = fun _ => none)
    (harity : f.arity = g.arity) (hbody : ∀ args, C.Rel (f.body args) (g.body args)) :
    C.Alike name f g := by
  intro offset args
  rw [h]
  change C.Rel _ _
  cases hcheck : f.arity.check offset args with
  | ok =>
    rw [Standard.call_of_check hcheck, Standard.call_of_check (harity ▸ hcheck)]
    exact hbody args
  | error e =>
    rw [Standard.call_of_refused hcheck, Standard.call_of_refused (harity ▸ hcheck)]
    exact C.rel_throw (Arity.plain_of_check hcheck)

theorem alike_plain {p : Param} {f : Datum → Datum} (h : number? name = fun _ => none) :
    C.Alike name (Standard.plain p f) (Standard.plain p f) :=
  alike_of_body h rfl fun _ => C.rel_pure _

theorem alike_ofSortable {f : List Datum → Datum} (h : number? name = fun _ => none) :
    C.Alike name (Standard.ofSortable f) (Standard.ofSortable f) :=
  alike_of_body h rfl fun _ => C.rel_pure _

theorem alike_ofTexts {f : List Char → List Char → Bool} (h : number? name = fun _ => none) :
    C.Alike name (Standard.ofTexts f) (Standard.ofTexts f) := by
  refine alike_of_body h rfl fun args => ?_
  unfold Standard.ofTexts
  dsimp only
  split <;> exact C.rel_pure _

section Apply

variable {apply : Reference → Datum → Search σ Datum} {apply' : Reference → Datum → Search τ Datum}

theorem alike_ofKeyed {f : (Datum → Search σ Datum) → List Datum → Search σ Datum}
    {g : (Datum → Search τ Datum) → List Datum → Search τ Datum} (h : number? name = fun _ => none)
    (hfg : ∀ r items, C.Rel (f (apply r) items) (g (apply' r) items)) :
    C.Alike name (Standard.ofKeyed apply f) (Standard.ofKeyed apply' g) := by
  refine alike_of_body h rfl fun args => ?_
  unfold Standard.ofKeyed
  dsimp only
  split
  · exact hfg _ _
  · exact C.rel_pure _

/-- If what is done with expressions that are passed on is related, then all functions are called
alike. -/
theorem alike_functions (h : ∀ r x, C.Rel (apply r x) (apply' r x)) :
    List.Forall₂ (fun m m' => m.1 = m'.1 ∧ C.Alike m.1 m.2 m'.2) (Standard.functions apply)
      (Standard.functions apply') := by
  have hbest : ∀ {name}, number? name = (fun _ => none) → ∀ wanted, C.Alike name
      (Standard.ofKeyed apply fun key => Standard.extremeBy key wanted)
      (Standard.ofKeyed apply' fun key => Standard.extremeBy key wanted) := fun hname wanted =>
    alike_ofKeyed hname fun r items => C.rel_extremeBy (h r) wanted items
  simp only [Standard.functions, List.forall₂_cons, List.Forall₂.nil, true_and, and_true]
  refine ⟨alike_arithmetic rfl, alike_statistic rfl, alike_arithmetic rfl, ?contains,
    alike_ofTexts rfl,
    alike_arithmetic rfl, ?join, alike_plain rfl, alike_plain rfl, ?map, alike_ofSortable rfl,
    hbest rfl _, ?merge, alike_ofSortable rfl, hbest rfl _, ?notNull, alike_plain rfl,
    alike_ofSortable rfl, alike_ofKeyed rfl fun r items => C.rel_sortBy (h r) items,
    alike_ofTexts rfl,
    alike_statistic rfl, alike_plain rfl, alike_plain rfl, alike_plain rfl, alike_plain rfl,
    alike_plain rfl⟩
  case contains | join =>
    refine alike_of_body rfl rfl fun args => ?_
    dsimp only
    split <;> exact C.rel_pure _
  case map =>
    refine alike_of_body rfl rfl fun args => ?_
    dsimp only
    split
    · exact C.rel_bind_pure (C.rel_each (h _) _) _
    · exact C.rel_pure _
  case merge | notNull => exact alike_of_body rfl rfl fun _ => C.rel_pure _

variable {registry : Registry σ} {registry' : Registry τ}

theorem answers_call (hr : registry.contains name = false) (hr' : registry'.contains name = false)
    (h : ∀ r x, C.Rel (apply r x) (apply' r x)) (offset : Nat) (args : List Datum) :
    C.Answers (number? name args) (call registry apply offset name args)
      (call registry' apply' offset name args) := by
  rw [call, call, hr, hr', if_neg Bool.false_ne_true, if_neg Bool.false_ne_true]
  rcases Assoc.find?_of_forall₂ (r := C.Alike) (alike_functions h) name with
    ⟨hf, hg⟩ | ⟨f, g, hf, hg, hfg⟩
  · have hname : number? name args = none := by
      unfold number?
      split <;> first | rfl | cases hf
    rw [hf, hg, hname]
    exact C.rel_throw nofun
  · rw [hf, hg]
    exact hfg offset args

end Apply

end Congruence
end Query
end Manifest
