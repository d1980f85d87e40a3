import Manifest.Builtin
import Mathlib.Data.List.Nodup

/-! What a registry holds under a name, and what calls of the functions that are there from the
start answer. -/
namespace Manifest

namespace Assoc

variable {α : Type} {k l : String} {a : α}

@[simp] theorem find?_insert_self (k : String) (a : α) (es : List (String × α)) :
    find? k (insert k a es) = some a := by
  induction es with
  | nil => exact find?_cons_self k a []
  | cons e es ih =>
    rw [insert]
    split
    · exact find?_cons_self k a _
    split
    · exact find?_cons_self k a _
    · rename_i hne
      rw [find?, if_neg hne, ih]

theorem find?_insert_ne (h : l ≠ k) (a : α) (es : List (String × α)) :
    find? k (insert l a es) = find? k es := by
  induction es with
  | nil => exact find?_cons_ne h a []
  | cons e es ih =>
    rw [insert]
    split
    · exact find?_cons_ne h a _
    split
    · rename_i he
      rw [find?_cons_ne h, find?, if_neg (he ▸ h)]
    · rw [find?, ih, find?]

end Assoc

namespace Registry

variable {σ : Type} {name k : String} {f : Function σ} {fs : List (String × Function σ)}
  {r : Registry σ}

theorem get?_register (r : Registry σ) (name k : String) (f : Function σ) :
    (r.register name f).get? k = if name = k then some f else r.get? k := by
  split
  · rename_i h
    subst h
    exact Assoc.find?_insert_self ..
  · rename_i h
    exact Assoc.find?_insert_ne h ..

theorem get?_foldl_register_of_notMem (h : k ∉ fs.map Prod.fst) :
    (fs.foldl (fun r (name, f) => r.register name f) r).get? k = r.get? k := by
  induction fs generalizing r with
  | nil => rfl
  | cons e fs ih =>
    rw [List.map_cons, List.mem_cons, not_or] at h
    rw [List.foldl_cons, ih h.2, get?_register, if_neg (Ne.symm h.1)]

theorem get?_foldl_register (hnodup : (fs.map Prod.fst).Nodup) (h : (k, f) ∈ fs) :
    (fs.foldl (fun r (name, f) => r.register name f) r).get? k = some f := by
  induction fs generalizing r with
  | nil => cases h
  | cons e fs ih =>
    rw [List.map_cons, List.nodup_cons] at hnodup
    rcases List.mem_cons.mp h with rfl | h
    · rw [List.foldl_cons, get?_foldl_register_of_notMem hnodup.1, get?_register, if_pos rfl]
    · exact ih hnodup.2 h

theorem get?_builtin {f : Function Context}
    (h : (name, f) ∈ Builtin.versionFunctions ++ Builtin.timeFunctions ++
    Builtin.licenseFunctions ++
      Builtin.packageFunctions) : builtin.get? name = some f :=
  get?_foldl_register (by decide) h

def answer (r : Registry σ) (name : String) (args : List Value) (s : σ) : Except Error Value :=
  (Run.exec (r.call name args) s).1

theorem call_of_get? (h : r.get? name = some f) {args : List Value}
    (hcheck : f.signature.check name args = .ok ()) :
    r.call name args = f.body args := by
  rw [call, h]
  simp only [hcheck]

theorem answer_of_get? (h : r.get? name = some f) {args : List Value}
    (hcheck : f.signature.check name args = .ok ())
    (s : σ) : r.answer name args s = (Run.exec (f.body args) s).1 := by
  rw [answer, call_of_get? h hcheck]

theorem check_of_answer (h : r.get? name = some f) {args : List Value} {s : σ} {y : Value}
    (hok : r.answer name args s = .ok y) : f.signature.check name args = .ok () := by
  rw [answer, call, h] at hok
  cases hcheck : f.signature.check name args with
  | ok => rfl
  | error e =>
    simp only [hcheck] at hok
    cases hok

theorem answer_unary {type : ArgType} {g : Value → Except Error Value}
    (h : r.get? name = some (Builtin.unary type g))
    {x : Value} (hx : type.accepts x = true) (s : σ) : r.answer name [x] s = g x := by
  have hcheck : (⟨[type]⟩ : Signature).check name [x] = .ok () := by
    simp [Signature.check, Signature.mismatch?, hx]
  rw [answer_of_get? h hcheck]
  rfl

theorem accepts_of_answer {type : ArgType} {g : Value → Except Error Value}
    (h : r.get? name = some (Builtin.unary type g)) {x y : Value} {s : σ}
    (hok : r.answer name [x] s = .ok y) :
    type.accepts x = true := by
  have hcheck := check_of_answer h hok
  by_contra hx
  simp [Signature.check, Signature.mismatch?, Builtin.unary, hx] at hcheck

end Registry
end Manifest
