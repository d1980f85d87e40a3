import Manifest.Query.Search

/-! The value of an expression on a value, function calls left to whoever asks. -/
namespace Manifest.Query

variable {σ : Type}

namespace Expr

mutual

/-- What an expression gives on a value. `call` answers for functions; it gets the offset, the name
and the arguments of a call. -/
def eval (call : Nat → String → List Datum → Search σ Datum) : Expr → Datum → Search σ Datum
  | .current, x => pure x
  | .field name, x => pure (Datum.field name x)
  | .literal value, _ => pure (Json.embed value)
  | .index position, x => pure (Datum.index position x)
  | .slice start stop step, x =>
    if step = 0 then throw .invalidSlice
    else
      match Datum.array? x with
      | some items => pure (.array (Datum.slice start stop step items))
      | none => pure .null
  | .pipe left right, x => do
    let y ← eval call left x
    eval call right y
  | .or left right, x => do
    let y ← eval call left x
    if Datum.isTrue y then pure y else eval call right x
  | .and left right, x => do
    let y ← eval call left x
    if Datum.isTrue y then eval call right x else pure y
  | .not operand, x => do
    let y ← eval call operand x
    return .bool (!Datum.isTrue y)
  | .compare relation left right, x => do
    let y ← eval call left x
    let z ← eval call right x
    return Datum.relate relation y z
  | .select condition body, x => do
    let y ← eval call condition x
    if Datum.isTrue y then eval call body x else pure .null
  | .values operand, x => do
    let y ← eval call operand x
    return Datum.values y
  | .flatten operand, x => do
    let y ← eval call operand x
    return Datum.flatten y
  | .project left right, x => do
    let y ← eval call left x
    match Datum.array? y with
    | none => pure .null
    | some items =>
      let results ← Run.each (fun item => eval call right item) items
      return .array (results.filter fun z => !Datum.isNull z)
  | .list items, x =>
    if Datum.isNull x then pure .null
    else do
      let ys ← evalItems call items x
      return .array ys
  | .hash pairs, x =>
    if Datum.isNull x then pure .null
    else do
      let members ← evalPairs call pairs x
      return .object (Assoc.sorted members)
  | .call offset name args, x => do
    let ys ← evalItems call args x
    call offset name ys
  | .reference offset body, _ => pure (.reference ⟨offset, body⟩)

def evalItems (call : Nat → String → List Datum → Search σ Datum) :
    List Expr → Datum → Search σ (List Datum)
  | [], _ => pure []
  | e :: es, x => do
    let y ← eval call e x
    let ys ← evalItems call es x
    return y :: ys

def evalPairs (call : Nat → String → List Datum → Search σ Datum) :
    List (String × Expr) → Datum → Search σ (List (String × Datum))
  | [], _ => pure []
  | (k, e) :: es, x => do
    let y ← eval call e x
    let ms ← evalPairs call es x
    return (k, y) :: ms

end

end Expr
end Manifest.Query
