import Manifest.Json.Reader
import Manifest.Json.Text
import Manifest.Query.Search

/-! The functions that every query can call. -/
namespace Manifest.Query

inductive Param
  | any
  | null
  | boolean
  | number
  | string
  | array
  | object
  | reference
  | arrayOf (item : Param)
  | oneOf (alternatives : List Param)

namespace Param

mutual

def accepts : Param → Datum → Bool
  | .any, _ => true
  | .null, .null => true
  | .boolean, .bool _ => true
  | .number, .int _ => true
  | .number, .float _ => true
  | .string, .string _ => true
  | .array, .array _ => true
  | .object, .object _ => true
  | .reference, .reference _ => true
  | .arrayOf item, .array items => items.all fun x => accepts item x
  | .oneOf alternatives, x => acceptsOne alternatives x
  | _, _ => false

def acceptsOne : List Param → Datum → Bool
  | [], _ => false
  | p :: ps, x => accepts p x || acceptsOne ps x

end

mutual

def name : Param → String
  | .any => "any"
  | .null => "null"
  | .boolean => "boolean"
  | .number => "number"
  | .string => "string"
  | .array => "array"
  | .object => "object"
  | .reference => "expref"
  | .arrayOf item => "array[" ++ name item ++ "]"
  | .oneOf alternatives => String.intercalate "|" (names alternatives)

def names : List Param → List String
  | [] => []
  | p :: ps => name p :: names ps

end

end Param

/-- The parameters of a function, and the type of further arguments if it takes any. -/
structure Arity where
  params : List Param
  further : Option Param := none

namespace Arity

/-- The first argument that its parameter does not accept, with its position from 0. -/
def mismatch? (further : Option Param) (position : Nat) :
    List Param → List Datum → Option (Nat × Param × Datum)
  | p :: ps, x :: xs =>
    if p.accepts x then mismatch? further (position + 1) ps xs else some (position, p, x)
  | [], x :: xs =>
    match further with
    | some p =>
      if p.accepts x then mismatch? further (position + 1) [] xs else some (position, p, x)
    | none => none
  | _, [] => none

/-- Checks the arguments of a call at an offset: their number first, then each of them. -/
def check (a : Arity) (offset : Nat) (args : List Datum) : Except Failure Unit :=
  let expected := a.params.length
  let found := args.length
  if found < expected then .error (.tooFew offset expected found)
  else if expected < found ∧ a.further.isNone then .error (.tooMany offset expected found)
  else
    match mismatch? a.further 0 a.params args with
    | some (position, p, x) => .error (.wrongType offset position p.name (Datum.typeName x))
    | none => .ok ()

end Arity

structure Standard (σ : Type) where
  arity : Arity
  body : List Datum → Search σ Datum

namespace Standard

variable {σ α : Type}

def call (f : Standard σ) (offset : Nat) (args : List Datum) : Search σ Datum :=
  match f.arity.check offset args with
  | .error failure => throw failure
  | .ok () => f.body args

def floats (items : List Datum) : List Float := items.filterMap Datum.float?

def sum (items : List Datum) : Float := (floats items).foldl (· + ·) 0

def mean (items : List Datum) : Float := sum items / (floats items).length.toFloat

def finite (wanted : String) (x : Float) : Search σ Datum :=
  if Decimal.isFinite x then pure (.float x)
  else throw (.parse s!"Expected to be a valid {wanted}")

def holds (part : List Char) : List Char → Bool
  | [] => part.isEmpty
  | c :: s => part.isPrefixOf (c :: s) || holds part s

/-- The best item by a key: one gives way to a later one whose key compares to its own as wanted. -/
def choose (wanted : Ordering → Bool) (key : α → Datum) : α → List α → α
  | best, [] => best
  | best, x :: xs =>
    choose wanted key (if wanted (Datum.order (key x) (key best)) then x else best) xs

def extreme (wanted : Ordering → Bool) (items : List Datum) : Datum :=
  match items with
  | [] => .null
  | x :: xs => choose wanted id x xs

/-- The keys of further items, which must be of one type; `n` counts the invocations. -/
def keysAfter (apply : Datum → Search σ Datum) (type : String) :
    Nat → List Datum → Search σ (List (Datum × Datum))
  | _, [] => pure []
  | n, x :: xs => do
    let key ← apply x
    if Datum.typeName key = type then
      let rest ← keysAfter apply type (n + 1) xs
      return (key, x) :: rest
    else throw (.wrongKey ("expression->" ++ type) n (Datum.typeName key))

/-- Items behind their keys, which are all numbers or all strings. -/
def keyed (apply : Datum → Search σ Datum) (wanted : String) :
    List Datum → Search σ (List (Datum × Datum))
  | [] => pure []
  | x :: xs => do
    let key ← apply x
    match key with
    | .int _ | .float _ | .string _ =>
      let rest ← keysAfter apply (Datum.typeName key) 1 xs
      return (key, x) :: rest
    | _ => throw (.wrongKey wanted 1 (Datum.typeName key))

def extremeBy (apply : Datum → Search σ Datum) (wanted : Ordering → Bool) (items : List Datum) :
    Search σ Datum := do
  let pairs ← keyed apply "expression->number|expression->string" items
  match pairs with
  | [] => return .null
  | p :: ps => return (choose wanted Prod.fst p ps).2

/-- Items in ascending order of their keys; equal ones keep their order. -/
def ascending (key : α → Datum) (items : List α) : List α :=
  items.mergeSort fun x y => (Datum.order (key x) (key y)).isLE

def sortBy (apply : Datum → Search σ Datum) (items : List Datum) : Search σ Datum := do
  let pairs ← keyed apply "expression->string|expression->number" items
  return .array ((ascending Prod.fst pairs).map Prod.snd)

def contains (whole part : Datum) : Datum :=
  match whole, part with
  | .array items, x => .bool (items.any fun y => Datum.same y x)
  | .string s, .string t => .bool (holds t.toList s.toList)
  | _, _ => .bool false

def length : Datum → Datum
  | .string s => .int s.length
  | .array items => .int items.length
  | .object members => .int members.length
  | _ => .null

def reverse : Datum → Datum
  | .string s => .string (String.ofList s.toList.reverse)
  | .array items => .array items.reverse
  | x => x

/-- A number as it is; the value that a text denotes as JSON; null for all else. -/
def toNumber : Datum → Datum
  | .int n => .int n
  | .float x => .float x
  | .string s => (Json.ofText? s).getD .null
  | _ => .null

def toText : Datum → Datum
  | .string s => .string s
  | x => .string x.compact

def toArray : Datum → Datum
  | .array items => .array items
  | x => .array [x]

def merge (objects : List Datum) : Datum :=
  .object (Assoc.sorted (objects.flatMap fun x => (Datum.object? x).getD []))

def arithmetic (f : Float → Float) : Standard σ where
  arity := ⟨[.number], none⟩
  body args := finite "f64" (f ((args.head?.bind Datum.float?).getD 0))

def statistic (wanted : String) (f : List Datum → Float) : Standard σ where
  arity := ⟨[.arrayOf .number], none⟩
  body args := finite wanted (f ((args.head?.bind Datum.array?).getD []))

def plain (p : Param) (f : Datum → Datum) : Standard σ where
  arity := ⟨[p], none⟩
  body args := pure (f (args.headD .null))

def ofTexts (f : List Char → List Char → Bool) : Standard σ where
  arity := ⟨[.string, .string], none⟩
  body
    | [.string s, .string t] => pure (.bool (f s.toList t.toList))
    | _ => pure .null

def ofSortable (f : List Datum → Datum) : Standard σ where
  arity := ⟨[.oneOf [.arrayOf .string, .arrayOf .number]], none⟩
  body args := pure (f ((args.head?.bind Datum.array?).getD []))

def ofKeyed (apply : Reference → Datum → Search σ Datum)
    (f : (Datum → Search σ Datum) → List Datum → Search σ Datum) : Standard σ where
  arity := ⟨[.array, .reference], none⟩
  body
    | [.array items, .reference r] => f (apply r) items
    | _ => pure .null

/-- All functions by name. `apply` takes a value through an expression that was passed as an
argument. -/
def functions (apply : Reference → Datum → Search σ Datum) : List (String × Standard σ) :=
  [ ("abs", arithmetic Float.abs),
    ("avg", statistic "f64" mean),
    ("ceil", arithmetic Float.ceil),
    ("contains",
      { arity := ⟨[.oneOf [.string, .array], .any], none⟩
        body := fun
          | [whole, part] => pure (contains whole part)
          | _ => pure .null }),
    ("ends_with", ofTexts fun s t => t.isSuffixOf s),
    ("floor", arithmetic Float.floor),
    ("join",
      { arity := ⟨[.string, .arrayOf .string], none⟩
        body := fun
          | [.string glue, .array items] =>
            pure (.string (String.intercalate glue (items.filterMap Datum.string?)))
          | _ => pure .null }),
    ("keys", plain .object fun x => .array (((Datum.object? x).getD []).map fun m => .string m.1)),
    ("length", plain (.oneOf [.array, .object, .string]) length),
    ("map",
      { arity := ⟨[.reference, .array], none⟩
        body := fun
          | [.reference r, .array items] => do
            let results ← Run.each (apply r) items
            return .array results
          | _ => pure .null }),
    ("max", ofSortable (extreme Ordering.isGE)),
    ("max_by", ofKeyed apply fun key => extremeBy key Ordering.isGT),
    ("merge", { arity := ⟨[.object], some .object⟩, body := fun args => pure (merge args) }),
    ("min", ofSortable (extreme Ordering.isLT)),
    ("min_by", ofKeyed apply fun key => extremeBy key Ordering.isLT),
    ("not_null",
      { arity := ⟨[.any], some .any⟩
        body := fun args => pure ((args.find? fun x => !Datum.isNull x).getD .null) }),
    ("reverse", plain (.oneOf [.array, .string]) reverse),
    ("sort", ofSortable fun items => .array (ascending id items)),
    ("sort_by", ofKeyed apply sortBy),
    ("starts_with", ofTexts fun s t => t.isPrefixOf s),
    ("sum", statistic "number" sum),
    ("to_array", plain .any toArray),
    ("to_number", plain .any toNumber),
    ("to_string",
      plain (.oneOf [.object, .array, .boolean, .number, .string, .null]) toText),
    ("type", plain .any fun x => .string (Datum.typeName x)),
    ("values", plain .object Datum.values) ]

end Standard
end Manifest.Query
