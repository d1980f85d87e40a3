import Manifest.Query.Expr
import Manifest.Value

/-! What queries can tell about values: their types, truth, equality and order; and the parts they
take out of them. -/
namespace Manifest.Query.Datum

def typeName : Datum → String
  | .null => "null"
  | .bool _ => "boolean"
  | .int _ => "number"
  | .float _ => "number"
  | .string _ => "string"
  | .array _ => "array"
  | .object _ => "object"
  | .reference _ => "expref"

def float? : Datum → Option Float
  | .int n => some (Value.nearestFloat n)
  | .float x => some x
  | _ => none

def string? : Datum → Option String
  | .string s => some s
  | _ => none

def array? : Datum → Option (List Datum)
  | .array items => some items
  | _ => none

def object? : Datum → Option (List (String × Datum))
  | .object members => some members
  | _ => none

def isNull : Datum → Bool
  | .null => true
  | _ => false

/-- Every number counts as true; null, false, references and all that is empty do not. -/
def isTrue : Datum → Bool
  | .bool b => b
  | .int _ => true
  | .float _ => true
  | .string s => s ≠ ""
  | .array items => !items.isEmpty
  | .object members => !members.isEmpty
  | .null => false
  | .reference _ => false

def isNormal (x : Float) : Bool :=
  let e := x.toBits >>> 52 &&& 0x7FF
  e ≠ 0 && e ≠ 0x7FF

/-- Equality of doubles up to a relative error below 2 ^ -52. -/
def near (x y : Float) : Bool :=
  let gap := (x - y).abs
  if x == y then true
  else if isNormal x && isNormal y then gap / (x.abs + y.abs) < Float.ofBits 0x3CB0000000000000
  else gap < Float.ofBits 1

mutual

/-- Equality of values of one type; numbers up to rounding. -/
def same : Datum → Datum → Bool
  | .null, .null => true
  | .bool a, .bool b => a == b
  | .string a, .string b => a == b
  | .array a, .array b => sameItems a b
  | .object a, .object b => sameMembers a b
  | .reference a, .reference b => a.offset == b.offset
  | .int m, .int n => near (Value.nearestFloat m) (Value.nearestFloat n)
  | .int m, .float y => near (Value.nearestFloat m) y
  | .float x, .int n => near x (Value.nearestFloat n)
  | .float x, .float y => near x y
  | _, _ => false

def sameItems : List Datum → List Datum → Bool
  | [], [] => true
  | x :: xs, y :: ys => same x y && sameItems xs ys
  | _, _ => false

def sameMembers : List (String × Datum) → List (String × Datum) → Bool
  | [], [] => true
  | (k, x) :: ms, (l, y) :: ns => k == l && same x y && sameMembers ms ns
  | _, _ => false

end

/-- The order by which values are sorted: of numbers, and of strings by code points; all else counts
as equal. -/
def order (x y : Datum) : Ordering :=
  match x, y with
  | .string a, .string b => compareOfLessAndEq a b
  | x, y =>
    match float? x, float? y with
    | some a, some b => if a < b then .lt else if b < a then .gt else .eq
    | _, _ => .eq

/-- What a comparison gives. Only numbers have an order. -/
def relate (r : Relation) (x y : Datum) : Datum :=
  let ordered (holds : Ordering → Bool) : Datum :=
    match float? x, float? y with
    | some _, some _ => .bool (holds (order x y))
    | _, _ => .null
  match r with
  | .eq => .bool (same x y)
  | .ne => .bool (!same x y)
  | .lt => ordered Ordering.isLT
  | .le => ordered Ordering.isLE
  | .gt => ordered Ordering.isGT
  | .ge => ordered Ordering.isGE

def field (name : String) (x : Datum) : Datum :=
  ((object? x).bind (Assoc.find? name)).getD .null

/-- The item at a position, counted from the end when negative; null where there is none. -/
def index (position : Int) (x : Datum) : Datum :=
  match array? x with
  | none => .null
  | some items =>
    let i := if position < 0 then position + items.length else position
    if i < 0 then .null else (items[i.toNat]?).getD .null

def values (x : Datum) : Datum :=
  match object? x with
  | some members => .array (members.map Prod.snd)
  | none => .null

def flatten (x : Datum) : Datum :=
  match array? x with
  | some items => .array (items.flatMap fun y => (array? y).getD [y])
  | none => .null

/-- An end of a slice of `n` items, put back between the items. -/
def bound (n endpoint step : Int) : Int :=
  if endpoint < 0 then
    if 0 ≤ endpoint + n then endpoint + n else if step < 0 then -1 else 0
  else if endpoint < n then endpoint
  else if step < 0 then n - 1
  else n

/-- Positions from `i` on, `step` apart, short of `stop`; at most `count` of them. -/
def positions (stop step : Int) : Nat → Int → List Nat
  | 0, _ => []
  | count + 1, i =>
    if (0 < step ∧ i < stop) ∨ (step < 0 ∧ stop < i) then
      i.toNat :: positions stop step count (i + step)
    else []

/-- Every `step`-th item from `start` on, short of `stop`; backwards when the step is negative. The
positions that it goes through are not bounded. -/
def slice (start stop : Option Int) (step : Int) (items : List Datum) : List Datum :=
  let n : Int := items.length
  let first := match start with
    | some i => bound n i step
    | none => if step < 0 then n - 1 else 0
  let last := match stop with
    | some i => bound n i step
    | none => if step < 0 then -1 else n
  (positions last step items.length first).filterMap (items[·]?)

end Manifest.Query.Datum
