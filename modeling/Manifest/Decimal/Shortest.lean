/-! The shortest decimal of a binary number: among the decimals that lie between the midpoints to
the neighbouring binary numbers, one with the fewest digits, and of those the nearest. -/
namespace Manifest.Decimal

structure Ratio where
  num : Nat
  den : Nat
  deriving DecidableEq, Repr

def Ratio.scaled (m b : Nat) (e : Int) : Ratio :=
  if 0 ≤ e then ⟨m * Nat.pow b e.toNat, 1⟩ else ⟨m, Nat.pow b (-e).toNat⟩

def Ratio.le (x y : Ratio) : Bool := x.num * y.den ≤ y.num * x.den
def Ratio.lt (x y : Ratio) : Bool := x.num * y.den < y.num * x.den

def Ratio.dist (x y : Ratio) : Ratio :=
  let a := x.num * y.den
  let b := y.num * x.den
  ⟨(a - b) + (b - a), x.den * y.den⟩

/-- A positive binary number `m * 2 ^ q` with the room around it: the numbers that round to it lie
between `(4 m - below) * 2 ^ q / 4` and `(4 m + 2) * 2 ^ q / 4`, ends included when `closed`. -/
structure Binary where
  m : Nat
  q : Int
  below : Nat
  closed : Bool
  deriving DecidableEq, Repr

namespace Binary

def value (x : Binary) : Ratio := .scaled x.m 2 x.q
def low (x : Binary) : Ratio := .scaled (4 * x.m - x.below) 2 (x.q - 2)
def high (x : Binary) : Ratio := .scaled (4 * x.m + 2) 2 (x.q - 2)

def admits (x : Binary) (d : Ratio) : Bool :=
  if x.closed then x.low.le d && d.le x.high else x.low.lt d && d.lt x.high

/-- The exponent of the leading decimal digit: the `k` with `10 ^ k ≤ x < 10 ^ (k + 1)`. The first
guess comes from the position of the leading bit and is at most one off. -/
def leading (x : Binary) : Int :=
  let guess := (Int.ofNat x.m.log2 + x.q) * 30103 / 100000
  if (Ratio.scaled 1 10 (guess + 1)).le x.value then guess + 1
  else if (Ratio.scaled 1 10 guess).le x.value then guess
  else guess - 1

/-- The two neighbours of `x` among the multiples of `10 ^ e`: the first is not above `x`, the
second is the next one. -/
def neighbours (x : Binary) (e : Int) : Nat × Nat :=
  let scaled : Ratio := if 0 ≤ e then ⟨x.value.num, x.value.den * Nat.pow 10 e.toNat⟩
    else ⟨x.value.num * Nat.pow 10 (-e).toNat, x.value.den⟩
  (scaled.num / scaled.den, scaled.num / scaled.den + 1)

/-- The multiple of `10 ^ e` that reads back as `x` and is nearest to it; the even one of two
equally near. -/
def pick (x : Binary) (e : Int) : Option Nat :=
  let (a, b) := x.neighbours e
  let da := Ratio.scaled a 10 e
  let db := Ratio.scaled b 10 e
  match x.admits da, x.admits db with
  | true, true =>
    let ra := Ratio.dist x.value da
    let rb := Ratio.dist x.value db
    if ra.lt rb then some a else if rb.lt ra then some b
    else if a % 2 = 0 then some a else some b
  | true, false => some a
  | false, true => some b
  | false, false => none

/-- Tries grids of ever more digits. Seventeen digits always suffice for a double. -/
def search (x : Binary) (top : Int) : List Nat → Nat × Int
  | [] => (0, 0)
  | n :: ns =>
    match x.pick (top - n) with
    | some d => (d, top - n)
    | none => search x top ns

/-- Digits `d` and exponent `e` of the shortest decimal `d * 10 ^ e`. -/
def shortest (x : Binary) : Nat × Int := x.search x.leading (List.range 18)

end Binary

def Binary.ofBits (bits : UInt64) : Binary :=
  let fraction : Nat := bits.toNat % 0x10000000000000
  let exponent : Nat := bits.toNat / 0x10000000000000 % 2048
  if exponent = 0 then ⟨fraction, -1074, 2, decide (fraction % 2 = 0)⟩
  else
    ⟨0x10000000000000 + fraction, Int.ofNat exponent - 1075,
      if fraction = 0 ∧ 1 < exponent then 1 else 2, decide (fraction % 2 = 0)⟩

end Manifest.Decimal
