import Manifest.Decimal.Shortest

/-! Decimal text of doubles, written and read. -/
namespace Manifest.Decimal

def digits (n : Nat) : List Char := Nat.toDigits 10 n

def strip (fuel : Nat) (d : Nat) (e : Int) : Nat × Int :=
  match fuel with
  | 0 => (d, e)
  | fuel + 1 => if d ≠ 0 ∧ d % 10 = 0 then strip fuel (d / 10) (e + 1) else (d, e)

/-- The decimal `d * 10 ^ e` written out: positional while the leading digit has an exponent from -5
to 15, with at least one digit after the point, else with a signed exponent. -/
def layout (d : Nat) (e : Int) : List Char :=
  let ds := digits d
  let lead := e + ds.length - 1
  if 0 ≤ e ∧ lead ≤ 15 then ds ++ List.replicate e.toNat '0' ++ ['.', '0']
  else if 0 ≤ lead ∧ lead ≤ 15 then
    ds.take (lead.toNat + 1) ++ '.' :: ds.drop (lead.toNat + 1)
  else if -5 ≤ lead ∧ lead < 0 then '0' :: '.' :: List.replicate (-lead - 1).toNat '0' ++ ds
  else
    let mantissa := match ds with
      | [] => []
      | [c] => [c]
      | c :: cs => c :: '.' :: cs
    let exponent := if lead < 0 then '-' :: digits (-lead).toNat else '+' :: digits lead.toNat
    mantissa ++ 'e' :: exponent

def ofFinite (x : Float) : List Char :=
  let bits := x.toBits
  let sign := if 0x8000000000000000 ≤ bits.toNat then ['-'] else []
  if bits.toNat % 0x8000000000000000 = 0 then sign ++ ['0', '.', '0']
  else
    let (d, e) := (Binary.ofBits bits).shortest
    let (d, e) := strip 400 d e
    sign ++ layout d e

def isFinite (x : Float) : Bool := x.toBits.toNat / 0x10000000000000 % 2048 ≠ 2047

def text (x : Float) : String :=
  if isFinite x then String.ofList (ofFinite x)
  else if x.toBits.toNat % 0x10000000000000 ≠ 0 then "nan"
  else if 0x8000000000000000 ≤ x.toBits.toNat then "-inf"
  else "inf"

/-- The double nearest to `d * 10 ^ e`. Far outside the range of doubles the answer is settled
without computing the power. -/
def nearest (d : Nat) (e : Int) : Float :=
  if d = 0 then 0
  else
    let lead := e + (digits d).length
    if 400 < lead then Float.ofBits 0x7FF0000000000000
    else if lead < -400 then 0
    else Float.ofScientific d (e < 0) e.natAbs

def value (ds : List Char) : Nat := ds.foldl (fun n c => n * 10 + (c.toNat - 48)) 0

def spanDigits (cs : List Char) : List Char × List Char :=
  (cs.takeWhile Char.isDigit, cs.dropWhile Char.isDigit)

/-- A decimal as written: sign, digits before and after the point, and the exponent. -/
structure Literal where
  negative : Bool
  whole : List Char
  fraction : List Char
  exponent : Int
  deriving DecidableEq, Repr

def Literal.toFloat (x : Literal) : Float :=
  let size := nearest (value (x.whole ++ x.fraction)) (x.exponent - x.fraction.length)
  if x.negative then -size else size

end Manifest.Decimal
