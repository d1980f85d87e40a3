import Manifest.Text.Utf8

/-! Percent-encoding: an octet as two hexadecimal digits behind a percent sign. -/
namespace Manifest.Url

def digit? (base : Nat) (c : Char) : Option Nat :=
  let d :=
    if c.isDigit then c.toNat - 48
    else if 'a' ≤ c.toLower ∧ c.toLower ≤ 'f' then c.toLower.toNat - 87
    else 16
  if d < base then some d else none

def upperDigit (n : Nat) : Char := if n < 10 then Char.ofNat (48 + n) else Char.ofNat (55 + n)

def percent (b : UInt8) : List Char := ['%', upperDigit (b.toNat / 16), upperDigit (b.toNat % 16)]

def isControl (c : Char) : Bool := c.toNat < 0x20 || c.toNat == 0x7F

/-- Percent-encodes controls, everything beyond ASCII, and the reserved characters. -/
def encode (reserved : List Char) (cs : List Char) : List Char :=
  cs.flatMap fun c =>
    if isControl c || 0x80 ≤ c.toNat || reserved.contains c then
      (Text.Utf8.octets c).flatMap percent
    else [c]

/-- The octets that a text stands for. A percent sign without two hexadecimal digits behind it
stands for itself. -/
def decode : List Char → List UInt8
  | [] => []
  | '%' :: a :: b :: s =>
    match digit? 16 a, digit? 16 b with
    | some m, some n => .ofNat (m * 16 + n) :: decode s
    | _, _ => Text.Utf8.octets '%' ++ decode (a :: b :: s)
  | c :: s => Text.Utf8.octets c ++ decode s

end Manifest.Url
