/-! Reading UTF-8: octets to characters, and where and how a text stops being UTF-8. -/
namespace Manifest.Text.Utf8

/-- Why octets are no UTF-8 text. `start` is the offset of the character that breaks off. -/
inductive Fault
  | invalid (start width : Nat)
  | incomplete (start : Nat)
  deriving DecidableEq, Repr

def Fault.message : Fault → String
  | .invalid start width =>
    s!"invalid utf-8 sequence of {width} bytes from index {start}"
  | .incomplete start => s!"incomplete utf-8 byte sequence from index {start}"

def isTail (b : UInt8) : Bool := 0x80 ≤ b && b ≤ 0xBF

/-- The least and the greatest second octet after a given first octet of three. -/
def secondOfThree (b : UInt8) : UInt8 × UInt8 :=
  if b = 0xE0 then (0xA0, 0xBF) else if b = 0xED then (0x80, 0x9F) else (0x80, 0xBF)

def secondOfFour (b : UInt8) : UInt8 × UInt8 :=
  if b = 0xF0 then (0x90, 0xBF) else if b = 0xF4 then (0x80, 0x8F) else (0x80, 0xBF)

def isWithin (range : UInt8 × UInt8) (b : UInt8) : Bool := range.1 ≤ b && b ≤ range.2

def payload (b : UInt8) : Nat := b.toNat % 64

/-- The characters of a UTF-8 text that starts at offset `start`. A character that is broken
before the end reports the octets up to the first one that cannot belong to it. -/
def decodeFrom (start : Nat) : List UInt8 → Except Fault (List Char)
  | [] => .ok []
  | a :: s =>
    if a < 0x80 then do
      return Char.ofNat a.toNat :: (← decodeFrom (start + 1) s)
    else if a < 0xC2 then .error (.invalid start 1)
    else if a < 0xE0 then
      match s with
      | [] => .error (.incomplete start)
      | b :: s =>
        if isTail b then do
          return Char.ofNat (a.toNat % 32 * 64 + payload b) :: (← decodeFrom (start + 2) s)
        else .error (.invalid start 1)
    else if a < 0xF0 then
      match s with
      | [] => .error (.incomplete start)
      | b :: s =>
        if isWithin (secondOfThree a) b then
          match s with
          | [] => .error (.incomplete start)
          | c :: s =>
            if isTail c then do
              return Char.ofNat ((a.toNat % 16 * 64 + payload b) * 64 + payload c) ::
                (← decodeFrom (start + 3) s)
            else .error (.invalid start 2)
        else .error (.invalid start 1)
    else if a < 0xF5 then
      match s with
      | [] => .error (.incomplete start)
      | b :: s =>
        if isWithin (secondOfFour a) b then
          match s with
          | [] => .error (.incomplete start)
          | c :: s =>
            if isTail c then
              match s with
              | [] => .error (.incomplete start)
              | d :: s =>
                if isTail d then do
                  return Char.ofNat
                      (((a.toNat % 8 * 64 + payload b) * 64 + payload c) * 64 + payload d) ::
                    (← decodeFrom (start + 4) s)
                else .error (.invalid start 3)
            else .error (.invalid start 2)
        else .error (.invalid start 1)
    else .error (.invalid start 1)

def decode (octets : List UInt8) : Except Fault String :=
  (decodeFrom 0 octets).map String.ofList

def width (c : Char) : Nat := c.utf8Size

def octets (c : Char) : List UInt8 :=
  let n := c.toNat
  let tail (k : Nat) : UInt8 := .ofNat (0x80 + n / Nat.pow 64 k % 64)
  if n < 0x80 then [.ofNat n]
  else if n < 0x800 then [.ofNat (0xC0 + n / 64), tail 0]
  else if n < 0x10000 then [.ofNat (0xE0 + n / 0x1000), tail 1, tail 0]
  else [.ofNat (0xF0 + n / 0x40000), tail 2, tail 1, tail 0]

def encode (s : String) : List UInt8 := s.toList.flatMap octets

end Manifest.Text.Utf8
