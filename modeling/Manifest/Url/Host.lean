import Manifest.Path
import Manifest.Url.Percent

/-! Hosts of web addresses: names, addresses of four octets, and addresses of eight groups in
brackets. -/
namespace Manifest.Url.Host

/-- The ASCII form of an international name, from the octets of the name. The tables behind it are
not part of this library. -/
abbrev Naming := List UInt8 → Option (List Char)

def number? (base : Nat) (ds : List Char) : Option Nat :=
  ds.foldlM (fun n c => (digit? base c).map (n * base + ·)) 0

/-- A number of a numeric host: hexadecimal behind `0x`, octal behind `0`, else decimal. -/
def label? : List Char → Option Nat
  | [] => none
  | '0' :: 'x' :: ds => number? 16 ds
  | '0' :: d :: ds => number? 8 (d :: ds)
  | ds => number? 10 ds

/-- An address of four octets. Its last number may stand for several of them. -/
def octets? (labels : List (List Char)) : Option (List Char) := do
  let ns ← labels.mapM label?
  let last ← ns.getLast?
  let front := ns.dropLast
  if 3 < front.length || front.any (255 < ·) || Nat.pow 256 (4 - front.length) ≤ last then none
  else
    let n := front.foldl (· * 256 + ·) 0 * Nat.pow 256 (4 - front.length) + last
    let octet (k : Nat) : List Char := Nat.toDigits 10 (n / Nat.pow 256 k % 256)
    some (octet 3 ++ '.' :: octet 2 ++ '.' :: octet 1 ++ '.' :: octet 0)

def group? (ds : List Char) : Option Nat :=
  if ds.isEmpty || 4 < ds.length then none else number? 16 ds

def octet? : List Char → Option Nat
  | [] => none
  | '0' :: _ :: _ => none
  | ds => (number? 10 ds).filter (· ≤ 255)

/-- The text of groups where the last two may stand as an address of four octets. -/
def undotted? (s : List Char) : Option (List Char) :=
  let words := Path.splitChars ':' s
  let last := words.getLast?.getD []
  if last.contains '.' then
    match (Path.splitChars '.' last).mapM octet? with
    | some [a, b, c, d] =>
      let pair := [a * 256 + b, c * 256 + d].map (Nat.toDigits 16)
      some (List.intercalate [':'] (words.dropLast ++ pair))
    | _ => none
  else some s

def gap? : List Char → Option (List Char × List Char)
  | [] => none
  | ':' :: ':' :: s => some ([], s)
  | c :: s => (gap? s).map fun (front, back) => (c :: front, back)

def run? (s : List Char) : Option (List Nat) :=
  if s.isEmpty then some [] else (Path.splitChars ':' s).mapM group?

/-- The eight groups of an address; two colons in a row stand for as many zeros as are missing. -/
def groups? (s : List Char) : Option (List Nat) := do
  let s ← undotted? s
  match gap? s with
  | none => (run? s).filter fun ns => ns.length = 8
  | some (front, back) =>
    let front ← run? front
    let back ← run? back
    let missing := 8 - front.length - back.length
    if missing = 0 then none else some (front ++ List.replicate missing 0 ++ back)

def zeros (ns : List Nat) : Nat := (ns.takeWhile (· == 0)).length

/-- The text of groups, the first longest run of at least two zeros left out. -/
def groupsText (ns : List Nat) : List Char :=
  let longest := ((List.range 8).map fun i => zeros (ns.drop i)).foldl max 0
  let text (ns : List Nat) : List Char :=
    List.intercalate [':'] (ns.map fun n => Nat.toDigits 16 n)
  if longest < 2 then text ns
  else
    let start := (List.range 8).findIdx fun i => zeros (ns.drop i) == longest
    text (ns.take start) ++ [':', ':'] ++ text (ns.drop (start + longest))

def readGroups (s : List Char) : Option (List Char) :=
  if s.getLast? = some ']' then
    (groups? s.dropLast).map fun ns => '[' :: groupsText ns ++ [']']
  else none

def isForbidden (c : Char) : Bool :=
  ['\x00', '\t', '\n', '\r', ' ', '#', '/', ':', '<', '>', '?', '@', '[', '\\', ']', '^',
    '|'].contains c

/-- A name in lower case. Names beyond ASCII, and those with a label that is marked as standing for
one, go through the tables of international names. -/
def nameOf (naming : Naming) (octets : List UInt8) : Option (List Char) :=
  let name := octets.map fun b => (Char.ofNat b.toNat).toLower
  let isMarked (label : List Char) : Bool := "xn--".toList.isPrefixOf label
  if octets.any (0x80 ≤ ·) || (Path.splitChars '.' name).any isMarked then naming octets
  else if name.any fun c => isForbidden c || isControl c || c == '%' then none
  else some name

/-- Whether a host name reads as a numeric address: its last label is a number. -/
def isNumeric (labels : List (List Char)) : Bool :=
  match labels.getLast? with
  | some w => (!w.isEmpty && w.all Char.isDigit) || (w.take 2 == ['0', 'x'] && (label? w).isSome)
  | none => false

def read (naming : Naming) (s : List Char) : Option (List Char) :=
  match s with
  | '[' :: rest => readGroups rest
  | s => do
    let name ← nameOf naming (decode s)
    let labels := Path.splitChars '.' name
    let labels := if labels.getLast? = some [] then labels.dropLast else labels
    if name.isEmpty then none
    else if isNumeric labels then octets? labels
    else some name

def readOpaque (s : List Char) : Option (List Char) :=
  match s with
  | '[' :: rest => readGroups rest
  | s => if s.any isForbidden then none else some (encode [] s)

end Manifest.Url.Host
