import Manifest.Url.Host

/-! Addresses in the web: reading them, writing them, and adding segments to their path. Whatever
could be taken for a separator is percent-encoded inside a segment. -/
namespace Manifest

/-- An address with a path of segments. `authority` is what stands between the two slashes and the
path, when there are two slashes. -/
structure Url where
  scheme : List Char
  authority : Option (List Char)
  path : List (List Char)
  query : Option (List Char)
  fragment : Option (List Char)
  deriving DecidableEq, Repr

namespace Url

inductive Fault
  | malformed
  | pathless
  deriving DecidableEq, Repr

/-- The cause that an error tells. What exactly is malformed is left out. -/
def Fault.message : Fault → String
  | .malformed => "Invalid base URL"
  | .pathless => "Base URL cannot have path segments"

def fragmentReserved : List Char := [' ', '"', '<', '>', '\x60']
def queryReserved : List Char := [' ', '"', '#', '<', '>']
def pathReserved : List Char := fragmentReserved ++ ['#', '?', '{', '}']
def userReserved : List Char := pathReserved ++ ['/', ':', ';', '=', '@', '[', '\\', ']', '^', '|']

/-- Schemes whose addresses always have a path, and that read a backslash as a slash. -/
def isSpecial (scheme : List Char) : Bool :=
  ["http", "https", "ws", "wss", "ftp", "file"].contains (String.ofList scheme)

/-- What is encoded inside a segment that is added to a path. -/
def segmentReserved (scheme : List Char) : List Char :=
  pathReserved ++ ['/', '%'] ++ (if isSpecial scheme then ['\\'] else [])

def defaultPort (scheme : List Char) : Option Nat :=
  match String.ofList scheme with
  | "http" | "ws" => some 80
  | "https" | "wss" => some 443
  | "ftp" => some 21
  | _ => none

def isLineBreakOrTab (c : Char) : Bool := c == '\t' || c == '\n' || c == '\r'

/-- The text without blanks and controls at its ends, and without tabs and line breaks. -/
def clean (s : List Char) : List Char :=
  let isEdge (c : Char) : Bool := c.toNat ≤ 0x20
  let s := ((s.dropWhile isEdge).reverse.dropWhile isEdge).reverse
  s.filter fun c => !isLineBreakOrTab c

def readScheme (s : List Char) : Option (List Char × List Char) :=
  let isSchemeChar (c : Char) : Bool := c.isAlphanum || c == '+' || c == '-' || c == '.'
  let name := s.takeWhile isSchemeChar
  match name, s.drop name.length with
  | c :: _, ':' :: rest => if c.isAlpha then some (name.map Char.toLower, rest) else none
  | _, _ => none

def isDot (s : List Char) : Bool := [".", "%2e"].contains (String.ofList (s.map Char.toLower))

def isDoubleDot (s : List Char) : Bool :=
  ["..", ".%2e", "%2e.", "%2e%2e"].contains (String.ofList (s.map Char.toLower))

def isFile (scheme : List Char) : Bool := String.ofList scheme == "file"

/-- The name of a drive: a letter, and a colon or a bar. -/
def isDrive : List Char → Bool
  | [c, d] => c.isAlpha && (d == ':' || d == '|')
  | _ => false

/-- A path with a segment behind it. At the start of a file's path a drive is written with a
colon. -/
def extend (scheme : List Char) (path : List (List Char)) (s : List Char) : List (List Char) :=
  if isFile scheme && path.isEmpty && isDrive s then [s.take 1 ++ [':']] else path ++ [s]

/-- A path without its last segment. No step leads out of a file's drive. -/
def climb (scheme : List Char) (path : List (List Char)) : List (List Char) :=
  if isFile scheme && isDrive (path.getLast?.getD []) then path else path.dropLast

/-- The segments of a path with dots taken as steps: one dot stays, two go up. -/
def steps (scheme : List Char) (done : List (List Char)) : List (List Char) → List (List Char)
  | [] => done
  | [s] =>
    if isDoubleDot s then climb scheme done ++ [[]]
    else if isDot s then done ++ [[]]
    else extend scheme done s
  | s :: t :: ss =>
    if isDoubleDot s then steps scheme (climb scheme done) (t :: ss)
    else if isDot s then steps scheme done (t :: ss)
    else steps scheme (extend scheme done s) (t :: ss)

def cut (p : Char → Bool) (s : List Char) : List Char × List Char :=
  (s.takeWhile (!p ·), s.dropWhile (!p ·))

/-- The port of an authority in its written form: empty when there is none or it is the usual
one. -/
def readPort (scheme s : List Char) : Option (List Char) :=
  match s with
  | [] => some []
  | ':' :: ds =>
    if ds.isEmpty then some []
    else if ds.all Char.isDigit then
      let n := ds.foldl (fun n c => n * 10 + (c.toNat - 48)) 0
      if 65535 < n then none
      else if defaultPort scheme = some n then some []
      else some (':' :: Nat.toDigits 10 n)
    else none
  | _ => none

def userText (s : List Char) : List Char :=
  let (name, rest) := cut (· == ':') s
  let name := encode userReserved name
  let word := encode userReserved (rest.drop 1)
  if word.isEmpty then (if name.isEmpty then [] else name ++ ['@'])
  else name ++ ':' :: word ++ ['@']

/-- An authority in its written form. Without a host there is no at sign and no port. -/
def readAuthority (naming : Host.Naming) (scheme s : List Char) : Option (List Char) := do
  let parts := Path.splitChars '@' s
  let user := List.intercalate ['@'] parts.dropLast
  let rest := parts.getLast?.getD []
  let (host, portText) :=
    if rest.head? = some '[' then
      let (h, t) := cut (· == ']') rest
      (h ++ t.take 1, t.drop 1)
    else cut (· == ':') rest
  let host ← if isSpecial scheme then Host.read naming host else Host.readOpaque host
  let port ← readPort scheme portText
  if host.isEmpty && (1 < parts.length || !portText.isEmpty) then none
  else return userText user ++ host ++ port

/-- The path, query and fragment of an address. The path of a file has no empty segments at its
start, and one on a drive leaves no host. -/
def readRest (scheme : List Char) (authority : Option (List Char)) (s : List Char) : Url :=
  let special := isSpecial scheme
  let isSlash (c : Char) : Bool := c == '/' || (special && c == '\\')
  let (pathText, rest) := cut (fun c => c == '?' || c == '#') s
  let (queryText, fragmentText) := cut (· == '#') rest
  let segments := Path.splitChars '/' (pathText.map fun c => if isSlash c then '/' else c)
  let segments := if (segments.head?.getD []).isEmpty then segments.drop 1 else segments
  let path := (steps scheme [] segments).map (encode pathReserved)
  let onDrive := isFile scheme && isDrive (path.head?.getD [])
  let path := if isFile scheme then path.dropWhile List.isEmpty else path
  let queryReserved := if special then '\x27' :: queryReserved else queryReserved
  { scheme,
    authority := if onDrive then some [] else authority,
    path := if path.isEmpty && special then [[]] else path,
    query := (queryText.head?).map fun _ => encode queryReserved (queryText.drop 1),
    fragment := (fragmentText.head?).map fun _ => encode fragmentReserved (fragmentText.drop 1) }

/-- The address of a file, from what stands behind its scheme. What looks like a host but is a drive
belongs to the path. -/
def readFile (naming : Host.Naming) (scheme s : List Char) : Option Url :=
  let isSlash (c : Char) : Bool := c == '/' || c == '\\'
  match s with
  | a :: b :: s =>
    if isSlash a && isSlash b then
      let (host, rest) := cut (fun c => isSlash c || c == '?' || c == '#') s
      if isDrive host then some (readRest scheme (some []) s)
      else if host.isEmpty then some (readRest scheme (some []) rest)
      else
        (Host.read naming host).map fun host =>
          readRest scheme (some (if host = "localhost".toList then [] else host)) rest
    else some (readRest scheme (some []) (a :: b :: s))
  | s => some (readRest scheme (some []) s)

def read (naming : Host.Naming) (text : String) : Except Fault Url :=
  match readScheme (clean text.toList) with
  | none => .error .malformed
  | some (scheme, s) =>
    let isSlash (c : Char) : Bool := c == '/' || (isSpecial scheme && c == '\\')
    let withAuthority (s : List Char) : Option Url :=
      let (authority, rest) := cut (fun c => isSlash c || c == '?' || c == '#') s
      (readAuthority naming scheme authority).map fun a => readRest scheme (some a) rest
    let wellFormed (u : Option Url) : Except Fault Url :=
      match u with
      | some u => .ok u
      | none => .error .malformed
    if isFile scheme then wellFormed (readFile naming scheme s)
    else if isSpecial scheme then wellFormed (withAuthority (s.dropWhile isSlash))
    else
      match s with
      | '/' :: '/' :: s => wellFormed (withAuthority s)
      | '/' :: _ => .ok (readRest scheme none s)
      | _ => .error .pathless

/-- The text of an address. Without an authority a dot keeps an empty segment from being read as
one. -/
def toChars (u : Url) : List Char :=
  let authority :=
    match u.authority, u.path with
    | some a, _ => '/' :: '/' :: a
    | none, [] :: _ :: _ => ['/', '.']
    | none, _ => []
  u.scheme ++ ':' ::
    (authority ++ u.path.flatMap ('/' :: ·) ++ (u.query.map ('?' :: ·)).getD [] ++
      (u.fragment.map ('#' :: ·)).getD [])

def text (u : Url) : String := String.ofList u.toChars

def target (u : Url) : String :=
  String.ofList
    ((if u.path.isEmpty then ['/'] else u.path.flatMap ('/' :: ·)) ++
      (u.query.map ('?' :: ·)).getD [])

def dropEmptyEnd (path : List (List Char)) : List (List Char) :=
  if 2 ≤ path.length ∧ path.getLast? = some [] then path.dropLast else path

/-- A path with a segment added. A segment that is one dot or two adds nothing. One that becomes so
by losing its tabs and line breaks is taken as a step. -/
def addSegment (scheme : List Char) (path : List (List Char)) (segment : String) :
    List (List Char) :=
  if segment = "." ∨ segment = ".." then path
  else
    let path := if path = [[]] then [] else path
    let s := encode (segmentReserved scheme) (segment.toList.filter fun c => !isLineBreakOrTab c)
    if s = ['.', '.'] then climb scheme path ++ [[]]
    else if s = ['.'] then path ++ [[]]
    else extend scheme path s

def join (u : Url) (segments : List String) : Url :=
  { u with path := segments.foldl (addSegment u.scheme) (dropEmptyEnd u.path) }

end Url
end Manifest
