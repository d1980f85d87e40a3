import Manifest.Query.Token

/-! Reading expressions. Each reader takes the tokens at hand and gives an expression with the
tokens behind it, or nothing when they do not fit; `fuel` bounds how deep readers call one
another. -/
namespace Manifest.Query.Expr

abbrev Tokens := List (Nat × Token)

/-- The strength with which the next token binds to what is on its left; none at the end. -/
def nextPower : Tokens → Nat
  | [] => 0
  | (_, t) :: _ => t.power

/-- Tokens weaker than this end the right side of a projection. -/
def projectionStop : Nat := 10

def readNumber : Tokens → Option Int × Tokens
  | (_, .number n) :: ts => (some n, ts)
  | ts => (none, ts)

/-- An index or the parts of a slice, up to the closing bracket. The step of a slice is 1 unless
given. -/
def readPosition (ts : Tokens) : Option (Expr × Tokens) :=
  let (a, ts) := readNumber ts
  match ts with
  | (_, .closeBracket) :: ts => a.map fun n => (.index n, ts)
  | (_, .colon) :: ts =>
    let (b, ts) := readNumber ts
    match ts with
    | (_, .closeBracket) :: ts => some (.slice a b 1, ts)
    | (_, .colon) :: ts =>
      let (c, ts) := readNumber ts
      match ts with
      | (_, .closeBracket) :: ts => some (.slice a b (c.getD 1), ts)
      | _ => none
    | _ => none
  | _ => none

mutual

def read : Nat → Nat → Tokens → Option (Expr × Tokens)
  | 0, _, _ => none
  | fuel + 1, power, ts => do
    let (left, ts) ← readStart fuel ts
    readOn fuel power left ts

/-- Goes on from an expression while the next token binds more strongly than `power`. -/
def readOn : Nat → Nat → Expr → Tokens → Option (Expr × Tokens)
  | 0, _, _, _ => none
  | fuel + 1, power, left, ts =>
    if power < nextPower ts then do
      let (left, ts) ← readNext fuel left ts
      readOn fuel power left ts
    else some (left, ts)

/-- An expression with nothing on its left. A quoted name cannot be called. -/
def readStart : Nat → Tokens → Option (Expr × Tokens)
  | 0, _ => none
  | fuel + 1, ts =>
    match ts with
    | (_, .current) :: ts => some (.current, ts)
    | (_, .name s) :: ts => some (.field s, ts)
    | (_, .quotedName _) :: (_, .openParen) :: _ => none
    | (_, .quotedName s) :: ts => some (.field s, ts)
    | (_, .literal x) :: ts => some (.literal x, ts)
    | (_, .star) :: ts => readProjection fuel (.values .current) Token.star.power ts
    | (_, .flatten) :: ts => readProjection fuel (.flatten .current) Token.flatten.power ts
    | (_, .filter) :: ts => readFilter fuel .current ts
    | (_, .openBracket) :: ts => readBracket fuel ts
    | (_, .openBrace) :: ts => do
      let (pairs, ts) ← readPairs fuel ts
      return (.hash pairs, ts)
    | (offset, .ampersand) :: ts => do
      let (body, ts) ← read fuel 0 ts
      return (.reference offset body, ts)
    | (_, .not) :: ts => do
      let (operand, ts) ← read fuel Token.not.power ts
      return (.not operand, ts)
    | (_, .openParen) :: ts => do
      let (inner, ts) ← read fuel 0 ts
      match ts with
      | (_, .closeParen) :: ts => return (inner, ts)
      | _ => none
    | _ => none

/-- What a bracket at the start opens: an index, a slice, all items, or a list of expressions. -/
def readBracket : Nat → Tokens → Option (Expr × Tokens)
  | 0, _ => none
  | fuel + 1, ts =>
    match ts with
    | (_, .number _) :: _ => readSubscript fuel ts
    | (_, .colon) :: _ => readSubscript fuel ts
    | (_, .star) :: (_, .closeBracket) :: ts => readProjection fuel .current Token.star.power ts
    | _ => do
      let (items, ts) ← readItems fuel Token.isCloseBracket ts
      return (.list items, ts)

def readSubscript : Nat → Tokens → Option (Expr × Tokens)
  | 0, _ => none
  | fuel + 1, ts => do
    let (position, ts) ← readPosition ts
    match position with
    | .slice _ _ _ => readProjection fuel position Token.star.power ts
    | _ => return (position, ts)

def readNext : Nat → Expr → Tokens → Option (Expr × Tokens)
  | 0, _, _ => none
  | fuel + 1, left, ts =>
    match ts with
    | (_, .dot) :: (_, .star) :: ts => readProjection fuel (.values left) Token.star.power ts
    | (_, .dot) :: ts => do
      let (right, ts) ← readDotted fuel Token.dot.power ts
      return (.pipe left right, ts)
    | (_, .openBracket) :: (_, .star) :: (_, .closeBracket) :: ts =>
      readProjection fuel left Token.star.power ts
    | (_, .openBracket) :: (_, .star) :: _ => none
    | (_, .openBracket) :: ts => do
      let (right, ts) ← readSubscript fuel ts
      return (.pipe left right, ts)
    | (_, .or) :: ts => do
      let (right, ts) ← read fuel Token.or.power ts
      return (.or left right, ts)
    | (_, .and) :: ts => do
      let (right, ts) ← read fuel Token.and.power ts
      return (.and left right, ts)
    | (_, .pipe) :: ts => do
      let (right, ts) ← read fuel Token.pipe.power ts
      return (.pipe left right, ts)
    | (offset, .openParen) :: ts =>
      match left with
      | .field name => do
        let (args, ts) ← readItems fuel Token.isCloseParen ts
        return (.call offset name args, ts)
      | _ => none
    | (_, .flatten) :: ts => readProjection fuel (.flatten left) Token.flatten.power ts
    | (_, .filter) :: ts => readFilter fuel left ts
    | (_, .relation r) :: ts => do
      let (right, ts) ← read fuel (Token.relation r).power ts
      return (.compare r left right, ts)
    | _ => none

/-- The condition of a filter on items, and what the items that meet it are taken through. -/
def readFilter : Nat → Expr → Tokens → Option (Expr × Tokens)
  | 0, _, _ => none
  | fuel + 1, left, ts => do
    let (condition, ts) ← read fuel 0 ts
    match ts with
    | (_, .closeBracket) :: ts =>
      let (right, ts) ← readRest fuel Token.filter.power ts
      return (.project left (.select condition right), ts)
    | _ => none

def readProjection : Nat → Expr → Nat → Tokens → Option (Expr × Tokens)
  | 0, _, _, _ => none
  | fuel + 1, left, power, ts => do
    let (right, ts) ← readRest fuel power ts
    return (.project left right, ts)

def readRest : Nat → Nat → Tokens → Option (Expr × Tokens)
  | 0, _, _ => none
  | fuel + 1, power, ts =>
    match ts with
    | (_, .dot) :: ts => readDotted fuel power ts
    | (_, .openBracket) :: _ => read fuel power ts
    | (_, .filter) :: _ => read fuel power ts
    | _ => if nextPower ts < projectionStop then some (.current, ts) else none

/-- What may stand behind a dot. A bracket there opens a list of expressions. -/
def readDotted : Nat → Nat → Tokens → Option (Expr × Tokens)
  | 0, _, _ => none
  | fuel + 1, power, ts =>
    match ts with
    | (_, .openBracket) :: ts => do
      let (items, ts) ← readItems fuel Token.isCloseBracket ts
      return (.list items, ts)
    | (_, .name _) :: _ => read fuel power ts
    | (_, .quotedName _) :: _ => read fuel power ts
    | (_, .star) :: _ => read fuel power ts
    | (_, .openBrace) :: _ => read fuel power ts
    | (_, .ampersand) :: _ => read fuel power ts
    | _ => none

/-- Expressions up to a closing token. A comma may stand behind each but the last. -/
def readItems : Nat → (Token → Bool) → Tokens → Option (List Expr × Tokens)
  | 0, _, _ => none
  | fuel + 1, closes, ts =>
    match ts with
    | [] => none
    | (_, t) :: rest =>
      if closes t then some ([], rest)
      else do
        let (item, ts) ← read fuel 0 ts
        match ts with
        | (_, .comma) :: ts =>
          match ts with
          | (_, t) :: _ =>
            if closes t then none
            else
              let (items, ts) ← readItems fuel closes ts
              return (item :: items, ts)
          | [] => none
        | _ =>
          let (items, ts) ← readItems fuel closes ts
          return (item :: items, ts)

/-- Keys with their expressions up to a closing brace; there is at least one. -/
def readPairs : Nat → Tokens → Option (List (String × Expr) × Tokens)
  | 0, _ => none
  | fuel + 1, ts =>
    match ts with
    | (_, .name key) :: (_, .colon) :: ts => readPair fuel key ts
    | (_, .quotedName key) :: (_, .colon) :: ts => readPair fuel key ts
    | _ => none

def readPair : Nat → String → Tokens → Option (List (String × Expr) × Tokens)
  | 0, _, _ => none
  | fuel + 1, key, ts => do
    let (value, ts) ← read fuel 0 ts
    match ts with
    | (_, .closeBrace) :: ts => return ([(key, value)], ts)
    | (_, .comma) :: ts =>
      let (pairs, ts) ← readPairs fuel ts
      return ((key, value) :: pairs, ts)
    | _ => none

end

def ofText? (text : String) : Option Expr := do
  let tokens ← Token.readAll text.toList
  let (e, rest) ← read (8 * (tokens.length + 1)) 0 tokens
  if rest.isEmpty then some e else none

end Manifest.Query.Expr
