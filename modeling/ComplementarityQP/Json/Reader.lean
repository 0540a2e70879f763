import ComplementarityQP.Json.Value

/-! Reading JSON text: characters to tokens, tokens to a value. The second step keeps its open
arrays and objects on a stack of its own, so nesting costs no recursion. -/
namespace ComplementarityQP.Json

inductive Token where
  | lbrace | rbrace | lbrack | rbrack | colon | comma
  | null
  | bool (b : Bool)
  | num (l : Numeral)
  | str (t : Text)

/-- A part of a string: a character, or the 16-bit unit of an escape. -/
inductive Piece where
  | char (c : Char)
  | unit (n : Nat)

def hexDigit? (c : Char) : Option Nat :=
  if c.isDigit then some (c.toNat - '0'.toNat)
  else if 'a' ≤ c && c ≤ 'f' then some (c.toNat - 'a'.toNat + 10)
  else if 'A' ≤ c && c ≤ 'F' then some (c.toNat - 'A'.toNat + 10)
  else none

def unit? (a b c d : Char) : Option Nat := do
  let a ← hexDigit? a
  let b ← hexDigit? b
  let c ← hexDigit? c
  let d ← hexDigit? d
  pure (((a * 16 + b) * 16 + c) * 16 + d)

def escape? : Char → Option Char
  | '"' => some '"'
  | '\\' => some '\\'
  | '/' => some '/'
  | 'b' => some '\x08'
  | 'f' => some '\x0c'
  | 'n' => some '\n'
  | 'r' => some '\r'
  | 't' => some '\t'
  | _ => none

/-- The pieces up to the closing quote, in reverse, and what follows it. -/
def pieces : List Char → List Piece → Option (List Piece × List Char)
  | [], _ => none
  | '"' :: cs, acc => some (acc, cs)
  | '\\' :: 'u' :: a :: b :: c :: d :: cs, acc => do pieces cs (.unit (← unit? a b c d) :: acc)
  | '\\' :: e :: cs, acc => do pieces cs (.char (← escape? e) :: acc)
  | c :: cs, acc => if c < ' ' then none else pieces cs (.char c :: acc)

/-- Joins surrogate pairs; fails on half of one. -/
def joinPieces : List Piece → List Char → Option (List Char)
  | [], acc => some acc.reverse
  | .char c :: ps, acc => joinPieces ps (c :: acc)
  | .unit n :: ps, acc =>
    if n < 0xD800 || 0xE000 ≤ n then joinPieces ps (Char.ofNat n :: acc)
    else if 0xDC00 ≤ n then none
    else match ps with
      | .unit l :: ps =>
        if 0xDC00 ≤ l && l < 0xE000 then
          joinPieces ps (Char.ofNat (0x10000 + (n - 0xD800) * 0x400 + (l - 0xDC00)) :: acc)
        else none
      | _ => none

def lexString (cs : List Char) : Option (Text × List Char) := do
  let (ps, rest) ← pieces cs []
  pure ((joinPieces ps.reverse []).map String.ofList, rest)

def digitsValue (ds : List Char) : Nat := ds.foldl (fun n d => n * 10 + (d.toNat - '0'.toNat)) 0

def lexDigits (cs : List Char) : Option (List Char × List Char) :=
  match cs.takeWhile Char.isDigit with
  | [] => none
  | ds => some (ds, cs.dropWhile Char.isDigit)

def lexFraction : List Char → Option (List Char × List Char)
  | '.' :: cs => lexDigits cs
  | cs => some ([], cs)

def lexExponent : List Char → Option (Option Int × List Char)
  | c :: cs =>
    if c = 'e' || c = 'E' then do
      let (minus, cs) := match cs with
        | '-' :: cs => (true, cs)
        | '+' :: cs => (false, cs)
        | cs => (false, cs)
      let (ds, cs) ← lexDigits cs
      let e : Int := digitsValue ds
      pure (some (if minus then -e else e), cs)
    else some (none, c :: cs)
  | [] => some (none, [])

/-- A number after its sign. A leading zero stands alone. -/
def lexNumber (negative : Bool) (cs : List Char) : Option (Numeral × List Char) := do
  let (whole, cs) ← lexDigits cs
  guard (whole.head? ≠ some '0' || whole.length = 1)
  let (frac, cs') ← lexFraction cs
  let (exp, rest) ← lexExponent cs'
  let integral := frac.isEmpty && exp.isNone
  pure (⟨negative, digitsValue (whole ++ frac), exp.getD 0 - frac.length, integral⟩, rest)

def lexToken (c : Char) (cs : List Char) : Option (Token × List Char) :=
  match c, cs with
  | '\x7b', _ => some (.lbrace, cs)
  | '\x7d', _ => some (.rbrace, cs)
  | '[', _ => some (.lbrack, cs)
  | ']', _ => some (.rbrack, cs)
  | ':', _ => some (.colon, cs)
  | ',', _ => some (.comma, cs)
  | 'n', 'u' :: 'l' :: 'l' :: cs => some (.null, cs)
  | 't', 'r' :: 'u' :: 'e' :: cs => some (.bool true, cs)
  | 'f', 'a' :: 'l' :: 's' :: 'e' :: cs => some (.bool false, cs)
  | '"', _ => (lexString cs).map fun (t, cs) => (.str t, cs)
  | '-', _ => (lexNumber true cs).map fun (l, cs) => (.num l, cs)
  | _, _ => (lexNumber false (c :: cs)).map fun (l, cs) => (.num l, cs)

def isBlank (c : Char) : Bool := c = ' ' || c = '\t' || c = '\n' || c = '\r'

/-- All tokens, given at least as much fuel as there are characters. -/
def lex : Nat → List Char → List Token → Option (List Token)
  | _, [], acc => some acc.reverse
  | 0, _ :: _, _ => none
  | fuel + 1, c :: cs, acc =>
    if isBlank c then lex fuel cs acc
    else do
      let (t, rest) ← lexToken c cs
      lex fuel rest (t :: acc)

/-- An array or object that is still open, its content in reverse. -/
inductive Frame where
  | arr (items : List Json)
  | obj (fields : List (Text × Json)) (key : Text)

inductive Expect where
  | value
  | firstItem
  | afterItem
  | firstKey
  | key
  | colon
  | afterField
  | done (v : Json)

def place (v : Json) : List Frame → Expect × List Frame
  | [] => (.done v, [])
  | .arr items :: s => (.afterItem, .arr (v :: items) :: s)
  | .obj fields k :: s => (.afterField, .obj ((k, v) :: fields) k :: s)

def openValue (s : List Frame) : Token → Option (Expect × List Frame)
  | .null => some (place .null s)
  | .bool b => some (place (.bool b) s)
  | .num l => some (place (.num l) s)
  | .str t => some (place (.str t) s)
  | .lbrack => some (.firstItem, .arr [] :: s)
  | .lbrace => some (.firstKey, .obj [] none :: s)
  | _ => none

def advance : Expect × List Frame → Token → Option (Expect × List Frame)
  | (.value, s), t => openValue s t
  | (.firstItem, .arr items :: s), .rbrack => some (place (.arr items.reverse) s)
  | (.firstItem, s), t => openValue s t
  | (.afterItem, s), .comma => some (.value, s)
  | (.afterItem, .arr items :: s), .rbrack => some (place (.arr items.reverse) s)
  | (.firstKey, .obj fields _ :: s), .rbrace => some (place (.obj fields.reverse) s)
  | (.firstKey, .obj fields _ :: s), .str k => some (.colon, .obj fields k :: s)
  | (.key, .obj fields _ :: s), .str k => some (.colon, .obj fields k :: s)
  | (.colon, s), .colon => some (.value, s)
  | (.afterField, s), .comma => some (.key, s)
  | (.afterField, .obj fields _ :: s), .rbrace => some (place (.obj fields.reverse) s)
  | _, _ => none

/-- The value written as `s`, with nothing but blanks around it. -/
def parse? (s : String) : Option Json := do
  let cs := s.toList
  let tokens ← lex cs.length cs []
  match ← tokens.foldlM advance (.value, []) with
  | (.done v, _) => some v
  | _ => none

end ComplementarityQP.Json
