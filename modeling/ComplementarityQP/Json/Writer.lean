import ComplementarityQP.Json.Value

/-! Writing JSON text, without blanks. -/
namespace ComplementarityQP

def Numeral.render (l : Numeral) : String :=
  let s := (if l.negative then "-" else "") ++ toString l.digits
  if l.integral then s else s ++ "e" ++ toString l.exp

namespace Json

def hexChar (n : Nat) : Char := if n < 10 then Char.ofNat (48 + n) else Char.ofNat (87 + n)

def escapeChar (c : Char) : List Char :=
  if c = '"' then ['\\', '"']
  else if c = '\\' then ['\\', '\\']
  else if c < ' ' then ['\\', 'u', '0', '0', hexChar (c.toNat / 16), hexChar (c.toNat % 16)]
  else [c]

def quoted (s : String) : String := String.ofList ('"' :: s.toList.flatMap escapeChar ++ ['"'])

mutual

/-- An unreadable text is written as half of a surrogate pair, as which it reads back. -/
def render : Json → String
  | .null => "null"
  | .bool true => "true"
  | .bool false => "false"
  | .num l => l.render
  | .str t => renderText t
  | .arr items => "[" ++ ",".intercalate (renderItems items) ++ "]"
  | .obj fields => "\x7b" ++ ",".intercalate (renderFields fields) ++ "\x7d"

def renderText : Text → String
  | some s => quoted s
  | none => "\"\\ud800\""

def renderItems : List Json → List String
  | [] => []
  | v :: vs => render v :: renderItems vs

def renderFields : List (Text × Json) → List String
  | [] => []
  | (k, v) :: fs => (renderText k ++ ":" ++ render v) :: renderFields fs

end

end Json

end ComplementarityQP
