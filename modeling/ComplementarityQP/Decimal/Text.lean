import ComplementarityQP.Decimal.Shortest

/-! Floats as text. Messages show the fewest digits that identify a value; reports show a fixed
number of digits, rounded from the exact binary value. -/
namespace ComplementarityQP.Decimal

def zeros (n : Nat) : String := String.ofList (List.replicate n '0')

/-- Digits with a point before the last `places`. -/
def pointed (digits places : Nat) : String :=
  let s := toString digits
  let s := zeros (places + 1 - s.length) ++ s
  if places = 0 then s
  else
    let cs := s.toList
    String.ofList (cs.take (cs.length - places) ++ '.' :: cs.drop (cs.length - places))

/-- `d.ddd` for a number whose first digit is its leading one. -/
def leading (digits : String) : String :=
  match digits.toList with
  | c :: [] => String.ofList [c]
  | c :: cs => String.ofList (c :: '.' :: cs)
  | [] => ""

def signed (x : Float) (s : String) : String := if signBit x then "-" ++ s else s

def special (nan : String) (f : Float → String) (x : Float) : String :=
  if x.isNaN then nan
  else if x.isFinite then f x
  else if x < 0 then "-inf" else "inf"

/-- The fewest digits, never with an exponent. -/
def plain : Float → String :=
  special "NaN" fun x =>
    signed x <|
      if x == 0 then "0"
      else
        let d := (Binary.ofFloat x).shortest
        if d.exp < 0 then pointed d.digits (-d.exp).toNat else toString d.digits ++
          zeros d.exp.toNat

/-- The fewest digits, always with an exponent. -/
def scientific : Float → String :=
  special "NaN" fun x =>
    signed x <|
      if x == 0 then "0e0"
      else
        let d := (Binary.ofFloat x).shortest
        let s := toString d.digits
        leading s ++ "e" ++ toString (d.exp + s.length - 1)

def significant (n : Nat) (x : Binary) : String :=
  let k := scale x.num x.den
  let r := roundScaled x.num x.den (n + 1 - k)
  let (r, k) := if r = Nat.pow 10 (n + 1) then (Nat.pow 10 n, k + 1) else (r, k)
  leading (toString r) ++ "e" ++ toString (k - 1)

/-- Reports of exact values: twelve significant digits, zero without a sign. -/
def exact : Float → String :=
  special "nan" fun x => if x == 0 then "0" else signed x (significant 11 (Binary.ofFloat x))

/-- Reports of computed values: `places` decimals; zero without a sign; from a thousand on, an
exponent and two digits more. -/
def rounded (places : Nat) : Float → String :=
  special "nan" fun x =>
    let b := Binary.ofFloat x
    let r := roundScaled b.num b.den places
    if r = 0 then "0"
    else if r < 1000 * Nat.pow 10 places then signed x (pointed r places)
    else signed x (significant (places + 2) b)

end ComplementarityQP.Decimal
