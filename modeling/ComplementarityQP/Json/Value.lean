import ComplementarityQP.Decimal.Shortest

/-! JSON values. Objects keep their entries in order, repeated keys included, and numbers keep
their literals: what a number may be depends on who reads it. -/
namespace ComplementarityQP

/-- The number literal `± digits * 10 ^ exp`. -/
structure Numeral where
  negative : Bool
  digits : Nat
  exp : Int
  /-- Written without a point and an exponent. -/
  integral : Bool
deriving Repr, DecidableEq

namespace Numeral

/-- The nearest float; `none` if that is infinite. Exponents far out of range are settled by the
number of digits alone. -/
def toFloat? (l : Numeral) : Option Float :=
  let size := l.exp + (toString l.digits).length
  let x := if l.digits = 0 || size < -400 then 0.0
    else if 400 < size then 1.0 / 0.0
    else Float.ofScientific l.digits (l.exp < 0) l.exp.natAbs
  if x.isFinite then some (if l.negative then -x else x) else none

/-- A natural number; a literal with a sign, a point or an exponent is none. -/
def toNat? (l : Numeral) : Option Nat :=
  if l.integral && !l.negative then some l.digits else none

def ofNat (n : Nat) : Numeral := ⟨false, n, 0, true⟩

def ofFloat (x : Float) : Numeral :=
  let d := if x == 0 then ⟨0, 0⟩ else (Decimal.Binary.ofFloat x).shortest
  ⟨Decimal.signBit x, d.digits, d.exp, false⟩

end Numeral

/-- The text of a JSON string; `none` if an escape names half of a surrogate pair. -/
abbrev Text := Option String

inductive Json where
  | null
  | bool (b : Bool)
  | num (l : Numeral)
  | str (t : Text)
  | arr (items : List Json)
  | obj (fields : List (Text × Json))

namespace Json

def text (s : String) : Json := .str (some s)

def nat (n : Nat) : Json := .num (.ofNat n)

def list {α : Type} (f : α → Json) (xs : List α) : Json := .arr (xs.map f)

def array {α : Type} (f : α → Json) (xs : Array α) : Json := .arr (xs.toList.map f)

def record (fields : List (String × Json)) : Json := .obj (fields.map fun (k, v) => (some k, v))

def opt {α : Type} (f : α → Json) : Option α → Json
  | none => .null
  | some a => f a

/-- A float as a JSON number; JSON has no special values, so they become null. -/
def float (x : Float) : Json := if x.isFinite then .num (.ofFloat x) else .null

/-- May this value be kept for later reading? All its numbers must fit a float, all its texts must
be readable, and it may nest at most `depth` deep. -/
def storable : Nat → Json → Bool
  | _, .null | _, .bool _ => true
  | _, .num l => l.toFloat?.isSome
  | _, .str t => t.isSome
  | 0, .arr _ | 0, .obj _ => false
  | depth + 1, .arr items => items.all (storable depth)
  | depth + 1, .obj fields => fields.all fun f => f.1.isSome && storable depth f.2

end Json

end ComplementarityQP
