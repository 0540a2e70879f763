/-! A finite 64-bit float as the exact number `m * 2 ^ q`, and quotients of naturals rounded to
integers. All further decimal work is done in these exact terms. -/
namespace ComplementarityQP.Decimal

/-- The magnitude `m * 2 ^ q` of a finite float. -/
structure Binary where
  m : Nat
  q : Int
  /-- The float below is half as far away as the float above. -/
  narrowBelow : Bool
deriving Repr, DecidableEq

namespace Binary

def ofBits (b : UInt64) : Binary :=
  let e := ((b >>> 52) &&& 0x7FF).toNat
  let f := (b &&& 0xFFFFFFFFFFFFF).toNat
  if e = 0 then ⟨f, -1074, false⟩ else ⟨Nat.pow 2 52 + f, (e : Int) - 1075, f = 0 && 1 < e⟩

/-- The magnitude of `x`, which must be finite. -/
def ofFloat (x : Float) : Binary := ofBits x.toBits

def num (x : Binary) : Nat := x.m * Nat.pow 2 x.q.toNat

def den (x : Binary) : Nat := Nat.pow 2 (-x.q).toNat

end Binary

def signBit (x : Float) : Bool := x.toBits >>> 63 = 1

/-- Compares `a / b` with `c * 10 ^ k`. -/
def compareScaled (a b c : Nat) (k : Int) : Ordering :=
  compare (a * Nat.pow 10 (-k).toNat) (b * c * Nat.pow 10 k.toNat)

/-- The least of `k, k + 1, …, k + fuel` whose power of ten exceeds `a / b`. -/
def climb (a b : Nat) : Nat → Int → Int
  | 0, k => k
  | fuel + 1, k => if compareScaled a b 1 k = .lt then k else climb a b fuel (k + 1)

/-- The least `k` with `a / b < 10 ^ k`, for positive `a` and `b`: a guess from the binary
logarithms, which is at most two too small, is corrected upwards. -/
def scale (a b : Nat) : Int :=
  climb a b 8 (((a.log2 : Int) - b.log2 - 1) * 30103 / 100000 - 1)

/-- `a / b` rounded to an integer, a half to the even neighbour. -/
def roundDiv (a b : Nat) : Nat :=
  match compare (2 * (a % b)) b with
  | .lt => a / b
  | .gt => a / b + 1
  | .eq => if a / b % 2 = 0 then a / b else a / b + 1

def roundScaled (a b : Nat) (k : Int) : Nat :=
  roundDiv (a * Nat.pow 10 k.toNat) (b * Nat.pow 10 (-k).toNat)

end ComplementarityQP.Decimal
