import ComplementarityQP.Decimal.Binary

/-! The fewest decimal digits that identify a float. -/
namespace ComplementarityQP.Decimal

/-- The decimal `digits * 10 ^ exp`. -/
structure Dec where
  digits : Nat
  exp : Int
deriving Repr, DecidableEq

def Dec.compareBinary (d : Dec) (n : Nat) (j : Int) : Ordering :=
  compare (d.digits * Nat.pow 10 d.exp.toNat * Nat.pow 2 (-j).toNat)
    (n * Nat.pow 2 j.toNat * Nat.pow 10 (-d.exp).toNat)

/-- Does `d` lie among the reals that round to `x`? They reach half way to the two neighbours; the
ends belong to the float with the even significand. -/
def Binary.readsBack (x : Binary) (d : Dec) : Bool :=
  let low := d.compareBinary (if x.narrowBelow then 4 * x.m - 1 else 4 * x.m - 2) (x.q - 2)
  let high := d.compareBinary (4 * x.m + 2) (x.q - 2)
  let ends := x.m % 2 = 0
  (low = .gt || ends && low = .eq) && (high = .lt || ends && high = .eq)

/-- Of the two neighbours of `x` on the grid `10 ^ e`, the one that reads back; of two, the nearer,
and of two equally near the upper one. -/
def Binary.onGrid (x : Binary) (e : Int) : Option Dec :=
  let below := x.num * Nat.pow 10 (-e).toNat / (x.den * Nat.pow 10 e.toNat)
  let lower : Dec := ⟨below, e⟩
  let upper : Dec := ⟨below + 1, e⟩
  match x.readsBack lower, x.readsBack upper with
  | true, true =>
    if compareScaled (2 * x.num) x.den (2 * below + 1) e = .lt then some lower else some upper
  | true, false => some lower
  | false, true => some upper
  | false, false => none

def Dec.strip : Nat → Dec → Dec
  | 0, d => d
  | fuel + 1, d =>
    if d.digits % 10 = 0 && d.digits ≠ 0 then strip fuel ⟨d.digits / 10, d.exp + 1⟩ else d

/-- The fewest digits that read back, for a positive magnitude: ever finer grids are tried, from the
one of the leading digit on. The exact value stands behind the last grid. -/
def Binary.shortest (x : Binary) : Dec :=
  let k := scale x.num x.den
  match (List.range 17).findSome? fun (n : Nat) => x.onGrid (k - 1 - n) with
  | some d => d.strip 17
  | none => ⟨x.num * Nat.pow 5 (-x.q).toNat, -(-x.q).toNat⟩

end ComplementarityQP.Decimal
