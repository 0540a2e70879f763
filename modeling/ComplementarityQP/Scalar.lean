/-! Scalars. The solver is written once, over any type with the arithmetic and the order that it
uses. It runs on 64-bit floats and is reasoned about in ordered fields. -/
namespace ComplementarityQP

/-- Tells proper numbers from the special values of a float format. An exact scalar has none. -/
class Special (K : Type) where
  isFinite : K → Bool
  isNaN : K → Bool

export Special (isFinite isNaN)

instance : Special Float where
  isFinite := Float.isFinite
  isNaN := Float.isNaN

/-- Square roots, needed by factorizations only. -/
class Root (K : Type) where
  sqrt : K → K

instance : Root Float := ⟨Float.sqrt⟩

variable {K : Type}

def magnitude [Zero K] [Neg K] [LT K] [DecidableLT K] (x : K) : K :=
  if x < 0 then -x else x

/-- The larger of `low` and `x`; `low` if they cannot be compared. -/
def atLeast [LT K] [DecidableLT K] (low x : K) : K :=
  if low < x then x else low

/-- The smaller of `high` and `x`; `high` if they cannot be compared. -/
def atMost [LT K] [DecidableLT K] (high x : K) : K :=
  if x < high then x else high

/-- The smaller of two scalars; of a number and a NaN, the number. -/
def lesser [LT K] [DecidableLT K] [Special K] (x y : K) : K :=
  if x < y then x else if isNaN y then x else y

def clamp [LT K] [DecidableLT K] (low high x : K) : K :=
  if x < low then low else if high < x then high else x

/-- The gap between 1 and the next 64-bit float, `2 ^ (-52)`. -/
def epsilon [OfScientific K] : K :=
  2.220446049250313080847263336181640625e-16

end ComplementarityQP
