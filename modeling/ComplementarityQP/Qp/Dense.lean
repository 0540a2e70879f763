import ComplementarityQP.Linear.Elimination
import ComplementarityQP.Linear.Rotation
import ComplementarityQP.Qp
import ComplementarityQP.Qp.DualActiveSet

/-! The dense solver. A hint is read as a guess of the active rows; if the point that it leads to is
optimal, no method need run. Otherwise the rows are split into half-spaces for the dual active set
method, and its multipliers are folded back into one per row. -/
namespace ComplementarityQP

variable {K : Type} {n m : Nat}

/-- The numerical methods that the dense solver is made of. -/
structure Engine (K : Type) where
  dual : {n k : Nat} → SplitQp K n k → Except DualFailure (DualSolution K n k)
  linear : {n : Nat} → Mat K n n → Vec K n → Option (Vec K n)
  fit : {m n : Nat} → Mat K m n → Vec K m → Vec K n

def Engine.standard : Engine Float where
  dual := SplitQp.solve
  linear := Mat.solve?
  fit A b := A.leastSquares 1e-14 b

namespace Qp

variable [Zero K] [Add K] [Sub K] [Neg K] [Mul K] [OfScientific K]

def foldSides (faces : List ((Fin m × RowSide) × K)) (i : Fin m) : K :=
  faces.foldl (fun s ((j, side), v) =>
    if j = i then
      match side with
      | .lower => s + v
      | .upper => s - v
      | .equality => s
    else s) 0

/-- `P x + q - Aᵀ y`. -/
def residual (qp : Qp K n m) (x : Vec K n) (y : Vec K m) : Vec K n :=
  qp.cost.gradient x - qp.rows.coeff.transposeMulVec y

/-- Multipliers of the rows. Those of equalities come without a sign, so they are fitted to what the
others leave of the gradient. -/
def rowMultipliers (e : Engine K) (qp : Qp K n m) (sp : Rows.Split m)
    (s : DualSolution K n sp.faces.length) :
    Vec K m :=
  let y : Vec K m := Vector.ofFn (foldSides (sp.faces.zip s.multipliers.toList))
  if sp.equalities.isEmpty then y
  else
    let normals : Mat K n sp.equalities.length :=
      Mat.ofFn fun j k => qp.rows.coeff (sp.equalities.get k) j
    let fitted := e.fit normals (qp.residual s.x y)
    (sp.equalities.zip fitted.toList).foldl (fun y (i, v) => Vec.put y i v) y

def failed (qp : Qp K n m) (status : QpStatus) : Answer K n m :=
  ⟨Vec.zero n, Vec.zero m, status, qp.objective (Vec.zero n), 0⟩

section Dense

variable [One K] [LT K] [LE K] [DecidableLT K] [DecidableLE K] [BEq K]

def cold (e : Engine K) (qp : Qp K n m) : Answer K n m :=
  match qp.rows.split with
  | none => qp.failed .infeasible
  | some sp =>
    match e.dual (qp.splitBy sp) with
    | .ok s => ⟨s.x, qp.rowMultipliers e sp s, .solved, qp.objective s.x, s.iterations⟩
    | .error .infeasible => qp.failed .infeasible
    | .error _ => qp.failed .numericalError

/-- The bound that a multiplier `y` points to in row `i`. -/
def guessRow (qp : Qp K n m) (i : Fin m) (y : K) : Option K :=
  if qp.rows.isEquality Rows.equalityTol i then (qp.rows.lower.get i).value?
  else if 0 < y && (qp.rows.lower.get i).isFinite then (qp.rows.lower.get i).value?
  else if y < 0 && (qp.rows.upper.get i).isFinite then (qp.rows.upper.get i).value?
  else none

def guess (qp : Qp K n m) (y : Vec K m) : List (Fin m × K) :=
  (List.finRange m).filterMap fun i => (qp.guessRow i (y.get i)).map fun b => (i, b)

/-- The optimality conditions with exactly the given rows active. -/
def activeSystem (qp : Qp K n m) (active : List (Fin m × K)) :
    Mat K (n + active.length) (n + active.length) :=
  Mat.ofFn (Fin.addCases
    (fun i => Fin.addCases (fun j => qp.cost.hess i j) fun j => -qp.rows.coeff (active.get j).1 i)
    fun i => Fin.addCases (fun j => qp.rows.coeff (active.get i).1 j) fun _ => 0)

def activeRhs (qp : Qp K n m) (active : List (Fin m × K)) : Vec K (n + active.length) :=
  (-qp.cost.lin).join (Vector.ofFn fun j => (active.get j).2)

def spread (active : List (Fin m × K)) (v : Vec K active.length) : Vec K m :=
  (active.zip v.toList).foldl (fun y ((i, _), v) => Vec.put y i v) (Vec.zero m)

def signKept (qp : Qp K n m) (tol : K) (i : Fin m) (guessed y : K) : Bool :=
  qp.rows.isEquality Rows.equalityTol i ||
    (if 0 < guessed then !decide (y < -tol) else !decide (tol < y))

def feasibilityTol : K := 1e-12

/-- The point at which the rows that the hint points to are active, if it is optimal. -/
def hot [Special K] (e : Engine K) (qp : Qp K n m) (hint : Hint K) : Option (Answer K n m) := do
  let guessed ← Vec.ofArray? m hint.y
  let active := qp.guess guessed
  guard (active.length ≤ n)
  let sol ← e.linear (qp.activeSystem active) (qp.activeRhs active)
  guard sol.allFinite
  let x : Vec K n := Vector.ofFn fun i => sol.get (i.castAdd active.length)
  let y := spread active (Vector.ofFn fun j => sol.get (j.natAdd n))
  guard (active.all fun (i, _) => qp.signKept (feasibilityTol * (1 + y.norm)) i (guessed.get i)
    (y.get i))
  guard (!decide (feasibilityTol * (1 + x.norm) < qp.rows.violation x))
  guard
    (!decide (1e-10 * (1 + (qp.cost.hess.mulVec x).norm + qp.cost.lin.norm) <
    (qp.residual x y).norm))
  pure ⟨x, y, .solved, qp.objective x, 0⟩

def dense [Special K] (e : Engine K) (qp : Qp K n m) (hint : Option (Hint K)) :
    Except (Fault K) (Answer K n m) := do
  qp.validate
  match hint.bind (qp.hot e) with
  | some a => pure a
  | none => pure (qp.cold e)

end Dense

end Qp

end ComplementarityQP
