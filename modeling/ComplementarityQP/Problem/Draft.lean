import ComplementarityQP.Problem

/-! Problems under construction. Nothing is checked until the problem is built; then the first fault
found, in a fixed order, is reported. -/
namespace ComplementarityQP

variable {K : Type}

structure Draft (K : Type) where
  hessian : AnyMat K
  gradient : Array K
  left : Option (AnyMat K) := none
  right : Option (AnyMat K) := none
  general : Option (AnyMat K) := none
  lbA : Option (Array (Bound K)) := none
  ubA : Option (Array (Bound K)) := none
  lb : Option (Array (Bound K)) := none
  ub : Option (Array (Bound K)) := none
  lbL : Option (Array (Bound K)) := none
  ubL : Option (Array (Bound K)) := none
  lbR : Option (Array (Bound K)) := none
  ubR : Option (Array (Bound K)) := none
  x0 : Option (Array K) := none
  y0 : Option (Array K) := none

namespace Draft

def withPairs (d : Draft K) (L R : AnyMat K) : Draft K := { d with left := some L, right := some R }

def withRows (d : Draft K) (A : AnyMat K) (lbA ubA : Option (Array (Bound K))) : Draft K :=
  { d with general := some A, lbA, ubA }

def withBox (d : Draft K) (lb ub : Option (Array (Bound K))) : Draft K := { d with lb, ub }

def withLower (d : Draft K) (lbL lbR : Array (Bound K)) : Draft K :=
  { d with lbL := some lbL, lbR := some lbR }

def withUpper (d : Draft K) (ubL ubR : Array (Bound K)) : Draft K :=
  { d with ubL := some ubL, ubR := some ubR }

/-- The Hessian may differ from its transpose by this much, relative to its largest entry. -/
def symmetryTol [OfScientific K] : K := 1e-10

def checkShape (name : String) (A : AnyMat K) (m n : Nat) : Except (Fault K) (Mat K m n) :=
  match A.ofShape? m n with
  | some A => .ok A
  | none => .error (.shape name m n A.rows A.cols)

/-- Bounds of the right length without a NaN; all `dflt` if none are given. -/
def checkBounds [Special K] (name : String) (given : Option (Array (Bound K))) (n : Nat)
    (dflt : Bound K) :
    Except (Fault K) (Vec (Bound K) n) :=
  match given with
  | none => .ok (Vector.replicate n dflt)
  | some bs =>
    match Vec.ofArray? n bs with
    | none => .error (.length name bs.size n)
    | some v =>
      match (List.finRange n).find? fun i => (v.get i).isNaN with
      | some i => .error (.nanBound name i)
      | none => .ok v

def checkOrdered [LT K] [DecidableLT K] {n : Nat} (lowName highName : String)
    (low high : Vec (Bound K) n) :
    Except (Fault K) Unit :=
  match (List.finRange n).find? fun i => (high.get i).below (low.get i) with
  | some i => .error (.crossed lowName highName i (low.get i) (high.get i))
  | none => .ok ()

def checkClosed [Zero K] {n : Nat} (name : String) (low : Vec (Bound K) n) :
    Except (Fault K) (Vec K n) :=
  match (List.finRange n).find? fun i => !(low.get i).isFinite with
  | some i => .error (.openLower name i (low.get i))
  | none => .ok (low.map fun b => b.value?.getD 0)

def boxed {n : Nat} (lb ub : Vec (Bound K) n) : List (Fin n) :=
  (List.finRange n).filter fun i => (lb.get i).isFinite || (ub.get i).isFinite

def boxRows [Zero K] [One K] {n : Nat} (lb ub : Vec (Bound K) n) :
    Rows K (boxed lb ub).length n where
  coeff := Mat.ofFn fun k j => if (boxed lb ub).get k = j then 1 else 0
  lower := Vector.ofFn fun k => lb.get ((boxed lb ub).get k)
  upper := Vector.ofFn fun k => ub.get ((boxed lb ub).get k)

def checkPairs [Zero K] (d : Draft K) : Except (Fault K) (AnyMat K × AnyMat K) :=
  match d.left, d.right with
  | some L, some R => .ok (L, R)
  | none, none => .ok (.empty d.gradient.size, .empty d.gradient.size)
  | _, _ => .error .unpaired

section Build

variable [Zero K] [One K] [Add K] [Sub K] [Neg K] [Mul K] [LT K] [LE K] [DecidableLT K]
  [DecidableLE K] [OfScientific K] [Special K]

def checkObjective (d : Draft K) : Except (Fault K) (Mat K d.gradient.size d.gradient.size) := do
  let n := d.gradient.size
  require (n ≠ 0) .noVariables
  let Q ← checkShape "Q" d.hessian n n
  require Q.allFinite (.nonFinite "Q")
  require (d.gradient.all isFinite) (.nonFinite "g")
  require (!decide (symmetryTol * atLeast 1 Q.norm < Q.asymmetry)) (.asymmetric Q.asymmetry)
  pure Q

def build (d : Draft K) : Except (Fault K) (Problem K) := do
  let n := d.gradient.size
  let Q ← d.checkObjective
  let (L, R) ← d.checkPairs
  let pairs := L.rows
  let L ← checkShape "L" L pairs n
  let R ← checkShape "R" R pairs n
  require L.allFinite (.nonFinite "L")
  require R.allFinite (.nonFinite "R")
  let A := d.general.getD (.empty n)
  let m := A.rows
  let A ← checkShape "A" A m n
  require A.allFinite (.nonFinite "A")
  let lbA ← checkBounds "lbA" d.lbA m .negInf
  let ubA ← checkBounds "ubA" d.ubA m .posInf
  checkOrdered "lbA" "ubA" lbA ubA
  let lb ← checkBounds "lb" d.lb n .negInf
  let ub ← checkBounds "ub" d.ub n .posInf
  checkOrdered "lb" "ub" lb ub
  let lbL ← checkBounds "lbL" d.lbL pairs (.at 0)
  let ubL ← checkBounds "ubL" d.ubL pairs .posInf
  let lbR ← checkBounds "lbR" d.lbR pairs (.at 0)
  let ubR ← checkBounds "ubR" d.ubR pairs .posInf
  let lowL ← checkClosed "lbL" lbL
  let lowR ← checkClosed "lbR" lbR
  checkOrdered "lbL" "ubL" lbL ubL
  checkOrdered "lbR" "ubR" lbR ubR
  let p : Problem K :=
    { vars := n, rows := m + (boxed lb ub).length, pairs
      quad := Q, lin := d.gradient.toVector
      general := Rows.stack ⟨A, lbA, ubA⟩ (boxRows lb ub)
      left := ⟨L, lowL, ubL⟩, right := ⟨R, lowR, ubR⟩
      x0 := none, y0 := none }
  p.withStart d.x0 d.y0

end Build

end Draft

end ComplementarityQP
