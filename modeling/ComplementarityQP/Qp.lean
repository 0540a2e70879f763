import ComplementarityQP.Fault
import ComplementarityQP.Status

/-! Convex quadratic programs `min ½ xᵀ P x + qᵀ x` subject to `l ≤ A x ≤ u`, and answers to
them. -/
namespace ComplementarityQP

variable {K : Type} {n m : Nat}

structure Qp (K : Type) (n m : Nat) where
  cost : Quadratic K n
  rows : Rows K m n

namespace Qp

def validate [LT K] [DecidableLT K] [Special K] (qp : Qp K n m) : Except (Fault K) Unit :=
  (List.finRange m).forM fun i =>
    let l := qp.rows.lower.get i
    let u := qp.rows.upper.get i
    if l.isNaN || u.isNaN then .error (.nanRow i)
    else if u.below l then .error (.crossedRow i l u)
    else .ok ()

def objective [Zero K] [Add K] [Mul K] [OfScientific K] (qp : Qp K n m) (x : Vec K n) : K :=
  qp.cost.value x

end Qp

/-- A quadratic program whose parts need not fit together. -/
structure RawQp (K : Type) where
  P : AnyMat K
  q : Array K
  A : AnyMat K
  l : Array (Bound K)
  u : Array (Bound K)

namespace RawQp

def unconstrained [Zero K] (P : AnyMat K) (q : Array K) : RawQp K := ⟨P, q, .empty q.size, #[], #[]⟩

def shaped (r : RawQp K) : Except (Fault K) (Qp K r.q.size r.l.size) :=
  match r.P.ofShape? r.q.size r.q.size, r.A.ofShape? r.l.size r.q.size,
    Vec.ofArray? r.l.size r.u with
  | none, _, _ => .error (.shape "P" r.q.size r.q.size r.P.rows r.P.cols)
  | _, none, _ => .error (.shape "A" r.l.size r.q.size r.A.rows r.A.cols)
  | _, _, none => .error (.boundLengths r.u.size r.l.size)
  | some P, some A, some u => .ok ⟨⟨P, r.q.toVector⟩, ⟨A, r.l.toVector, u⟩⟩

end RawQp

/-- What a solver says. The multipliers satisfy `P x + q - Aᵀ y = 0`: positive at a lower bound,
negative at an upper one. -/
structure Answer (K : Type) (n m : Nat) where
  x : Vec K n
  y : Vec K m
  status : QpStatus
  objective : K
  iterations : Nat

/-- A starting point that a solver may use or ignore. -/
structure Hint (K : Type) where
  x : Array K
  y : Array K

namespace Answer

def fields : List String := ["x", "y", "status", "objective", "iterations"]

def encode (num : K → Json) (a : Answer K n m) : Json :=
  .record (fields.zip [Json.array num a.x.toArray, Json.array num a.y.toArray, a.status.encode,
    num a.objective, .nat a.iterations])

def decode (v : Json) : Option ((n m : Nat) × Answer Float n m) := do
  let [x, y, s, o, i] ← Json.slots (Json.keys fields) v | none
  let x ← x.required (Json.asArray Json.asFloat)
  let y ← y.required (Json.asArray Json.asFloat)
  pure ⟨x.size, y.size, x.toVector, y.toVector, ← s.required QpStatus.decode,
    ← o.required Json.asFloat, ← i.required Json.asSize⟩

end Answer

end ComplementarityQP
