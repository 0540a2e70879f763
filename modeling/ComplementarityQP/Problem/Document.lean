import ComplementarityQP.Columns
import ComplementarityQP.Json.Reader
import ComplementarityQP.Problem.Draft

/-! Problems as JSON documents. JSON has no infinity, so an absent bound is null. -/
namespace ComplementarityQP

structure Document (K : Type) where
  hessian : Payload K
  gradient : Array K
  left : Option (Payload K)
  right : Option (Payload K)
  general : Option (Payload K)
  lbA : Option (List (Option K))
  ubA : Option (List (Option K))
  lb : Option (List (Option K))
  ub : Option (List (Option K))
  lbL : Option (List K)
  ubL : Option (List (Option K))
  lbR : Option (List K)
  ubR : Option (List (Option K))
  x0 : Option (Array K)
  y0 : Option (Array K)

namespace Document

variable {K : Type}

def nullable (dflt : Bound K) (bs : List (Option K)) : Array (Bound K) :=
  (bs.map fun b => b.elim dflt .at).toArray

def closed (bs : List K) : Array (Bound K) := (bs.map Bound.at).toArray

/-- The draft that a document describes. Row bounds count only beside their rows. -/
def draft [Zero K] [Add K] (d : Document K) : Except (Fault K) (Draft K) := do
  let hessian ← d.hessian.toMat "Q"
  let base : Draft K := { hessian, gradient := d.gradient }
  let base ← match d.left, d.right with
    | some L, some R => do
      let L ← L.toMat "L"
      let R ← R.toMat "R"
      pure (base.withPairs L R)
    | none, none => pure base
    | _, _ => .error .unpaired
  let base ← match d.general with
    | some A => do
      let A ← A.toMat "A"
      pure (base.withRows A (d.lbA.map (nullable .negInf)) (d.ubA.map (nullable .posInf)))
    | none => pure base
  pure { base with
    lb := d.lb.map (nullable .negInf), ub := d.ub.map (nullable .posInf)
    lbL := d.lbL.map closed, lbR := d.lbR.map closed
    ubL := d.ubL.map (nullable .posInf), ubR := d.ubR.map (nullable .posInf)
    x0 := d.x0, y0 := d.y0 }

def names : List (List String) :=
  [["hessian", "Q"], ["gradient", "g"], ["left", "L", "S1"], ["right", "R", "S2"],
   ["constraints", "A"], ["lb_a", "lbA"], ["ub_a", "ubA"], ["lb"], ["ub"], ["lb_left", "lbL"],
   ["ub_left", "ubL"], ["lb_right", "lbR"], ["ub_right", "ubR"], ["x0"], ["y0"]]

def fields : List String :=
  ["hessian", "gradient", "left", "right", "constraints", "lb_a", "ub_a", "lb", "ub", "lb_left",
   "ub_left", "lb_right", "ub_right", "x0", "y0"]

def encode (num : K → Json) (d : Document K) : Json :=
  let matrix := Json.opt (Payload.encode num)
  let bounds := Json.opt (Json.list (Json.opt num))
  let closed := Json.opt (Json.list num)
  let vector := Json.opt (Json.array num)
  .record (fields.zip [
    d.hessian.encode num, Json.array num d.gradient, matrix d.left, matrix d.right,
    matrix d.general, bounds d.lbA, bounds d.ubA, bounds d.lb, bounds d.ub, closed d.lbL,
    bounds d.ubL, closed d.lbR, bounds d.ubR, vector d.x0, vector d.y0])

def decode (v : Json) : Option (Document Float) := do
  let [q, g, l, r, a, lbA, ubA, lb, ub, lbL, ubL, lbR, ubR, x0, y0] ← Json.slots names v | none
  let matrix (s : Json.Slot) := s.orElse none (Json.asOption (Payload.decode 1))
  let bounds (s : Json.Slot) :=
    s.orElse none (Json.asOption (Json.asList (Json.asOption Json.asFloat)))
  let closed (s : Json.Slot) := s.orElse none (Json.asOption (Json.asList Json.asFloat))
  let vector (s : Json.Slot) := s.orElse none (Json.asOption (Json.asArray Json.asFloat))
  pure {
    hessian := ← q.required (Payload.decode 1)
    gradient := ← g.required (Json.asArray Json.asFloat)
    left := ← matrix l
    right := ← matrix r
    general := ← matrix a
    lbA := ← bounds lbA
    ubA := ← bounds ubA
    lb := ← bounds lb
    ub := ← bounds ub
    lbL := ← closed lbL
    ubL := ← bounds ubL
    lbR := ← closed lbR
    ubR := ← bounds ubR
    x0 := ← vector x0
    y0 := ← vector y0 }

end Document

def Problem.ofText (s : String) : Except (Fault Float) (Problem Float) :=
  match Json.parse? s >>= Document.decode with
  | none => .error .malformedText
  | some d => do (← d.draft).build

/-- Reads a problem from the content of a file; `none` if there is no such file. -/
def Problem.ofFile : Option String → Except (Fault Float) (Problem Float)
  | none => .error .missingFile
  | some s => Problem.ofText s

end ComplementarityQP
