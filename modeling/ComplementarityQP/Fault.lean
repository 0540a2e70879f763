import ComplementarityQP.Bound
import ComplementarityQP.Decimal.Text

/-! What can be wrong with data handed to the library. Each cause carries what its message shows. -/
namespace ComplementarityQP

inductive Fault (K : Type) where
  /-- The problem has no variables. -/
  | noVariables
  /-- A matrix is not `rows × cols`. -/
  | shape (name : String) (rows cols gotRows gotCols : Nat)
  /-- One side of the complementarity pairs is missing. -/
  | unpaired
  | length (name : String) (got expected : Nat)
  /-- The two bound vectors of a quadratic program differ in length. -/
  | boundLengths (upper lower : Nat)
  | startLength (name : String) (got expected : Nat)
  | valueCount (name : String) (got rows cols : Nat)
  | malformedColumns (name : String) (rows cols : Nat)
  | nanBound (name : String) (i : Nat)
  | crossed (lowName highName : String) (i : Nat) (low high : Bound K)
  /-- A lower complementarity bound is infinite. -/
  | openLower (name : String) (i : Nat) (got : Bound K)
  | nanRow (i : Nat)
  | crossedRow (i : Nat) (low high : Bound K)
  | nonFinite (name : String)
  | startNonFinite (name : String)
  | asymmetric (gap : K)
  | notPositive (option : String) (got : K)
  | negative (option : String) (got : K)
  | growthFactor (got : K)
  | maxPenalty (got initial : K)
  | iterationLimits
  | decreaseFactor (got : K)
  | regularizationOptions
  | qpIterations
  | badPenalty (got : K)
  | backend (reason : String)
  /-- No shift made the Hessian acceptable. -/
  | regularization (attempts : Nat) (lastShift : K)
  /-- A text is not JSON, or not of the wanted type. -/
  | malformedText
  | missingFile
  /-- The operation is not defined at the shape it was given. -/
  | undefinedShape

inductive FaultKind where
  | dimensions | bounds | nonFinite | asymmetric | options | backend | regularization | text | file
  | undefined
deriving Repr, DecidableEq

def require {K : Type} (b : Bool) (f : Fault K) : Except (Fault K) Unit :=
  if b then .ok () else .error f

namespace Fault

variable {K : Type}

def kind : Fault K → FaultKind
  | noVariables | shape .. | unpaired | length .. | boundLengths .. | startLength .. | valueCount ..
  | malformedColumns .. => .dimensions
  | nanBound .. | crossed .. | openLower .. | nanRow .. | crossedRow .. => .bounds
  | nonFinite .. | startNonFinite .. => .nonFinite
  | asymmetric .. => .asymmetric
  | notPositive .. | negative .. | growthFactor .. | maxPenalty .. | iterationLimits
  | decreaseFactor .. | regularizationOptions | qpIterations | badPenalty .. => .options
  | backend .. => .backend
  | regularization .. => .regularization
  | malformedText => .text
  | missingFile => .file
  | undefinedShape => .undefined

/-- Does the fault lie in the problem data, as opposed to options, backend or environment? -/
def isInput (f : Fault K) : Bool :=
  match f.kind with
  | .dimensions | .bounds | .asymmetric | .nonFinite => true
  | _ => false

end Fault

def FaultKind.title : FaultKind → String
  | .dimensions => "Invalid dimensions"
  | .bounds => "Malformed bounds"
  | .nonFinite => "Non-finite data"
  | .asymmetric => "Hessian is not symmetric"
  | .options => "Invalid options"
  | .backend => "QP backend error"
  | .regularization => "Regularization failed"
  | .text => "Serialization error"
  | .file => "IO error"
  | .undefined => "Undefined shape"

namespace Fault

open Decimal (plain scientific)

def boundText : Bound Float → String
  | .negInf => "-inf"
  | .at v => plain v
  | .posInf => "inf"

def detail : Fault Float → String
  | noVariables => "problem has no variables"
  | shape name r c gr gc => s!"{name} must be {r}x{c}, got {gr}x{gc}"
  | unpaired => "L and R must be given together"
  | length name got expected => s!"{name} has length {got}, expected {expected}"
  | boundLengths upper lower => s!"u length {upper} != l length {lower}"
  | startLength name got expected => s!"warm start {name} has length {got}, expected {expected}"
  | valueCount name got r c => s!"{name}: {got} values for a {r}x{c} matrix"
  | malformedColumns name r c => s!"{name}: malformed CSC structure for a {r}x{c} matrix"
  | nanBound name i => s!"{name}[{i}] is NaN"
  | crossed l h i low high => s!"{l}[{i}] = {boundText low} > {h}[{i}] = {boundText high}"
  | openLower name i got => s!"{name}[{i}] must be finite, got {boundText got}"
  | nanRow i => s!"row {i} has a NaN bound"
  | crossedRow i low high => s!"row {i}: l = {boundText low} > u = {boundText high}"
  | nonFinite name => s!"{name} has NaN or infinite entries"
  | startNonFinite name => s!"warm start {name} has non-finite entries"
  | asymmetric gap => s!"max |Q_ij - Q_ji| = {scientific gap}"
  | notPositive o got => s!"{o} must be positive and finite, got {plain got}"
  | negative o got => s!"{o} must be non-negative and finite, got {plain got}"
  | growthFactor got => s!"penalty_growth_factor must be finite and > 1, got {plain got}"
  | maxPenalty got initial =>
    s!"max_penalty ({plain got}) must be finite and >= initial_penalty ({plain initial})"
  | iterationLimits => "iteration limits must be at least 1"
  | decreaseFactor got => s!"dynamic_penalty_eta must lie in (0, 1), got {plain got}"
  | regularizationOptions => "regularization needs growth > 1 and at least one attempt"
  | qpIterations => "qp_max_iterations must be at least 1"
  | badPenalty got => s!"penalty must be finite and nonnegative, got {plain got}"
  | backend reason => reason
  | regularization attempts lastShift =>
    s!"Q not acceptable after {attempts} attempts (last shift {scientific lastShift})"
  | malformedText => "malformed document"
  | missingFile => "no such file"
  | undefinedShape => "undefined"

def message (f : Fault Float) : String := s!"{f.kind.title}: {f.detail}"

end Fault

end ComplementarityQP
