import ComplementarityQP.Options
import Mathlib.Algebra.Order.Field.Basic
import Mathlib.Tactic.NormNum

/-! What valid options promise. -/
namespace ComplementarityQP

variable {K : Type}

theorem require_eq_ok {b : Bool} {f : Fault K} : require b f = .ok () ↔ b = true := by
  unfold require
  split <;> simp_all

theorem check_bind_eq_ok {α : Type} {c : Except (Fault K) Unit} {rest : Except (Fault K) α}
    {a : α} :
    (do c; rest) = .ok a ↔ c = .ok () ∧ rest = .ok a := by
  cases c with
  | error f => simp [bind, Except.bind]
  | ok u => simp [bind, Except.bind]

namespace Options
variable [Zero K] [Special K]

theorem requirePositive_eq_ok [LT K] [DecidableLT K] {name : String} {x : K} :
    requirePositive name x = .ok () ↔ 0 < x ∧ isFinite x = true := by
  unfold requirePositive
  split <;> simp_all

theorem requireNonNegative_eq_ok [LE K] [DecidableLE K] {name : String} {x : K} :
    requireNonNegative name x = .ok () ↔ 0 ≤ x ∧ isFinite x = true := by
  unfold requireNonNegative
  split <;> simp_all

variable [One K] [LT K] [LE K] [DecidableLT K] [DecidableLE K]

@[mk_iff]
structure Valid (o : Options K) : Prop where
  stationarityTol : 0 < o.stationarityTol ∧ isFinite o.stationarityTol = true
  complementarityTol : 0 < o.complementarityTol ∧ isFinite o.complementarityTol = true
  initialPenalty : 0 < o.initialPenalty ∧ isFinite o.initialPenalty = true
  shiftInitial : 0 < o.shiftInitial ∧ isFinite o.shiftInitial = true
  qpTol : 0 < o.qpTol ∧ isFinite o.qpTol = true
  stepTol : 0 ≤ o.stepTol ∧ isFinite o.stepTol = true
  meritTol : 0 ≤ o.meritTol ∧ isFinite o.meritTol = true
  penaltyGrowth : 1 < o.penaltyGrowth ∧ isFinite o.penaltyGrowth = true
  maxPenalty : o.initialPenalty ≤ o.maxPenalty ∧ isFinite o.maxPenalty = true
  limits : o.maxOuter ≠ 0 ∧ o.maxInner ≠ 0
  eta : o.window = 0 ∨ 0 < o.eta ∧ o.eta < 1
  shift : 1 < o.shiftGrowth ∧ o.shiftAttempts ≠ 0
  qpMaxIterations : o.qpMaxIterations ≠ 0
  timeLimit : ∀ limit, o.timeLimit = some limit → 0 < limit ∧ isFinite limit = true

theorem validate_eq_ok_iff {o : Options K} : o.validate = .ok () ↔ o.Valid := by
  rw [valid_iff]
  cases hlimit : o.timeLimit with
  | none =>
    simp only [validate, hlimit, check_bind_eq_ok, requirePositive_eq_ok, requireNonNegative_eq_ok,
      require_eq_ok, Bool.and_eq_true, Bool.or_eq_true, decide_eq_true_eq, reduceCtorEq,
      false_implies, implies_true]
  | some limit =>
    simp only [validate, hlimit, check_bind_eq_ok, requirePositive_eq_ok, requireNonNegative_eq_ok,
      require_eq_ok, Bool.and_eq_true, Bool.or_eq_true, decide_eq_true_eq, Option.some.injEq,
      forall_eq']

end Options

/-- The defaults pass, over any exact scalars. -/
theorem Options.valid_default [Field K] [LinearOrder K] [IsStrictOrderedRing K] [Special K]
    (hfinite : ∀ x : K, isFinite x = true) : (default : Options K).Valid := by
  constructor
  case timeLimit =>
    intro limit hlimit
    cases hlimit
  all_goals norm_num [default, epsilon, hfinite]

end ComplementarityQP
