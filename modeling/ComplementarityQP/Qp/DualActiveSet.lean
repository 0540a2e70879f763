import ComplementarityQP.Linear.Cholesky
import ComplementarityQP.Qp.Split

/-! The dual active set method for strictly convex programs. From the unconstrained minimum, one
violated constraint after another is made active, while the multipliers of the active ones stay
non-negative. -/
namespace ComplementarityQP

variable {K : Type} {n k : Nat}

structure DualSolution (K : Type) (n k : Nat) where
  x : Vec K n
  /-- Magnitudes of the multipliers, 0 for constraints that are not active. -/
  multipliers : Vec K k
  /-- The number of constraints that were made active. -/
  iterations : Nat

inductive DualFailure where
  | notDefinite
  | infeasible
  /-- The method went on for too long. -/
  | stalled
deriving Repr, DecidableEq

/-- Vectors `J` with `Jᵀ P J = I`. The first of them span the active normals, which they express by
a triangular matrix; its columns are kept with the latest first, each from the diagonal up. -/
structure Basis (K : Type) (n : Nat) where
  vectors : List (Vec K n)
  triangle : List (List K)

namespace Basis

variable [Zero K] [One K] [Add K] [Sub K] [Neg K] [Mul K] [Div K] [LT K] [DecidableLT K] [Root K]

def ofFactor (L : Mat K n n) : Basis K n where
  vectors := (List.finRange n).foldl (fun rows j =>
    let unit : Vec K n := Vector.ofFn fun i => if i = j then 1 else 0
    let rest := (rows.zip (L.row j).toList).foldl (fun v (r, c) => v.shift (-c) r) unit
    rows ++ [rest.map (· / L j j)]) []
  triangle := []

/-- Rotates weighted vectors so that the whole weight falls on the first. -/
def concentrate : List (K × Vec K n) → List (K × Vec K n)
  | [] => []
  | (d, v) :: rest =>
    match concentrate rest with
    | [] => [(d, v)]
    | (e, w) :: others =>
      if e < 0 || 0 < e then
        let h := Root.sqrt (d * d + e * e)
        let c := d / h
        let s := e / h
        (h, (v.scale c).shift s w) :: (0, (w.scale c).shift (-s) v) :: others
      else (d, v) :: (e, w) :: others

def add (b : Basis K n) (normal : Vec K n) : Basis K n :=
  let size := b.triangle.length
  let weights := b.vectors.map normal.dot
  let free := concentrate ((weights.drop size).zip (b.vectors.drop size))
  match free with
  | [] => b
  | (d, _) :: _ =>
    ⟨b.vectors.take size ++ free.map Prod.snd, (d :: (weights.take size).reverse) :: b.triangle⟩

/-- Solves with the triangle: columns and right-hand side both come latest first. -/
def backSolve : List (List K) → List K → List K
  | (c :: cs) :: cols, d :: ds =>
    let r := d / c
    r :: backSolve cols (ds.zipWith (fun d c => d - r * c) cs)
  | _, _ => []

/-- The direction along which `normal` gains most while the active normals gain nothing, and the
combination of the active normals that it leaves. -/
def directions (b : Basis K n) (normal : Vec K n) : Vec K n × List K :=
  let size := b.triangle.length
  let weights := b.vectors.map normal.dot
  let z := ((weights.zip b.vectors).drop size).foldl (fun z (d, v) => z.shift d v) (Vec.zero n)
  (z, (backSolve b.triangle (weights.take size).reverse).reverse)

end Basis

namespace SplitQp

/-- The point reached, and the active constraints with their multipliers, oldest first. -/
structure State (K : Type) (n k : Nat) where
  x : Vec K n
  active : List (Fin k × K)
  iterations : Nat

section Method

variable [Zero K] [One K] [Add K] [Sub K] [Neg K] [Mul K] [Div K] [LT K] [LE K] [DecidableLT K]
  [DecidableLE K] [OfScientific K] [Root K]

/-- Violations up to this are rounding. -/
def slackTol : K := 2.22e-16

def slack (prog : SplitQp K n k) (x : Vec K n) (i : Fin k) : K :=
  prog.rhs.get i - (prog.normals.row i).dot x

def length (prog : SplitQp K n k) (i : Fin k) : K :=
  Root.sqrt ((prog.normals.row i).dot (prog.normals.row i))

/-- The most violated constraint, relative to the length of its normal, and its slack. -/
def mostViolated (prog : SplitQp K n k) (st : State K n k) : Option (Fin k × K) :=
  ((List.finRange k).foldl (fun (pick : Option (Fin k × K) × K) i =>
    let s := if st.active.any (·.1 = i) then 0 else prog.slack st.x i
    let len := prog.length i
    if s < -(pick.2 * len) - slackTol then (some (i, s), -s / len)
    else if i.val < prog.equalities && pick.2 * len + slackTol < s then (some (i, s), s / len)
    else pick) (none, 0)).1

/-- The first active inequality whose multiplier vanishes, and how far along that is. -/
def blocking (prog : SplitQp K n k) (reverse : Bool) (active : List (Fin k × K)) (r : List K) :
    Option (Fin k × K) :=
  (active.zip r).foldl (fun best ((i, u), r) =>
    if i.val < prog.equalities then best
    else if (if reverse then r < 0 else 0 < r) then
      let t := u / magnitude r
      match best with
      | some (_, t') => if t < t' then some (i, t) else best
      | none => some (i, t)
    else best) none

inductive Move (K : Type) (n k : Nat) where
  /-- The constraint is active. -/
  | reached (st : State K n k)
  /-- Another constraint was in the way and has been dropped; `u` is the multiplier so far. -/
  | dropped (st : State K n k) (u : K)

/-- One step towards making constraint `i`, with slack `s` and multiplier `u`, active: along the
direction that the active constraints leave free, until `i` holds with equality or the multiplier of
an active constraint vanishes. -/
def move (prog : SplitQp K n k) (origin : Basis K n) (i : Fin k) (reverse : Bool) (s u : K)
    (st : State K n k) : Except DualFailure (Move K n k) :=
  let inward (j : Fin k) := (prog.normals.row j).map (- ·)
  let basis := st.active.foldl (fun b a => b.add (inward a.1)) origin
  let (z, r) := basis.directions (inward i)
  let full := if z.dot z ≤ slackTol then none else some (magnitude s / z.dot (inward i))
  let advance (t : K) : State K n k × K :=
    let t := if reverse then -t else t
    ({ st with x := st.x.shift t z, active := st.active.zipWith (fun (j, v) r =>
      (j, v - t * r)) r }, u + t)
  let join (t : K) : Move K n k :=
    let (st, u) := advance t
    .reached { st with active := st.active ++ [(i, u)] }
  let drop (j : Fin k) (t : K) : Move K n k :=
    let (st, u) := advance t
    .dropped { st with active := st.active.filter (·.1 ≠ j) } u
  match full, prog.blocking reverse st.active r with
  | none, none => .error .infeasible
  | some t, none => .ok (join t)
  | none, some (j, t) => .ok (drop j t)
  | some t, some (j, t') => .ok (if t' < t then drop j t' else join t)

/-- Moves until constraint `i` is active. Each step but the last drops a constraint. -/
def activate (prog : SplitQp K n k) (origin : Basis K n) (i : Fin k) (reverse : Bool) :
    Nat → K → K → State K n k → Except DualFailure (State K n k)
  | 0, _, _, _ => .error .stalled
  | fuel + 1, s, u, st => do
    match ← prog.move origin i reverse s u st with
    | .reached st => .ok st
    | .dropped st u => activate prog origin i reverse fuel (prog.slack st.x i) u st

def loop (prog : SplitQp K n k) (origin : Basis K n) : Nat → State K n k →
    Except DualFailure (State K n k)
  | 0, _ => .error .stalled
  | fuel + 1, st =>
    match prog.mostViolated st with
    | none => .ok st
    | some (i, s) => do
      let st := { st with iterations := st.iterations + 1 }
      let st ← prog.activate origin i (0 < s) (st.active.length + 1) s 0 st
      loop prog origin fuel st

def budget (k : Nat) : Nat := 1000 * (k + 1)

def solve (prog : SplitQp K n k) : Except DualFailure (DualSolution K n k) :=
  match prog.cost.hess.cholesky? with
  | none => .error .notDefinite
  | some L => do
    let origin := Basis.ofFactor L
    let x := origin.vectors.foldl (fun x v => x.shift (-(v.dot prog.cost.lin)) v) (Vec.zero n)
    let st ← prog.loop origin (budget k) ⟨x, [], 0⟩
    let multipliers : Vec K k := Vector.ofFn fun i =>
      ((st.active.find? (·.1 = i)).elim 0 fun a => magnitude a.2)
    pure ⟨st.x, multipliers, st.iterations⟩

end Method

end SplitQp

end ComplementarityQP
