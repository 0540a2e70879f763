import ComplementarityQP.Problem.Draft
import ComplementarityQP.Proofs.Options
import ComplementarityQP.Proofs.Rows
import Mathlib.Tactic.IntervalCases

/-! From a draft to a problem. Main statement: a point violates nothing in the problem exactly if it
keeps all rows, box bounds and pair bounds of the draft, where two bounds that are the same infinity
ask for nothing. -/
namespace ComplementarityQP

variable {K : Type} {m n : Nat}

theorem bind_eq_ok {ε α β : Type} {c : Except ε α} {rest : α → Except ε β} {b : β} :
    (c >>= rest) = .ok b ↔ ∃ a, c = .ok a ∧ rest a = .ok b := by
  cases c with
  | error e => simp [bind, Except.bind]
  | ok a => simp [bind, Except.bind]

theorem exists_ok_of_any {ε α : Type} {c : Except ε α} {test : α → Bool}
    (h : c.toOption.any test = true) :
    ∃ a, c = .ok a ∧ test a = true := by
  cases c with
  | error e => cases h
  | ok a => exact ⟨a, rfl, h⟩

theorem find?_finRange_eq_none {test : Fin n → Bool} :
    (List.finRange n).find? test = none ↔ ∀ i, test i = false := by
  simp [List.find?_eq_none]

theorem Vec.toArray_of_ofArray? {xs : Array K} {v : Vec K n} (h : ofArray? n xs = some v) :
    v.toArray = xs := by
  unfold ofArray? at h
  split at h
  · cases h
    rfl
  · cases h

theorem Problem.withStart_eq_ok [Special K] {p p' : Problem K} {x0 y0 : Option (Array K)}
    (h : p.withStart x0 y0 = .ok p') : ∃ x y, p' = { p with x0 := x, y0 := y } := by
  unfold withStart at h
  simp only [bind_eq_ok, pure, Except.pure] at h
  obtain ⟨x, -, y, -, hp⟩ := h
  cases hp
  exact ⟨x, y, rfl⟩

namespace Bound

/-- Is `b` a lower end that keeps `x` out, or the reverse? -/
def IsLower [LE K] (b : Bound K) (x : K) : Prop :=
  match b with
  | .negInf => True
  | .at v => v ≤ x
  | .posInf => False

def IsUpper [LE K] (b : Bound K) (x : K) : Prop :=
  match b with
  | .negInf => False
  | .at v => x ≤ v
  | .posInf => True

def Encloses [LE K] (lower upper : Bound K) (v : K) : Prop := lower.IsLower v ∧ upper.IsUpper v

def SameInfinity (lower upper : Bound K) : Prop :=
  lower = .negInf ∧ upper = .negInf ∨ lower = .posInf ∧ upper = .posInf

/-- What two ends ask of `v`: to lie between them, or nothing if they are the same infinity. -/
def Admits [LE K] (lower upper : Bound K) (v : K) : Prop :=
  lower.Encloses upper v ∨ lower.SameInfinity upper

/-- Of two ends in order, an infinite one on the wrong side comes with its like. -/
theorem keeps_iff [LE K] [LT K] [DecidableLT K] {lower upper : Bound K}
    (h : upper.below lower = false) {v : K} :
    lower.Keeps upper v ↔ lower.Admits upper v := by
  cases lower <;> cases upper <;>
    simp_all [Keeps, Admits, Encloses, SameInfinity, IsLower, IsUpper, below]

end Bound

def Rows.Each [Zero K] [Add K] [Mul K] (r : Rows K m n) (P : Bound K → Bound K → K → Prop)
    (x : Vec K n) : Prop :=
  ∀ i, P (r.lower.get i) (r.upper.get i) ((r.coeff.mulVec x).get i)

namespace Draft

section Checks
variable {name : String}

theorem checkShape_eq_ok {A : AnyMat K} {M : Mat K m n} :
    checkShape name A m n = .ok M ↔ A = ⟨m, n, M⟩ := by
  obtain ⟨r, c, N⟩ := A
  unfold checkShape AnyMat.ofShape?
  by_cases h : r = m ∧ c = n
  · obtain ⟨rfl, rfl⟩ := h
    simp
  · simp only [h, dite_false, reduceCtorEq, false_iff, AnyMat.mk.injEq]
    rintro ⟨hr, hc, -⟩
    exact h ⟨hr, hc⟩

theorem checkBounds_eq_ok [Special K] {given : Option (Array (Bound K))} {dflt : Bound K}
    {v : Vec (Bound K) n} (h : checkBounds name given n dflt = .ok v) :
    v.toArray = given.getD (Array.replicate n dflt) := by
  cases given with
  | none =>
    cases h
    rfl
  | some bs =>
    simp only [checkBounds] at h
    split at h
    · cases h
    · rename_i hsize
      split at h
      · cases h
      · cases h
        exact Vec.toArray_of_ofArray? hsize

theorem checkOrdered_eq_ok [LT K] [DecidableLT K] {highName : String} {low high : Vec (Bound K) n} :
    checkOrdered name highName low high = .ok () ↔ ∀ i, (high.get i).below (low.get i) = false := by
  unfold checkOrdered
  rw [← find?_finRange_eq_none]
  split <;> simp_all

theorem checkClosed_eq_ok [Zero K] {v : Vec (Bound K) n} {low : Vec K n}
    (h : checkClosed name v = .ok low) :
    v = low.map .at := by
  unfold checkClosed at h
  split at h
  · cases h
  · rename_i hnone
    cases h
    apply Vec.ext_get
    intro i
    have hfinite := find?_finRange_eq_none.mp hnone i
    cases hi : v.get i <;> simp_all [Bound.isFinite, Bound.value?, Vec.get_eq_getElem]

theorem checkPairs_eq_ok [Zero K] {d : Draft K} {L R : AnyMat K} (h : d.checkPairs = .ok (L, R)) :
    d.left.getD (.empty d.gradient.size) = L ∧ d.right.getD (.empty d.gradient.size) = R := by
  unfold checkPairs at h
  split at h
  · cases h
    simp_all
  · cases h
    simp_all
  · cases h

end Checks

section Build
variable [Zero K] [One K] [Add K] [Sub K] [Neg K] [Mul K] [LT K] [LE K] [DecidableLT K]
  [DecidableLE K] [OfScientific K] [Special K]

/-- The data of a draft that passes its checks. -/
structure Checked (d : Draft K) where
  rows : Nat
  pairs : Nat
  quad : Mat K d.gradient.size d.gradient.size
  general : Rows K rows d.gradient.size
  lb : Vec (Bound K) d.gradient.size
  ub : Vec (Bound K) d.gradient.size
  left : Side K pairs d.gradient.size
  right : Side K pairs d.gradient.size
  objective : d.checkObjective = .ok quad
  sides : d.checkPairs = .ok (⟨pairs, _, left.coeff⟩, ⟨pairs, _, right.coeff⟩)
  generalRows : d.general.getD (.empty d.gradient.size) = ⟨rows, _, general.coeff⟩
  finite : general.coeff.allFinite = true ∧ left.coeff.allFinite = true ∧
    right.coeff.allFinite = true
  lbA : checkBounds "lbA" d.lbA rows .negInf = .ok general.lower
  ubA : checkBounds "ubA" d.ubA rows .posInf = .ok general.upper
  orderedA : checkOrdered "lbA" "ubA" general.lower general.upper = .ok ()
  lbBox : checkBounds "lb" d.lb d.gradient.size .negInf = .ok lb
  ubBox : checkBounds "ub" d.ub d.gradient.size .posInf = .ok ub
  orderedBox : checkOrdered "lb" "ub" lb ub = .ok ()
  lbL : checkBounds "lbL" d.lbL pairs (.at 0) = .ok left.rows.lower
  ubL : checkBounds "ubL" d.ubL pairs .posInf = .ok left.upper
  orderedL : checkOrdered "lbL" "ubL" left.rows.lower left.upper = .ok ()
  lbR : checkBounds "lbR" d.lbR pairs (.at 0) = .ok right.rows.lower
  ubR : checkBounds "ubR" d.ubR pairs .posInf = .ok right.upper
  orderedR : checkOrdered "lbR" "ubR" right.rows.lower right.upper = .ok ()

def Checked.problem {d : Draft K} (c : d.Checked) : Problem K where
  vars := d.gradient.size
  rows := c.rows + (boxed c.lb c.ub).length
  pairs := c.pairs
  quad := c.quad
  lin := d.gradient.toVector
  general := c.general.stack (boxRows c.lb c.ub)
  left := c.left
  right := c.right
  x0 := none
  y0 := none

variable {d : Draft K} {p : Problem K}

omit [Add K] in
theorem exists_checked (h : d.build = .ok p) :
    ∃ c : d.Checked, c.problem.withStart d.x0 d.y0 = .ok p := by
  unfold build at h
  simp only [bind_eq_ok, Prod.exists] at h
  obtain ⟨Q, hQ, ⟨pairs, _, L⟩, R', hsides, _, hL, R, hR, _, finiteL, _, finiteR, h⟩ := h
  cases checkShape_eq_ok.mp hL
  obtain rfl : R' = ⟨pairs, _, R⟩ := checkShape_eq_ok.mp hR
  obtain ⟨A, hA, _, finiteA, lbA, hlbA, ubA, hubA, _, orderedA, lb, hlb, ub, hub, _,
    orderedBox, h⟩ := h
  obtain ⟨_, hlbL, ubL, hubL, _, hlbR, ubR, hubR, lowL, hlowL, lowR, hlowR, _, orderedL, _,
    orderedR, hp⟩ := h
  obtain rfl := checkClosed_eq_ok hlowL
  obtain rfl := checkClosed_eq_ok hlowR
  exact ⟨{
    rows := (d.general.getD (.empty d.gradient.size)).rows
    pairs := pairs
    quad := Q
    general := ⟨A, lbA, ubA⟩
    lb := lb
    ub := ub
    left := ⟨L, lowL, ubL⟩
    right := ⟨R, lowR, ubR⟩
    objective := hQ
    sides := hsides
    generalRows := checkShape_eq_ok.mp hA
    finite := ⟨require_eq_ok.mp finiteA, require_eq_ok.mp finiteL, require_eq_ok.mp finiteR⟩
    lbA := hlbA
    ubA := hubA
    orderedA := orderedA
    lbBox := hlb
    ubBox := hub
    orderedBox := orderedBox
    lbL := hlbL
    ubL := hubL
    orderedL := orderedL
    lbR := hlbR
    ubR := hubR
    orderedR := orderedR }, hp⟩

end Build

section Given
variable [Zero K] [Add K] [Mul K] (P : Bound K → Bound K → K → Prop) (x : Array K)

def boundAt (given : Option (Array (Bound K))) (dflt : Bound K) (i : Nat) : Bound K :=
  given.elim dflt fun bs => bs.getD i dflt

def EachOf (A : Option (AnyMat K)) (lower upper : Nat → Bound K) : Prop :=
  ∀ M, A = some M → ∀ i : Fin M.rows,
    P (lower i) (upper i) (sum M.cols fun j => M.mat i j * x.getD j 0)

/-- `P` holds of the two ends and the value at `x` of every row, variable and side of a pair, absent
bounds read as documented: `-∞` below rows and variables, 0 below pairs, and `+∞` above. -/
def Each (d : Draft K) : Prop :=
  EachOf P x d.general (boundAt d.lbA .negInf) (boundAt d.ubA .posInf) ∧
  (∀ i < d.gradient.size, P (boundAt d.lb .negInf i) (boundAt d.ub .posInf i) (x.getD i 0)) ∧
  EachOf P x d.left (boundAt d.lbL (.at 0)) (boundAt d.ubL .posInf) ∧
  EachOf P x d.right (boundAt d.lbR (.at 0)) (boundAt d.ubR .posInf)

end Given

theorem Each.imp [Zero K] [Add K] [Mul K] {P P' P'' : Bound K → Bound K → K → Prop} {d : Draft K}
    {x : Array K} (h : d.Each P x) (h' : d.Each P' x)
    (both : ∀ lower upper v, P lower upper v → P' lower upper v → P'' lower upper v) :
    d.Each P'' x :=
  ⟨fun M hM i => both _ _ _ (h.1 M hM i) (h'.1 M hM i),
    fun i hi => both _ _ _ (h.2.1 i hi) (h'.2.1 i hi),
    fun M hM i => both _ _ _ (h.2.2.1 M hM i) (h'.2.2.1 M hM i),
    fun M hM i => both _ _ _ (h.2.2.2 M hM i) (h'.2.2.2 M hM i)⟩

section Read
variable {P : Bound K → Bound K → K → Prop}

theorem boundAt_of_checked [Special K] {name : String} {given : Option (Array (Bound K))}
    {dflt : Bound K} {v : Vec (Bound K) n} (h : checkBounds name given n dflt = .ok v) (i : Fin n) :
    boundAt given dflt i = v.get i := by
  have hv := checkBounds_eq_ok h
  cases given with
  | none =>
    cases h
    simp [boundAt, Vec.get_eq_getElem]
  | some bs =>
    obtain rfl : v.toArray = bs := hv
    simp [boundAt, Vec.get_eq_getElem]

variable [Zero K] [Add K] [Mul K]

theorem eachOf_iff {A : Option (AnyMat K)} {r : Rows K m n}
    (hA : A.getD (.empty n) = ⟨m, n, r.coeff⟩) {lower upper : Nat → Bound K}
    (hlower : ∀ i : Fin m, lower i = r.lower.get i) (hupper : ∀ i : Fin m, upper i = r.upper.get i)
    (x : Vec K n) :
    EachOf P x.toArray A lower upper ↔ r.Each P x := by
  cases A with
  | none =>
    obtain rfl : 0 = m := congrArg AnyMat.rows hA
    exact iff_of_true nofun nofun
  | some M =>
    obtain rfl : M = _ := hA
    simp [EachOf, Rows.Each, hlower, hupper, Mat.mulVec, Vec.get_eq_getElem]

end Read

namespace Checked

section Ordered
variable [Zero K] [One K] [Add K] [Sub K] [Neg K] [Mul K] [LT K] [LE K] [DecidableLT K]
  [DecidableLE K] [OfScientific K] [Special K] {d : Draft K} (c : d.Checked)
  {P P' : Bound K → Bound K → K → Prop} (x : Vec K d.gradient.size)

def Each (P : Bound K → Bound K → K → Prop) (x : Vec K d.gradient.size) : Prop :=
  c.general.Each P x ∧ (∀ i, P (c.lb.get i) (c.ub.get i) (x.get i)) ∧ c.left.rows.Each P x ∧
    c.right.rows.Each P x

/-- What the draft gives is what has been checked. -/
theorem each_iff : d.Each P x.toArray ↔ c.Each P x := by
  obtain ⟨hleft, hright⟩ := checkPairs_eq_ok c.sides
  refine and_congr ?_ (and_congr ?_ (and_congr ?_ ?_))
  · exact eachOf_iff c.generalRows (boundAt_of_checked c.lbA) (boundAt_of_checked c.ubA) x
  · simp only [← boundAt_of_checked c.lbBox, ← boundAt_of_checked c.ubBox]
    constructor
    · intro h i
      simpa [Vec.get_eq_getElem] using h i i.isLt
    · intro h i hi
      simpa [Vec.get_eq_getElem, hi] using h ⟨i, hi⟩
  · exact eachOf_iff (r := c.left.rows) hleft (boundAt_of_checked c.lbL)
      (boundAt_of_checked c.ubL) x
  · exact eachOf_iff (r := c.right.rows) hright (boundAt_of_checked c.lbR)
      (boundAt_of_checked c.ubR) x

/-- The ends of every row, variable and side are in order. -/
theorem each_congr
    (h : ∀ lower upper v, upper.below lower = false → (P lower upper v ↔ P' lower upper v)) :
    c.Each P x ↔ c.Each P' x := by
  refine and_congr ?_ (and_congr ?_ (and_congr ?_ ?_))
  · exact forall_congr' fun i => h _ _ _ (checkOrdered_eq_ok.mp c.orderedA i)
  · exact forall_congr' fun i => h _ _ _ (checkOrdered_eq_ok.mp c.orderedBox i)
  · exact forall_congr' fun i => h _ _ _ (checkOrdered_eq_ok.mp c.orderedL i)
  · exact forall_congr' fun i => h _ _ _ (checkOrdered_eq_ok.mp c.orderedR i)

end Ordered

end Checked

end Draft

section Violation
variable [Field K] {x : Vec K n} {lb ub : Vec (Bound K) n}

theorem Draft.mulVec_boxRows (k : Fin (boxed lb ub).length) :
    ((boxRows lb ub).coeff.mulVec x).get k = x.get ((boxed lb ub).get k) := by
  simp [boxRows, Mat.mulVec, sum_eq_sum]

variable [LinearOrder K]

/-- Variables without a row have no finite bound to keep. -/
theorem Draft.each_boxRows :
    (boxRows lb ub).Each Bound.Keeps x ↔ ∀ i, (lb.get i).Keeps (ub.get i) (x.get i) := by
  constructor
  · intro h i
    by_cases hi : i ∈ boxed lb ub
    · obtain ⟨k, rfl⟩ := List.get_of_mem hi
      have hk := h k
      rw [mulVec_boxRows] at hk
      simpa [boxRows] using hk
    · have hnone : (lb.get i).isFinite = false ∧
        (ub.get i).isFinite = false := by simpa [boxed] using hi
      refine ⟨fun l hl => ?_, fun u hu => ?_⟩
      · simp [hl, Bound.isFinite, Bound.value?] at hnone
      · simp [hu, Bound.isFinite, Bound.value?] at hnone
  · intro h k
    rw [mulVec_boxRows]
    simpa [boxRows] using h ((boxed lb ub).get k)

variable [IsStrictOrderedRing K]

variable [Special K] {d : Draft K} {p : Problem K}

theorem Draft.Checked.violation_eq_zero_iff (c : d.Checked) (x : Vec K d.gradient.size) :
    c.problem.violation x = 0 ↔ c.Each Bound.Keeps x := by
  have hbox : (boxRows c.lb c.ub).Each Bound.Keeps x ↔
      ∀ i, (c.lb.get i).Keeps (c.ub.get i) (x.get i) := each_boxRows
  calc c.problem.violation x = 0
    _ ↔ c.problem.stacked.Each Bound.Keeps x := Rows.violation_eq_zero_iff
    _ ↔ ((c.general.stack (boxRows c.lb c.ub)).Each Bound.Keeps x ∧
          c.left.rows.Each Bound.Keeps x) ∧ c.right.rows.Each Bound.Keeps x :=
      Rows.forall_stack.trans (and_congr_left' Rows.forall_stack)
    _ ↔ ((c.general.Each Bound.Keeps x ∧ (boxRows c.lb c.ub).Each Bound.Keeps x) ∧
          c.left.rows.Each Bound.Keeps x) ∧ c.right.rows.Each Bound.Keeps x :=
      and_congr_left' (and_congr_left' Rows.forall_stack)
    _ ↔ c.Each Bound.Keeps x := by rw [hbox, Each, and_assoc, and_assoc]

/-- Nothing is violated exactly if every row, variable and side of a pair lies between its ends, or
has one and the same infinity for both. Where no two ends are the same infinity, all must lie
between them. -/
theorem Draft.no_violation_iff_bounds_hold (h : d.build = .ok p) (x : Vec K p.vars) :
    (p.violation x = 0 ↔ d.Each Bound.Admits x.toArray) ∧
    (d.Each (fun lower upper _ => ¬lower.SameInfinity upper) x.toArray →
      (p.violation x = 0 ↔ d.Each Bound.Encloses x.toArray)) := by
  have hzero : p.violation x = 0 ↔ d.Each Bound.Admits x.toArray := by
    obtain ⟨c, hstart⟩ := exists_checked h
    obtain ⟨x0, y0, rfl⟩ := Problem.withStart_eq_ok hstart
    calc c.problem.violation x = 0
      _ ↔ c.Each Bound.Keeps x := c.violation_eq_zero_iff x
      _ ↔ c.Each Bound.Admits x := c.each_congr x fun _ _ _ hordered => Bound.keeps_iff hordered
      _ ↔ d.Each Bound.Admits x.toArray := (c.each_iff x).symm
  refine ⟨hzero, fun hproper => hzero.trans ⟨fun heach => ?_, fun heach => ?_⟩⟩
  · exact heach.imp hproper fun _ _ _ hrow hends => hrow.resolve_right hends
  · exact heach.imp hproper fun _ _ _ hrow _ => .inl hrow

section Rational

/-- The warm-up problem with a row `-½ ≤ x - y` and a box bound `y ≤ 3`. -/
def Draft.strip : Draft ℚ where
  hessian := ⟨2, 2, Mat.ofFn fun i j => if i = j then 2 else 0⟩
  gradient := #[-2, -2]
  left := some ⟨1, 2, Mat.ofFn fun _ => #v[1, 0].get⟩
  right := some ⟨1, 2, Mat.ofFn fun _ => #v[0, 1].get⟩
  general := some ⟨1, 2, Mat.ofFn fun _ => #v[1, -1].get⟩
  lbA := some #[.at (-1 / 2)]
  ub := some #[.posInf, .at 3]

theorem Draft.no_violation_iff_bounds_hold_strip :
    ∃ p, strip.build = .ok p ∧ ∀ x : Vec ℚ p.vars, p.violation x = 0 ↔
      strip.Each Bound.Encloses x.toArray := by
  have hbuild : strip.build.toOption.any (fun _ => true) = true := by decide +kernel
  obtain ⟨p, hp, -⟩ := exists_ok_of_any hbuild
  refine ⟨p, hp, fun x => (no_violation_iff_bounds_hold hp x).2 ⟨?_, ?_, ?_, ?_⟩⟩
  · intro M hM i
    cases hM
    fin_cases i
    simp [boundAt, strip, Bound.SameInfinity]
  · intro i hi
    have hi : i < 2 := hi
    interval_cases i <;> simp [boundAt, strip, Bound.SameInfinity]
  · intro M hM i
    simp [boundAt, strip, Bound.SameInfinity]
  · intro M hM i
    simp [boundAt, strip, Bound.SameInfinity]

/-- One variable with both box bounds at `+∞`. -/
def Draft.unreachable : Draft ℚ where
  hessian := ⟨1, 1, Mat.ofFn fun _ _ => 1⟩
  gradient := #[0]
  lb := some #[.posInf]
  ub := some #[.posInf]

/-- No point lies within the box, and the origin violates nothing. -/
theorem Draft.unreachable_not_violated :
    ∃ p, ∃ x : Vec ℚ p.vars, unreachable.build = .ok p ∧ p.violation x = 0 ∧
      ¬unreachable.Each Bound.Encloses x.toArray := by
  have hbuild : unreachable.build.toOption.any
      (fun p => decide (p.violation (Vec.zero p.vars) = 0)) = true := by
    decide +kernel
  obtain ⟨p, hp, hzero⟩ := exists_ok_of_any hbuild
  refine ⟨p, Vec.zero p.vars, hp, of_decide_eq_true hzero, fun h => ?_⟩
  exact (h.2.1 0 (by decide)).1

end Rational

end Violation

end ComplementarityQP
