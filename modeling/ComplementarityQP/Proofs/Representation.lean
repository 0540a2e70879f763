import ComplementarityQP.Proofs.Merit
import ComplementarityQP.Proofs.Requests
import ComplementarityQP.Proofs.Supplied

/-! What a problem stores of the data that it is built from. Main statement: the objective, the rows
and the start are those given, and since the rows have passed their checks, the dense solver rejects
no program of a run. -/
namespace ComplementarityQP

variable {K : Type} {m n q : Nat}

structure Row (K : Type) where
  coeffs : List K
  lower : Bound K
  upper : Bound K

structure Row.Proper [LT K] [DecidableLT K] [Special K] (r : Row K) : Prop where
  lower : r.lower.isNaN = false
  upper : r.upper.isNaN = false
  ordered : r.upper.below r.lower = false

@[simp] theorem Mat.row_ofFn (f : Fin m → Fin n → K) (i : Fin m) :
    (ofFn f).row i = Vector.ofFn (f i) := by
  unfold row
  congr 1
  funext j
  exact get_ofFn f i j

namespace Rows

def list (r : Rows K m n) : List (Row K) :=
  List.ofFn fun i => ⟨(r.coeff.row i).toList, r.lower.get i, r.upper.get i⟩

@[simp] theorem length_list (r : Rows K m n) : r.list.length = m := List.length_ofFn

theorem forall_mem_list {r : Rows K m n} {P : Row K → Prop} :
    (∀ row ∈ r.list, P row) ↔ ∀ i, P ⟨(r.coeff.row i).toList, r.lower.get i, r.upper.get i⟩ :=
  List.forall_mem_ofFn_iff

theorem list_stack (r : Rows K m n) (s : Rows K q n) : (r.stack s).list = r.list ++ s.list := by
  unfold list
  rw [List.ofFn_add]
  congr 2
  · funext i
    rw [stack, Mat.stack, Mat.row_ofFn, ← Fin.castAdd, Vec.get_join_castAdd, Vec.get_join_castAdd,
      Fin.addCases_left]
    rfl
  · funext i
    rw [stack, Mat.stack, Mat.row_ofFn, Vec.get_join_natAdd, Vec.get_join_natAdd,
      Fin.addCases_right]
    rfl

end Rows

namespace Draft

def rowList (A : Option (AnyMat K)) (lower upper : Nat → Bound K) : List (Row K) :=
  A.elim [] fun M => List.ofFn fun i : Fin M.rows => ⟨(M.mat.row i).toList, lower i, upper i⟩

def bounded (d : Draft K) : List (Fin d.gradient.size) :=
  (List.finRange d.gradient.size).filter fun i =>
    (boundAt d.lb .negInf i).isFinite || (boundAt d.ub .posInf i).isFinite

section Listed
variable [Zero K] [One K] (d : Draft K)

/-- The general rows, then a unit row for each variable with a finite box bound. -/
def generalList : List (Row K) :=
  rowList d.general (boundAt d.lbA .negInf) (boundAt d.ubA .posInf) ++
    d.bounded.map fun i =>
      ⟨List.ofFn fun j => if i = j then 1 else 0, boundAt d.lb .negInf i, boundAt d.ub .posInf i⟩

def leftList : List (Row K) := rowList d.left (boundAt d.lbL (.at 0)) (boundAt d.ubL .posInf)

def rightList : List (Row K) := rowList d.right (boundAt d.lbR (.at 0)) (boundAt d.ubR .posInf)

end Listed

theorem rowList_eq [Zero K] {A : Option (AnyMat K)} {r : Rows K m n}
    (hA : A.getD (.empty n) = ⟨m, n, r.coeff⟩) {lower upper : Nat → Bound K}
    (hlower : ∀ i : Fin m, lower i = r.lower.get i)
    (hupper : ∀ i : Fin m, upper i = r.upper.get i) : rowList A lower upper = r.list := by
  cases A with
  | none =>
    obtain rfl : 0 = m := congrArg AnyMat.rows hA
    rfl
  | some M =>
    obtain rfl : M = _ := hA
    simp [rowList, Rows.list, hlower, hupper]

theorem list_boxRows [Zero K] [One K] (lb ub : Vec (Bound K) n) :
    (boxRows lb ub).list =
      (boxed lb ub).map fun i =>
        ⟨List.ofFn fun j => if i = j then 1 else 0, lb.get i, ub.get i⟩ := by
  rw [← List.ofFn_getElem_eq_map]
  unfold Rows.list
  congr 1
  funext k
  simp [boxRows, Vector.toList_ofFn]

section Checks
variable [Special K] {name : String}

theorem not_isNaN_of_checked {given : Option (Array (Bound K))} {dflt : Bound K}
    {v : Vec (Bound K) n} (h : checkBounds name given n dflt = .ok v) (hdflt : dflt.isNaN = false)
    (i : Fin n) : (v.get i).isNaN = false := by
  cases given with
  | none =>
    cases h
    simpa [Vec.get_eq_getElem] using hdflt
  | some bs =>
    simp only [checkBounds] at h
    split at h
    · cases h
    · split at h
      · cases h
      · rename_i hnone
        cases h
        exact find?_finRange_eq_none.mp hnone i

/-- Bounds that pass their checks make proper rows. -/
theorem proper_of_checked [LT K] [DecidableLT K] {lowName highName : String}
    {low high : Option (Array (Bound K))} {dflt dflt' : Bound K} {lower upper : Vec (Bound K) n}
    (hlower : checkBounds lowName low n dflt = .ok lower)
    (hupper : checkBounds highName high n dflt' = .ok upper)
    (hordered : checkOrdered lowName highName lower upper = .ok ()) (hdflt : dflt.isNaN = false)
    (hdflt' : dflt'.isNaN = false) (coeffs : List K) (i : Fin n) :
    (⟨coeffs, lower.get i, upper.get i⟩ : Row K).Proper where
  lower := not_isNaN_of_checked hlower hdflt i
  upper := not_isNaN_of_checked hupper hdflt' i
  ordered := checkOrdered_eq_ok.mp hordered i

end Checks

end Draft

theorem Problem.checkStart_eq_ok [Special K] {name : String} {given : Option (Array K)}
    {x : Option (Vec K n)} (h : checkStart name n given = .ok x) :
    x.map Vector.toArray = given ∧ ¬Unusable n given := by
  cases given with
  | none =>
    cases h
    exact ⟨rfl, nofun⟩
  | some xs =>
    simp only [checkStart] at h
    split at h
    · cases h
    · rename_i v hv
      split at h
      · rename_i hfinite
        cases h
        obtain rfl := Vec.toArray_of_ofArray? hv
        refine ⟨rfl, ?_⟩
        rintro ⟨_, ⟨⟩, hsize | ⟨a, ha, hinfinite⟩⟩
        · exact hsize v.size_toArray
        · exact Bool.false_ne_true (hinfinite.symm.trans (Vec.allFinite_iff.mp hfinite a ha))
      · cases h

section Obtained
variable [Zero K] [One K] [Add K] [Sub K] [Neg K] [Mul K] [LT K] [LE K] [DecidableLT K]
  [DecidableLE K] [OfScientific K] [Special K]

/-- The ways to a problem: it is built from a draft, or from the draft of a document, and is then
given other starts any number of times. The draft and the start that was given last are part of the
statement. -/
inductive Obtained : Draft K → Option (Array K) → Option (Array K) → Problem K → Prop
  | built {d p} (build : d.build = .ok p) : Obtained d d.x0 d.y0 p
  | read {doc : Document K} {d p} (draft : doc.draft = .ok d)
    (build : doc.draft >>= Draft.build = .ok p) :
      Obtained d d.x0 d.y0 p
  | restarted {d x0 y0 p x0' y0' p'} (before : Obtained d x0 y0 p)
    (restart : p.withStart x0' y0' = .ok p') :
      Obtained d x0' y0' p'

/-- How the data of a draft lie in a problem that starts at `x` and `y`. -/
structure Layout (d : Draft K) (x y : Option (Array K)) (p : Problem K) : Prop where
  hessian : d.hessian = ⟨p.vars, p.vars, p.quad⟩
  gradient : p.lin.toArray = d.gradient
  rows : p.rows = d.general.elim 0 AnyMat.rows + d.bounded.length
  general : p.general.list = d.generalList
  stacked : p.stacked.list = d.generalList ++ d.leftList ++ d.rightList
  duals : p.duals = (d.generalList ++ d.leftList ++ d.rightList).length
  proper : ∀ r ∈ p.stacked.list, r.Proper
  x0 : p.x0.map Vector.toArray = x ∧ ¬Unusable p.vars x
  y0 : p.y0.map Vector.toArray = y ∧ ¬Unusable p.duals y

variable {d : Draft K} {x0 y0 : Option (Array K)} {p : Problem K}

omit [Add K] [Sub K] [Neg K] [Mul K] [LE K] [DecidableLE K] [OfScientific K] in
/-- A new start replaces the old one and nothing else. -/
theorem Layout.restart {x0' y0' : Option (Array K)} {p' : Problem K} (h : Layout d x0 y0 p)
    (restart : p.withStart x0' y0' = .ok p') : Layout d x0' y0' p' := by
  unfold Problem.withStart at restart
  simp only [bind_eq_ok, pure, Except.pure] at restart
  obtain ⟨x, hx, y, hy, hp⟩ := restart
  cases hp
  exact { h with x0 := Problem.checkStart_eq_ok hx, y0 := Problem.checkStart_eq_ok hy }

namespace Draft.Checked
variable (c : d.Checked)
omit [Add K]

theorem bounded_eq : d.bounded = boxed c.lb c.ub := by
  unfold bounded boxed
  apply List.filter_congr
  intro i _
  rw [boundAt_of_checked c.lbBox, boundAt_of_checked c.ubBox]

theorem generalList_eq : d.generalList = c.problem.general.list := by
  have hgiven :=
    rowList_eq (r := c.general) c.generalRows (boundAt_of_checked c.lbA) (boundAt_of_checked c.ubA)
  unfold generalList
  rw [hgiven, c.bounded_eq]
  simp only [boundAt_of_checked c.lbBox, boundAt_of_checked c.ubBox]
  rw [← list_boxRows]
  exact (Rows.list_stack _ _).symm

theorem stacked_list : c.problem.stacked.list = d.generalList ++ d.leftList ++ d.rightList := by
  obtain ⟨hleft, hright⟩ := checkPairs_eq_ok c.sides
  have hleft :=
    rowList_eq (r := c.left.rows) hleft (boundAt_of_checked c.lbL) (boundAt_of_checked c.ubL)
  have hright :=
    rowList_eq (r := c.right.rows) hright (boundAt_of_checked c.lbR) (boundAt_of_checked c.ubR)
  rw [c.generalList_eq, leftList, hleft, rightList, hright]
  exact (Rows.list_stack _ _).trans (congrArg (· ++ _) (Rows.list_stack _ _))

theorem proper_list (hzero : isNaN (0 : K) = false) : ∀ r ∈ c.problem.stacked.list, r.Proper := by
  have hstacked : c.problem.stacked.list =
      c.general.list ++ (boxRows c.lb c.ub).list ++ c.left.rows.list ++ c.right.rows.list := by
    rw [← Rows.list_stack, ← Rows.list_stack, ← Rows.list_stack]
    rfl
  rw [hstacked]
  simp only [List.forall_mem_append, Rows.forall_mem_list]
  refine ⟨⟨⟨fun i => ?_, fun k => ?_⟩, fun i => ?_⟩, fun i => ?_⟩
  · exact proper_of_checked c.lbA c.ubA c.orderedA rfl rfl _ i
  · simpa [boxRows] using proper_of_checked c.lbBox c.ubBox c.orderedBox rfl rfl _
      ((boxed c.lb c.ub).get k)
  · exact proper_of_checked c.lbL c.ubL c.orderedL hzero rfl _ i
  · exact proper_of_checked c.lbR c.ubR c.orderedR hzero rfl _ i

theorem layout (hzero : isNaN (0 : K) = false) : Layout d none none c.problem where
  hessian := by
    have hobjective := c.objective
    unfold checkObjective at hobjective
    simp only [bind_eq_ok, pure, Except.pure, Except.ok.injEq] at hobjective
    obtain ⟨_, -, Q, hQ, _, -, _, -, _, -, rfl⟩ := hobjective
    exact checkShape_eq_ok.mp hQ
  gradient := rfl
  rows := by
    have hrows := congrArg AnyMat.rows c.generalRows
    rw [rows_getD_empty] at hrows
    rw [hrows, c.bounded_eq]
    rfl
  general := c.generalList_eq.symm
  stacked := c.stacked_list
  duals := by rw [← c.stacked_list, Rows.length_list]
  proper := c.proper_list hzero
  x0 := ⟨rfl, nofun⟩
  y0 := ⟨rfl, nofun⟩

end Draft.Checked

theorem Obtained.layout (hzero : isNaN (0 : K) = false) (h : Obtained d x0 y0 p) :
    Layout d x0 y0 p := by
  have hbuilt {d : Draft K} {p : Problem K} (build : d.build = .ok p) : Layout d d.x0 d.y0 p := by
    obtain ⟨c, hstart⟩ := Draft.exists_checked build
    exact (c.layout hzero).restart hstart
  induction h with
  | built build => exact hbuilt build
  | read draft build =>
    rw [draft] at build
    exact hbuilt build
  | restarted before restart ih => exact ih.restart restart

end Obtained

section Rejection

theorem forM_eq_ok {ε α : Type} {f : α → Except ε Unit} {l : List α} :
    l.forM f = .ok () ↔ ∀ a ∈ l, f a = .ok () := by
  induction l with
  | nil => simp [pure, Except.pure]
  | cons a l ih =>
    have hcons : (a :: l).forM f = .ok () ↔ ∃ _ : Unit, f a = .ok () ∧ l.forM f = .ok () :=
      bind_eq_ok
    rw [hcons, ih, List.forall_mem_cons]
    exact ⟨fun ⟨_, h⟩ => h, fun h => ⟨(), h⟩⟩

theorem Qp.validate_eq_ok [LT K] [DecidableLT K] [Special K] {qp : Qp K n m} :
    qp.validate = .ok () ↔ ∀ r ∈ qp.rows.list, r.Proper := by
  unfold validate
  rw [forM_eq_ok, Rows.forall_mem_list]
  refine ⟨fun h i => ?_, fun h i _ => ?_⟩
  · have hi := h i (List.mem_finRange i)
    dsimp only at hi
    split at hi
    · cases hi
    · rename_i hnan
      split at hi
      · cases hi
      · rename_i hbelow
        obtain ⟨hlower, hupper⟩ := Bool.or_eq_false_iff.mp (Bool.eq_false_iff.mpr hnan)
        exact ⟨hlower, hupper, Bool.eq_false_iff.mpr hbelow⟩
  · obtain ⟨hlower, hupper, hordered⟩ := h i
    simp_all

/-- The solver is the dense one, with some choice of numerical methods. -/
def Backend.Dense {σ : Type} [Zero K] [One K] [Add K] [Sub K] [Neg K] [Mul K] [LT K] [LE K]
    [DecidableLT K] [DecidableLE K] [OfScientific K] [Special K] [BEq K] (b : Backend K σ) : Prop :=
  ∃ e : Engine K, ∀ {n m : Nat} (qp : Qp K n m) hint s, (b.solve qp hint s).1 = qp.dense e hint

def Event.isRejection : Event K → Bool
  | called _ _ (.error _) => true
  | _ => false

variable [Zero K] [One K] [Add K] [Sub K] [Neg K] [Mul K] [LT K] [LE K] [DecidableLT K]
  [DecidableLE K] [OfScientific K] [Special K]

variable [BEq K] {σ : Type} {p : Problem K}

theorem Qp.exists_dense {qp : Qp K n m} (h : qp.validate = .ok ()) (e : Engine K)
    (hint : Option (Hint K)) :
    ∃ a, qp.dense e hint = .ok a := by
  unfold dense
  rw [h]
  cases hint.bind (qp.hot e) with
  | none => exact ⟨_, rfl⟩
  | some a => exact ⟨a, rfl⟩

theorem Backend.denseActiveSet_dense : (Backend.denseActiveSet : Backend Float σ).Dense :=
  ⟨.standard, fun _ _ _ => rfl⟩

/-- A solver that checks rows in this way has nothing to say against those of the problem. -/
theorem Backend.Dense.exists_answer {b : Backend K σ} (hdense : b.Dense)
    (hproper : ∀ r ∈ p.stacked.list, r.Proper) {qp : Qp K p.vars p.duals}
    (hrows : qp.rows = p.stacked) (hint : Option (Hint K)) (s : σ) :
    ∃ a, (b.solve qp hint s).1 = .ok a := by
  obtain ⟨e, he⟩ := hdense
  rw [he]
  rw [← hrows] at hproper
  exact Qp.exists_dense (Qp.validate_eq_ok.mpr hproper) e hint

theorem Requests.not_isRejection [Div K] {host : Host K σ} {events : List (Event K)}
    (h : Requests host p events) (hdense : host.backend.Dense)
    (hproper : ∀ r ∈ p.stacked.list, r.Proper) : ∀ e ∈ events, e.isRejection = false := by
  intro e he
  cases hcall : e.isCall with
  | false =>
    cases e with
    | called qp hint answer => cases hcall
    | polled | timed | shown => rfl
  | true =>
    obtain ⟨qp, hint, s, hrows, rfl⟩ := h e (List.mem_filter.mpr ⟨he, hcall⟩)
    obtain ⟨a, ha⟩ := hdense.exists_answer hproper hrows hint s
    rw [ha]
    rfl

variable [Div K] [Root K]

/-- The programs of the problem pass the check of the dense solver. So it rejects nothing in a run
or in an inner loop, and no inner loop fails without the status of an answer. -/
structure Problem.Unrejected (p : Problem K) : Prop where
  penalized (sub : Subproblem p) (x : Vec K p.vars) (ρ : K) : (sub.penalized x ρ).validate = .ok ()
  unpenalized (sub : Subproblem p) (x : Vec K p.vars) : (sub.unpenalized x).validate = .ok ()
  run {σ : Type} (host : Host K σ) (dense : host.backend.Dense) (o : Options K) (w : WarmStart K)
    (s : σ) :
    ∀ e ∈ Run.journal host o p w s, e.isRejection = false
  inner {σ : Type} (host : Host K σ) (dense : host.backend.Dense) (o : Options K)
    (sub : Subproblem p) (ρ : K)
    (it : Iterate p) (s : σ) :
    ∀ e ∈ (InnerLoop.run host.journaled o sub ρ it (.start host.journaled (s, []))).2.events,
      e.isRejection = false
  failed {σ : Type} (host : Host K σ) (dense : host.backend.Dense) (o : Options K)
    (sub : Subproblem p) (ρ : K)
    (it : Iterate p) (pr : Progress K σ) :
      (InnerLoop.run host o sub ρ it pr).1.status ≠ .failed none

omit [Root K] in
theorem Progress.rejected_of_solveAt {host : Host K σ} {pr pr' : Progress K σ} {sub : Subproblem p}
    {qp : Qp K p.vars p.duals} {x : Vec K p.vars} {y : Vec K p.duals}
    (h : pr.solveAt host sub qp x y = (.error none, pr')) :
    ∃ f, (host.backend.solve qp (some ⟨x.toArray, y.toArray⟩) pr.state).1 = .error f := by
  unfold solveAt solveQp at h
  rcases hreply : host.backend.solve qp (some ⟨x.toArray, y.toArray⟩) pr.state with ⟨f | a, s⟩
  · exact ⟨f, rfl⟩
  · rw [hreply] at h
    dsimp only at h
    split at h
    · rename_i hsolved
      split at hsolved <;> simp_all
    · split at h <;> simp at h

omit [Root K] in
theorem InnerLoop.status_ne_of_dense {host : Host K σ} (hdense : host.backend.Dense)
    (hproper : ∀ r ∈ p.stacked.list, r.Proper) {o : Options K} {sub : Subproblem p} {ρ : K}
    {it : Iterate p} {r : InnerResult p} {pr pr' : Progress K σ}
    (h : run host o sub ρ it pr = (r, pr')) : r.status ≠ .failed none := by
  intro hst
  obtain ⟨last, pr₁, l, -, hiter, -⟩ := ends_by_status h (by simp [hst])
  rw [hst] at hiter
  cases iterate_outcome hiter with
  | @failed pr₂ _ _ check solve =>
    obtain ⟨f, hf⟩ := Progress.rejected_of_solveAt solve
    have hrows : (sub.penalized (last.moved o ρ pr₂.total).point.x ρ).rows = p.stacked := rfl
    obtain ⟨a, ha⟩ := hdense.exists_answer hproper hrows _ _
    cases hf.symm.trans ha
  | stepped check solve report exit => cases exit_completes exit

theorem Problem.unrejected_of_proper (hproper : ∀ r ∈ p.stacked.list, r.Proper) : p.Unrejected where
  penalized _ _ _ := Qp.validate_eq_ok.mpr hproper
  unpenalized _ _ := Qp.validate_eq_ok.mpr hproper
  run host dense o w s := (Run.requests_journal host o p w s).not_isRejection dense hproper
  inner host dense _ _ _ _ s :=
    (InnerLoop.requests_run (Run.requests_start host p s) rfl).not_isRejection dense hproper
  failed _ dense _ _ _ _ _ := InnerLoop.status_ne_of_dense dense hproper rfl

end Rejection

section Exact
variable [Field K] [LinearOrder K] [IsStrictOrderedRing K]
open Matrix

/-- Only the symmetric part of a matrix counts in its quadratic form. -/
theorem Quadratic.value_symmetrize (A : Mat K n n) (c x : Vec K n) :
    value ⟨A.symmetrize, c⟩ x = value ⟨A, c⟩ x := by
  have hhalf : (0.5 : K) = 1 / 2 := by norm_num
  have hmean : A.symmetrize.toMatrix = (1 / 2 : K) • (A.toMatrix + A.toMatrixᵀ) := by
    ext i j
    simp [Mat.symmetrize, hhalf, mul_comm]
  have hform : x.get ⬝ᵥ (A.toMatrixᵀ *ᵥ x.get) = x.get ⬝ᵥ (A.toMatrix *ᵥ x.get) := by
    rw [mulVec_transpose, dotProduct_comm, ← dotProduct_mulVec]
  simp only [value, Vec.dot_eq_dotProduct, Mat.get_mulVec]
  rw [hmean, smul_mulVec, add_mulVec, dotProduct_smul, dotProduct_add, hform, smul_eq_mul]
  ring

variable [Special K] [Root K]

/-- A problem that is built from a draft or a document, and then given other starts any number of
times. In exact arithmetic it has the objective given, with a symmetric Hessian, and a symmetric
penalty; its rows and bounds are those given, with a unit row for each variable that has a finite
bound, all of them proper, and its start is the last one given. The dense solver rejects none of its
programs. With 64-bit floats the same holds but for the arithmetic. -/
theorem Obtained.representation (hzero : isNaN (0 : K) = false) :
    (∀ {d x0 y0} {p : Problem K}, Obtained d x0 y0 p →
      p.cost.hess.toMatrix.IsSymm ∧ p.coupling.hess.toMatrix.IsSymm ∧
      (∀ x, p.objective x = Quadratic.value ⟨p.quad, p.lin⟩ x) ∧ Layout d x0 y0 p ∧ p.Unrejected) ∧
    (∀ {d x0 y0} {p : Problem Float}, Obtained d x0 y0 p → Layout d x0 y0 p ∧ p.Unrejected) ∧
    ∀ {σ}, (Backend.denseActiveSet : Backend Float σ).Dense := by
  refine ⟨fun h => ?_, fun h => ?_, Backend.denseActiveSet_dense⟩
  · have hlayout := h.layout hzero
    exact ⟨Problem.isSymm_cost _, Problem.isSymm_coupling _,
      fun x => Quadratic.value_symmetrize _ _ x, hlayout,
      Problem.unrejected_of_proper hlayout.proper⟩
  · have hlayout := h.layout (by decide +kernel)
    exact ⟨hlayout, Problem.unrejected_of_proper hlayout.proper⟩

/-- A draft with a general row, a box bound and a pair, started anew at the origin. -/
theorem Obtained.representation_strip :
    isNaN (0 : ℚ) = false ∧ ∃ p, Obtained Draft.strip (some #[0, 0]) none p ∧
      p.stacked.list = Draft.strip.generalList ++ Draft.strip.leftList ++ Draft.strip.rightList ∧
        p.duals = 4 ∧
      p.Unrejected := by
  have hbuild :
      (Draft.strip.build >>= fun p => p.withStart (some #[0, 0]) none).toOption.any
      (fun _ => true) = true := by
    decide +kernel
  obtain ⟨p, hp, -⟩ := exists_ok_of_any hbuild
  obtain ⟨first, hfirst, hrestart⟩ := bind_eq_ok.mp hp
  have hobtained : Obtained Draft.strip (some #[0, 0]) none p := .restarted (.built hfirst) hrestart
  obtain ⟨-, -, -, hlayout, hunrejected⟩ := (Obtained.representation rfl).1 hobtained
  exact ⟨rfl, p, hobtained, hlayout.stacked, hlayout.duals.trans (by decide +kernel), hunrejected⟩

end Exact

end ComplementarityQP
