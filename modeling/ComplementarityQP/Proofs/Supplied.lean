import ComplementarityQP.Problem.Document
import ComplementarityQP.Proofs.Assembly

/-! The bound vectors of a document. Main statement: if the document is accepted, each of them has
the length of its rows and reappears in the problem, except that bounds on general rows are lost
where the rows are not given. Any other vector of a wrong length is rejected for its dimensions, if
nothing is wrong with the rest. -/
namespace ComplementarityQP

variable {K : Type} {m n : Nat}

/-- `c` agrees with `c'` unless it reports a fault of dimensions. -/
def Stricter {α : Type} (c c' : Except (Fault K) α) : Prop :=
  c = c' ∨ ∃ f, c = .error f ∧ f.kind = .dimensions

namespace Stricter
variable {α β : Type} {c c' : Except (Fault K) α} {rest rest' : α → Except (Fault K) β}

theorem refl (c : Except (Fault K) α) : Stricter c c := .inl rfl

theorem bind (h : Stricter c c') (hrest : ∀ a, c = .ok a → Stricter (rest a) (rest' a)) :
    Stricter (c >>= rest) (c' >>= rest') := by
  obtain rfl | ⟨f, rfl, hf⟩ := h
  · cases c with
    | error f => exact .refl _
    | ok a => exact hrest a rfl
  · exact .inr ⟨f, rfl, hf⟩

end Stricter

inductive BoundField where
  | lbA | ubA | lb | ub | lbL | ubL | lbR | ubR

def BoundField.isGeneral : BoundField → Bool
  | .lbA | .ubA => true
  | _ => false

theorem Vec.toList_join (x : Vec K m) (y : Vec K n) : (x.join y).toList = x.toList ++ y.toList := by
  have happend : x.join y = x ++ y := by
    apply ext_get
    intro i
    refine Fin.addCases (fun i => ?_) (fun i => ?_) i
    · rw [get_join_castAdd]
      simp [Vec.get_eq_getElem]
    · rw [get_join_natAdd]
      simp [Vec.get_eq_getElem]
  rw [happend, Vector.toList_append]

theorem Vec.drop_toList_join (x : Vec K m) (y : Vec K n) : (x.join y).toList.drop m = y.toList := by
  rw [toList_join, List.drop_left' x.length_toList]

/-- The given bounds in a problem whose first `rows` general rows are not box bounds. Box bounds
reappear where they are finite. -/
def Problem.Shows (p : Problem K) (rows : Nat) : BoundField → Array (Bound K) → Prop
  | .lbA, bs => bs.toList <+: p.general.lower.toList
  | .ubA, bs => bs.toList <+: p.general.upper.toList
  | .lb, bs =>
    (p.general.lower.toList.drop rows).filter Bound.isFinite = bs.toList.filter Bound.isFinite
  | .ub, bs =>
    (p.general.upper.toList.drop rows).filter Bound.isFinite = bs.toList.filter Bound.isFinite
  | .lbL, bs => p.left.rows.lower.toArray = bs
  | .ubL, bs => p.left.upper.toArray = bs
  | .lbR, bs => p.right.rows.lower.toArray = bs
  | .ubR, bs => p.right.upper.toArray = bs

namespace Draft

def supplied (d : Draft K) : BoundField → Option (Array (Bound K))
  | .lbA => d.lbA
  | .ubA => d.ubA
  | .lb => d.lb
  | .ub => d.ub
  | .lbL => d.lbL
  | .ubL => d.ubL
  | .lbR => d.lbR
  | .ubR => d.ubR

def rowsOf (d : Draft K) : BoundField → Nat
  | .lbA | .ubA => d.general.elim 0 AnyMat.rows
  | .lb | .ub => d.gradient.size
  | _ => d.left.elim 0 AnyMat.rows

def fitted (d : Draft K) : Draft K :=
  let fit f := (d.supplied f).filter fun bs => bs.size = d.rowsOf f
  { d with
    lbA := fit .lbA, ubA := fit .ubA, lb := fit .lb, ub := fit .ub
    lbL := fit .lbL, ubL := fit .ubL, lbR := fit .lbR, ubR := fit .ubR }

/-- Leaving out variables without a finite bound leaves out no finite bound. -/
theorem filter_toList_boxed {lb ub v : Vec (Bound K) n}
    (hv : ∀ i, (v.get i).isFinite = true → ((lb.get i).isFinite || (ub.get i).isFinite) = true) :
    (Vector.ofFn fun k => v.get ((boxed lb ub).get k)).toList.filter Bound.isFinite =
      v.toList.filter Bound.isFinite := by
  have hrows : (Vector.ofFn fun k => v.get ((boxed lb ub).get k)).toList =
      (boxed lb ub).map v.get := by
    rw [Vector.toList_ofFn]
    exact List.ofFn_getElem_eq_map (boxed lb ub) v.get
  have hall : v.toList = (List.finRange n).map v.get := by
    rw [← List.ofFn_eq_map, ← Vector.toList_ofFn]
    exact congrArg Vector.toList (Vec.ext_get fun i => by simp)
  rw [hrows, hall, List.filter_map, List.filter_map, boxed, List.filter_filter]
  congr 1
  apply List.filter_congr
  intro i _
  cases hi : (v.get i).isFinite with
  | false => simp [hi]
  | true => simp [hi, hv i hi]

theorem rows_getD_empty [Zero K] (A : Option (AnyMat K)) :
    (A.getD (.empty n)).rows = A.elim 0 AnyMat.rows := by
  cases A <;> rfl

theorem rows_of_checkPairs [Zero K] {d : Draft K} {L R : AnyMat K} (h : d.checkPairs = .ok (L, R)) :
    L.rows = d.rowsOf .lbL := by
  rw [← (checkPairs_eq_ok h).1]
  exact rows_getD_empty d.left

section Given
variable [Special K] {name : String} {given : Option (Array (Bound K))} {dflt : Bound K}

/-- A vector that passes its check is the one given. -/
theorem eq_of_given {v : Vec (Bound K) n} {bs : Array (Bound K)}
    (h : checkBounds name given n dflt = .ok v) (hbs : given = some bs) :
    bs.size = n ∧ v.toArray = bs := by
  have hv : v.toArray = bs := by simpa [hbs] using checkBounds_eq_ok h
  exact ⟨hv ▸ v.size_toArray, hv⟩

theorem checkBounds_stricter :
    Stricter (checkBounds name given n dflt)
      (checkBounds name (given.filter fun bs => bs.size = n) n dflt) := by
  cases given with
  | none => exact .refl _
  | some bs =>
    by_cases hsize : bs.size = n
    · rw [Option.filter_some_pos (by simpa using hsize)]
      exact .refl _
    · exact .inr ⟨.length name bs.size n, by simp [checkBounds, Vec.ofArray?, hsize], rfl⟩

end Given

section Build
variable [Zero K] [One K] [Add K] [Sub K] [Neg K] [Mul K] [LT K] [LE K] [DecidableLT K]
  [DecidableLE K] [OfScientific K] [Special K] {d : Draft K}

omit [Add K] in
theorem Checked.shows (c : d.Checked) {f : BoundField} {bs : Array (Bound K)}
    (hbs : d.supplied f = some bs) :
    bs.size = d.rowsOf f ∧ c.problem.Shows (d.rowsOf .lbA) f bs := by
  have hgeneral : c.rows = d.rowsOf .lbA :=
    (congrArg AnyMat.rows c.generalRows).symm.trans (rows_getD_empty _)
  have hpairs : c.pairs = d.rowsOf .lbL := rows_of_checkPairs c.sides
  cases f with
  | lbA =>
    obtain ⟨hsize, rfl⟩ := eq_of_given c.lbA hbs
    exact ⟨hsize.trans hgeneral, _, (Vec.toList_join _ _).symm⟩
  | ubA =>
    obtain ⟨hsize, rfl⟩ := eq_of_given c.ubA hbs
    exact ⟨hsize.trans hgeneral, _, (Vec.toList_join _ _).symm⟩
  | lb =>
    obtain ⟨hsize, rfl⟩ := eq_of_given c.lbBox hbs
    refine ⟨hsize, ?_⟩
    rw [← hgeneral, Problem.Shows]
    exact (congrArg _ (Vec.drop_toList_join _ _)).trans
      (filter_toList_boxed fun i hi => by simp [hi])
  | ub =>
    obtain ⟨hsize, rfl⟩ := eq_of_given c.ubBox hbs
    refine ⟨hsize, ?_⟩
    rw [← hgeneral, Problem.Shows]
    exact (congrArg _ (Vec.drop_toList_join _ _)).trans
      (filter_toList_boxed fun i hi => by simp [hi])
  | lbL =>
    obtain ⟨hsize, rfl⟩ := eq_of_given c.lbL hbs
    exact ⟨hsize.trans hpairs, rfl⟩
  | ubL =>
    obtain ⟨hsize, rfl⟩ := eq_of_given c.ubL hbs
    exact ⟨hsize.trans hpairs, rfl⟩
  | lbR =>
    obtain ⟨hsize, rfl⟩ := eq_of_given c.lbR hbs
    exact ⟨hsize.trans hpairs, rfl⟩
  | ubR =>
    obtain ⟨hsize, rfl⟩ := eq_of_given c.ubR hbs
    exact ⟨hsize.trans hpairs, rfl⟩

omit [Add K] in
theorem build_stricter (d : Draft K) : Stricter d.build d.fitted.build := by
  have hgeneral : (d.general.getD (.empty d.gradient.size)).rows = d.rowsOf .lbA :=
    rows_getD_empty d.general
  unfold build
  refine .bind (.refl _) fun Q _ => ?_
  refine .bind (.refl _) fun (L, R) hsides => ?_
  have hpairs : L.rows = d.rowsOf .lbL := rows_of_checkPairs hsides
  -- The checks of the three matrices do not look at bounds.
  refine .bind (.refl _) fun _ _ => .bind (.refl _) fun _ _ => ?_
  refine .bind (.refl _) fun _ _ => .bind (.refl _) fun _ _ => ?_
  refine .bind (.refl _) fun _ _ => .bind (.refl _) fun _ _ => ?_
  refine .bind (hgeneral ▸ checkBounds_stricter) fun _ _ => ?_
  refine .bind (hgeneral ▸ checkBounds_stricter) fun _ _ => .bind (.refl _) fun _ _ => ?_
  refine .bind checkBounds_stricter fun _ _ => .bind checkBounds_stricter fun _ _ =>
    .bind (.refl _) fun _ _ => ?_
  refine .bind (hpairs ▸ checkBounds_stricter) fun _ _ =>
    .bind (hpairs ▸ checkBounds_stricter) fun _ _ => ?_
  refine .bind (hpairs ▸ checkBounds_stricter) fun _ _ =>
    .bind (hpairs ▸ checkBounds_stricter) fun _ _ => ?_
  exact .refl _

end Build

end Draft

def Payload.rowCount : Payload K → Nat
  | .dense rows .. | .csc rows .. => rows.toNat

theorem Payload.rows_of_toMat [Zero K] [Add K] {P : Payload K} {name : String} {A : AnyMat K}
    (h : P.toMat name = .ok A) : A.rows = P.rowCount := by
  cases P with
  | dense rows cols values =>
    simp only [toMat] at h
    split at h
    · cases h
    · split at h
      · cases h
        rfl
      · cases h
  | csc rows cols colptr rowval nzval =>
    simp only [toMat] at h
    split at h
    · cases h
    · split at h
      · cases h
        rfl
      · cases h

namespace Document

def sides [Zero K] [Add K] (d : Document K) : Except (Fault K) (Option (AnyMat K × AnyMat K)) :=
  match d.left, d.right with
  | some L, some R => do
    let L ← L.toMat "L"
    let R ← R.toMat "R"
    pure (some (L, R))
  | none, none => pure none
  | _, _ => .error .unpaired

def generalRows [Zero K] [Add K] (d : Document K) : Except (Fault K) (Option (AnyMat K)) :=
  match d.general with
  | some A => do
    let A ← A.toMat "A"
    pure (some A)
  | none => pure none

def supplied (d : Document K) : BoundField → Option (Array (Bound K))
  | .lbA => d.lbA.map (nullable .negInf)
  | .ubA => d.ubA.map (nullable .posInf)
  | .lb => d.lb.map (nullable .negInf)
  | .ub => d.ub.map (nullable .posInf)
  | .lbL => d.lbL.map closed
  | .ubL => d.ubL.map (nullable .posInf)
  | .lbR => d.lbR.map closed
  | .ubR => d.ubR.map (nullable .posInf)

def rowsOf (d : Document K) : BoundField → Nat
  | .lbA | .ubA => d.general.elim 0 Payload.rowCount
  | .lb | .ub => d.gradient.size
  | _ => d.left.elim 0 Payload.rowCount

def assemble (d : Document K) (Q : AnyMat K) (sides : Option (AnyMat K × AnyMat K))
    (A : Option (AnyMat K)) :
    Draft K where
  hessian := Q
  gradient := d.gradient
  left := sides.map Prod.fst
  right := sides.map Prod.snd
  general := A
  lbA := A.bind fun _ => d.supplied .lbA
  ubA := A.bind fun _ => d.supplied .ubA
  lb := d.supplied .lb
  ub := d.supplied .ub
  lbL := d.supplied .lbL
  ubL := d.supplied .ubL
  lbR := d.supplied .lbR
  ubR := d.supplied .ubR
  x0 := d.x0
  y0 := d.y0

def fitted (d : Document K) : Document K :=
  { d with
    lbA := d.lbA.filter (·.length = d.rowsOf .lbA), ubA := d.ubA.filter (·.length = d.rowsOf .ubA)
    lb := d.lb.filter (·.length = d.rowsOf .lb), ub := d.ub.filter (·.length = d.rowsOf .ub)
    lbL := d.lbL.filter (·.length = d.rowsOf .lbL), ubL := d.ubL.filter (·.length = d.rowsOf .ubL)
    lbR := d.lbR.filter (·.length = d.rowsOf .lbR), ubR := d.ubR.filter (·.length = d.rowsOf .ubR) }

def Overlooked (d : Document K) (f : BoundField) (bs : Array (Bound K)) : Prop :=
  d.general = none ∧ f.isGeneral = true ∧ bs ≠ #[]

theorem supplied_fitted (d : Document K) (f : BoundField) :
    d.fitted.supplied f = (d.supplied f).filter fun bs => bs.size = d.rowsOf f := by
  have hmap {α : Type} {g : List α → Array (Bound K)} (hg : ∀ bs, (g bs).size = bs.length)
    (o : Option (List α))
      (k : Nat) : (o.filter (·.length = k)).map g = (o.map g).filter fun bs => bs.size = k := by
    cases o with
    | none => rfl
    | some bs =>
      by_cases hk : bs.length = k
      · simp [Option.filter, hg, hk]
      · simp [Option.filter, hg, hk]
  cases f <;> exact hmap (by simp [nullable, closed]) _ _

section Draft
variable [Zero K] [Add K] {d : Document K}

/-- The matrices are read first, and the bounds are put beside them. -/
theorem draft_eq (d : Document K) :
    d.draft = d.hessian.toMat "Q" >>= fun Q => d.sides >>= fun sides => d.generalRows >>= fun A =>
      pure (d.assemble Q sides A) := by
  unfold draft sides generalRows
  cases d.hessian.toMat "Q" with
  | error f => rfl
  | ok Q =>
    cases d.left <;> cases d.right
    case some.none => rfl
    case none.some => rfl
    case none.none =>
      cases d.general with
      | none => rfl
      | some A =>
        dsimp only
        cases A.toMat "A" <;> rfl
    case some.some L R =>
      dsimp only
      cases L.toMat "L" with
      | error f => rfl
      | ok L =>
        cases R.toMat "R" with
        | error f => rfl
        | ok R =>
          cases d.general with
          | none => rfl
          | some A =>
            dsimp only
            cases A.toMat "A" <;> rfl

theorem rows_of_sides {sides : Option (AnyMat K × AnyMat K)} (h : d.sides = .ok sides) :
    (sides.map Prod.fst).elim 0 AnyMat.rows = d.left.elim 0 Payload.rowCount := by
  unfold Document.sides at h
  split at h
  · simp only [bind_eq_ok] at h
    obtain ⟨L, hL, R, -, hpure⟩ := h
    cases hpure
    simpa [*] using Payload.rows_of_toMat hL
  · cases h
    simp [*]
  · cases h

theorem rows_of_generalRows {A : Option (AnyMat K)} (h : d.generalRows = .ok A) :
    A.elim 0 AnyMat.rows = d.general.elim 0 Payload.rowCount ∧ (A = none ↔ d.general = none) := by
  unfold generalRows at h
  split at h
  · rw [bind_eq_ok] at h
    obtain ⟨M, hM, hpure⟩ := h
    cases hpure
    simpa [*] using Payload.rows_of_toMat hM
  · cases h
    simp [*]

variable {Q : AnyMat K} {sides : Option (AnyMat K × AnyMat K)} {A : Option (AnyMat K)}

theorem rowsOf_assemble (hsides : d.sides = .ok sides) (hA : d.generalRows = .ok A)
    (f : BoundField) :
    (d.assemble Q sides A).rowsOf f = d.rowsOf f := by
  cases f with
  | lbA | ubA => exact (rows_of_generalRows hA).1
  | lb | ub => rfl
  | lbL | ubL | lbR | ubR => exact rows_of_sides hsides

/-- Where the general rows are given, so are all bounds. -/
theorem supplied_assemble (hA : d.generalRows = .ok A) {f : BoundField}
    (hf : ¬(d.general = none ∧ f.isGeneral = true)) :
    (d.assemble Q sides A).supplied f = d.supplied f := by
  have hnone := (rows_of_generalRows hA).2
  cases f with
  | lbA | ubA =>
    cases A with
    | none => exact absurd ⟨hnone.mp rfl, rfl⟩ hf
    | some M => rfl
  | _ => rfl

theorem fitted_assemble (hsides : d.sides = .ok sides) (hA : d.generalRows = .ok A) :
    (d.assemble Q sides A).fitted = d.fitted.assemble Q sides A := by
  simp only [Draft.fitted, rowsOf_assemble hsides hA]
  simp only [assemble, supplied_fitted]
  cases A <;> rfl

end Draft

section Problem
variable [Zero K] [One K] [Add K] [Sub K] [Neg K] [Mul K] [LT K] [LE K] [DecidableLT K]
  [DecidableLE K] [OfScientific K] [Special K] {d : Document K}

theorem problem_eq (d : Document K) :
    d.draft >>= Draft.build = d.hessian.toMat "Q" >>= fun Q => d.sides >>= fun sides =>
      d.generalRows >>= fun A => (d.assemble Q sides A).build := by
  simp only [draft_eq, bind_assoc, pure_bind]

theorem problem_stricter (d : Document K) :
    Stricter (d.draft >>= Draft.build) (d.fitted.draft >>= Draft.build) := by
  rw [problem_eq, problem_eq]
  refine .bind (.refl _) fun Q _ => .bind (.refl _) fun sides hsides => .bind (.refl _) fun A hA =>
    ?_
  rw [← fitted_assemble hsides hA]
  exact Draft.build_stricter _

theorem shows_of_accepted {p : Problem K} (h : d.draft >>= Draft.build = .ok p) {f : BoundField}
    {bs : Array (Bound K)} (hbs : d.supplied f = some bs) (hseen : ¬d.Overlooked f bs) :
    bs.size = d.rowsOf f ∧ p.Shows (d.rowsOf .lbA) f bs := by
  rw [problem_eq] at h
  simp only [bind_eq_ok] at h
  obtain ⟨Q, -, sides, hsides, A, hA, hbuild⟩ := h
  by_cases hf : d.general = none ∧ f.isGeneral = true
  · have hempty : bs = #[] := by
      by_contra hne
      exact hseen ⟨hf.1, hf.2, hne⟩
    subst hempty
    cases f with
    | lbA | ubA => exact ⟨by simp [rowsOf, hf.1], List.nil_prefix⟩
    | _ => cases hf.2
  · obtain ⟨c, hstart⟩ := Draft.exists_checked hbuild
    obtain ⟨x0, y0, rfl⟩ := Problem.withStart_eq_ok hstart
    have hshows := c.shows ((supplied_assemble hA hf).trans hbs)
    rw [rowsOf_assemble hsides hA, rowsOf_assemble hsides hA] at hshows
    exact hshows

variable (d : Document K)

/-- In an accepted document every vector of bounds has the length of its rows and reappears in the
problem, unless it bounds general rows that are not given. Any other vector of a wrong length is
rejected: either for its dimensions, or for a fault that the document has without it. Bounds without
their general rows change nothing. -/
theorem supplied_honoured_iff :
    (∀ p, d.draft >>= Draft.build = .ok p → ∀ f bs, d.supplied f = some bs →
      (bs.size = d.rowsOf f ∧ p.Shows (d.rowsOf .lbA) f bs ↔ ¬d.Overlooked f bs)) ∧
    (∀ f bs, d.supplied f = some bs → bs.size ≠ d.rowsOf f → ¬d.Overlooked f bs →
      ∃ fault, d.draft >>= Draft.build = .error fault ∧
        (fault.kind = .dimensions ∨ d.fitted.draft >>= Draft.build = .error fault)) ∧
    (d.general = none → ∀ lbA ubA, { d with lbA, ubA }.draft = d.draft) := by
  refine ⟨fun p hp f bs hbs => ⟨?_, shows_of_accepted hp hbs⟩,
    fun f bs hbs hsize hseen => ?_, fun hnone lbA ubA => ?_⟩
  · rintro ⟨hsize, -⟩ ⟨hnone, hf, hne⟩
    have hrows : d.rowsOf f = 0 := by
      cases f with
      | lbA | ubA => simp [rowsOf, hnone]
      | _ => cases hf
    exact hne (Array.eq_empty_of_size_eq_zero (hsize.trans hrows))
  · cases hproblem : d.draft >>= Draft.build with
    | ok p => exact absurd (shows_of_accepted hproblem hbs hseen).1 hsize
    | error fault =>
      refine ⟨fault, rfl, ?_⟩
      obtain heq | ⟨_, herror, hkind⟩ := d.problem_stricter
      · exact .inr (heq.symm.trans hproblem)
      · cases hproblem.symm.trans herror
        exact .inl hkind
  · simp [draft, hnone]

end Problem

section Rational

/-- The warm-up problem with a row `-½ ≤ x - y`, in both matrix formats. -/
def mixed : Document ℚ where
  hessian := .dense 2 2 #[2, 0, 0, 2]
  gradient := #[-2, -2]
  left := some (.csc 1 2 [0, 1, 1] [0] [1])
  right := some (.csc 1 2 [0, 0, 1] [0] [1])
  general := some (.dense 1 2 #[1, -1])
  lbA := some [some (-1 / 2)]
  ubA := some [none]
  lb := none
  ub := some [none, some 3]
  lbL := none
  ubL := none
  lbR := none
  ubR := none
  x0 := some #[1, 1]
  y0 := none

theorem supplied_honoured_iff_mixed :
    ∃ p, mixed.draft >>= Draft.build = .ok p ∧ [.at (-1 / 2)] <+: p.general.lower.toList ∧
      [.posInf] <+: p.general.upper.toList ∧
        (p.general.upper.toList.drop 1).filter Bound.isFinite = [.at 3] := by
  have hbuild : (mixed.draft >>= Draft.build).toOption.any (fun _ => true) =
      true := by decide +kernel
  obtain ⟨p, hp, -⟩ := exists_ok_of_any hbuild
  have honoured {f bs} (hbs : mixed.supplied f = some bs) : p.Shows 1 f bs :=
    (((supplied_honoured_iff mixed).1 p hp f bs hbs).mpr nofun).2
  exact ⟨p, hp, honoured (f := .lbA) rfl, honoured (f := .ubA) rfl, honoured (f := .ub) rfl⟩

/-- Two bounds on general rows, and no such row. -/
def stray : Document ℚ where
  hessian := .dense 1 1 #[1]
  gradient := #[0]
  left := none
  right := none
  general := none
  lbA := some [some 1, some 2]
  ubA := none
  lb := none
  ub := none
  lbL := none
  ubL := none
  lbR := none
  ubR := none
  x0 := none
  y0 := none

/-- They are neither rejected nor seen again. -/
theorem stray_accepted :
    stray.rowsOf .lbA = 0 ∧ stray.supplied .lbA = some #[.at 1, .at 2] ∧
      ∃ p, stray.draft >>= Draft.build = .ok p ∧ p.rows = 0 := by
  have hbuild : (stray.draft >>= Draft.build).toOption.any (fun p => decide (p.rows = 0)) =
      true := by decide +kernel
  obtain ⟨p, hp, hrows⟩ := exists_ok_of_any hbuild
  exact ⟨rfl, rfl, p, hp, of_decide_eq_true hrows⟩

end Rational

end Document

end ComplementarityQP
