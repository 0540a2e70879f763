import ComplementarityQP.Proofs.Representation
import ComplementarityQP.Subproblem

/-! Initial guesses. Main statement: guesses given to a draft are those given to its problem, and a
series of new guesses comes down to the last one that is accepted, which replaces the old guesses
and nothing else. -/
namespace ComplementarityQP

variable {K : Type} {n : Nat}

structure Guess (K : Type) where
  x0 : Option (Array K)
  y0 : Option (Array K)

namespace Problem

def started (p : Problem K) (x0 : Option (Vec K p.vars)) (y0 : Option (Vec K p.duals)) :
    Problem K :=
  { p with x0, y0 }

section Requests
variable [Special K]

def after (p : Problem K) (g : Guess K) : Problem K := (p.withStart g.x0 g.y0).toOption.getD p

def Takes (p : Problem K) (g : Guess K) : Prop := ¬Unusable p.vars g.x0 ∧ ¬Unusable p.duals g.y0

variable {p q : Problem K} {g : Guess K}

theorem checkStart_ok_iff {name : String} {given : Option (Array K)} {x : Option (Vec K n)} :
    checkStart name n given = .ok x ↔ x.map Vector.toArray = given ∧ ¬Unusable n given := by
  refine ⟨checkStart_eq_ok, ?_⟩
  rintro ⟨rfl, husable⟩
  cases x with
  | none => rfl
  | some v =>
    have hfinite : v.allFinite = true := by
      refine Vec.allFinite_iff.mpr fun a ha => ?_
      by_contra hinfinite
      exact husable ⟨_, rfl, .inr ⟨a, ha, by simpa using hinfinite⟩⟩
    simp [checkStart, Vec.ofArray?_toArray, hfinite]

theorem withStart_ok_iff : p.withStart g.x0 g.y0 = .ok q ↔
    p.Takes g ∧ ∃ x y, x.map Vector.toArray = g.x0 ∧ y.map Vector.toArray = g.y0 ∧
      q = p.started x y := by
  simp only [withStart, bind_eq_ok, checkStart_ok_iff, pure, Except.pure, Except.ok.injEq]
  constructor
  · rintro ⟨x, ⟨hx, hxs⟩, y, ⟨hy, hys⟩, rfl⟩
    exact ⟨⟨hxs, hys⟩, x, y, hx, hy, rfl⟩
  · rintro ⟨⟨hxs, hys⟩, x, y, hx, hy, rfl⟩
    exact ⟨x, ⟨hx, hxs⟩, y, ⟨hy, hys⟩, rfl⟩

theorem takes_iff : p.Takes g ↔ ∃ q, p.withStart g.x0 g.y0 = .ok q := by
  refine ⟨fun h => ?_, fun ⟨q, hq⟩ => (withStart_ok_iff.mp hq).1⟩
  have hvector {n : Nat} {given : Option (Array K)} (husable : ¬Unusable n given) :
      ∃ x : Option (Vec K n), x.map Vector.toArray = given := by
    cases given with
    | none => exact ⟨none, rfl⟩
    | some xs =>
      have hsize : xs.size = n := by
        by_contra hne
        exact husable ⟨xs, rfl, .inl hne⟩
      exact ⟨some ⟨xs, hsize⟩, rfl⟩
  obtain ⟨x, hx⟩ := hvector h.1
  obtain ⟨y, hy⟩ := hvector h.2
  exact ⟨p.started x y, withStart_ok_iff.mpr ⟨h, x, y, hx, hy, rfl⟩⟩

theorem after_of_takes (h : p.Takes g) :
    ∃ x y, x.map Vector.toArray = g.x0 ∧ y.map Vector.toArray = g.y0 ∧
      p.after g = p.started x y := by
  obtain ⟨q, hq⟩ := takes_iff.mp h
  obtain ⟨-, x, y, hx, hy, rfl⟩ := withStart_ok_iff.mp hq
  refine ⟨x, y, hx, hy, ?_⟩
  rw [after, hq]
  rfl

theorem after_of_not_takes (h : ¬p.Takes g) : p.after g = p := by
  cases hq : p.withStart g.x0 g.y0 with
  | ok q => exact absurd (takes_iff.mpr ⟨q, hq⟩) h
  | error f =>
    rw [after, hq]
    rfl

/-- Old guesses have no say in new ones. -/
theorem withStart_started (p : Problem K) (x0 y0) (g : Guess K) :
    (p.started x0 y0).withStart g.x0 g.y0 = p.withStart g.x0 g.y0 := rfl

theorem after_started (p : Problem K) (x0 y0) (h : p.Takes g) :
    (p.started x0 y0).after g = p.after g := by
  obtain ⟨q, hq⟩ := takes_iff.mp h
  rw [after, after, withStart_started, hq]
  rfl

section Series
variable {gs : List (Guess K)}

theorem exists_started (p : Problem K) (gs : List (Guess K)) :
    ∃ x0 y0, gs.foldl after p = p.started x0 y0 := by
  induction gs using List.reverseRecOn with
  | nil => exact ⟨p.x0, p.y0, rfl⟩
  | append_singleton gs g ih =>
    obtain ⟨x0, y0, hgs⟩ := ih
    rw [List.foldl_append, List.foldl_cons, List.foldl_nil, hgs]
    by_cases h : p.Takes g
    · obtain ⟨x, y, -, -, hafter⟩ := after_of_takes h
      exact ⟨x, y, (after_started p x0 y0 h).trans hafter⟩
    · exact ⟨x0, y0, after_of_not_takes h⟩

theorem foldl_after_of_refused (h : ∀ g ∈ gs, ¬p.Takes g) : gs.foldl after p = p := by
  induction gs with
  | nil => rfl
  | cons g gs ih =>
    obtain ⟨hg, hgs⟩ := List.forall_mem_cons.mp h
    rw [List.foldl_cons, after_of_not_takes hg, ih hgs]

theorem foldl_after_of_last {later : List (Guess K)} (h : p.Takes g)
    (hlater : ∀ g' ∈ later, ¬p.Takes g') :
    (gs ++ g :: later).foldl after p = p.after g := by
  obtain ⟨x0, y0, hgs⟩ := exists_started p gs
  obtain ⟨x, y, -, -, hafter⟩ := after_of_takes h
  rw [List.foldl_append, List.foldl_cons, hgs, after_started p x0 y0 h, hafter]
  exact foldl_after_of_refused hlater

end Series

end Requests

section Data
variable [Zero K] [One K] [Add K] [Neg K] [Mul K] [Div K] [LT K] [DecidableLT K] [OfScientific K]

/-- The search for a shift reads the Hessian and the options only. -/
theorem shift_find (p : Problem K) (o : Options K) (acceptable : Mat K p.vars p.vars → Bool) :
    (Subproblem.find p o acceptable).map Subproblem.shift =
      if acceptable p.cost.hess then .ok 0
      else (Subproblem.search (fun δ => acceptable (p.cost.hess.addDiagonal δ)) o.shiftGrowth
        o.shiftAttempts
        (o.shiftInitial * Subproblem.scale p)).mapError fun δ =>
          .regularization o.shiftAttempts (δ / o.shiftGrowth) := by
  unfold Subproblem.find
  dsimp only
  split
  · rfl
  · split <;> rename_i hsearch <;> rw [hsearch] <;> rfl

variable [Sub K] [LE K] [DecidableLE K] [Special K] [BEq K] [Root K]

/-- Other guesses change nothing that a problem says of its points, and none of its subproblems. -/
structure Unmoved (p : Problem K) (x0 : Option (Vec K p.vars)) (y0 : Option (Vec K p.duals)) :
    Prop where
  objective (x : Vec K p.vars) : (p.started x0 y0).objective x = p.objective x
  penalty (x : Vec K p.vars) : (p.started x0 y0).penalty x = p.penalty x
  merit (ρ : K) (x : Vec K p.vars) : (p.started x0 y0).merit ρ x = p.merit ρ x
  leftGap (x : Vec K p.vars) : (p.started x0 y0).left.gap x = p.left.gap x
  rightGap (x : Vec K p.vars) : (p.started x0 y0).right.gap x = p.right.gap x
  complementarity (x : Vec K p.vars) : (p.started x0 y0).complementarity x = p.complementarity x
  violation (x : Vec K p.vars) : (p.started x0 y0).violation x = p.violation x
  residual (x : Vec K p.vars) (y : Vec K p.duals) : (p.started x0 y0).residual x y = p.residual x y
  penaltyResidual (ρ : K) (x : Vec K p.vars) (y : Vec K p.duals) :
    (p.started x0 y0).penaltyResidual ρ x y = p.penaltyResidual ρ x y
  certified (o : Options K) (x : Vec K p.vars) (y : Vec K p.duals) :
    (p.started x0 y0).certified o x y = p.certified o x y
  classify (tol : K) (x : Vec K p.vars) (y : Vec K p.duals) :
    (p.started x0 y0).classify tol x y = p.classify tol x y
  shift (needsDefinite : Bool) (o : Options K) :
    (Subproblem.build (p.started x0 y0) needsDefinite o).map Subproblem.shift =
      (Subproblem.build p needsDefinite o).map Subproblem.shift
  penalized (δ ρ : K) (x : Vec K p.vars) :
    (⟨δ⟩ : Subproblem (p.started x0 y0)).penalized x ρ = (⟨δ⟩ : Subproblem p).penalized x ρ
  unpenalized (δ : K) (x : Vec K p.vars) :
    (⟨δ⟩ : Subproblem (p.started x0 y0)).unpenalized x = (⟨δ⟩ : Subproblem p).unpenalized x
  isRay (δ : K) (qp : Qp K p.vars p.duals) (x step : Vec K p.vars) :
    (⟨δ⟩ : Subproblem (p.started x0 y0)).isRay qp x step = (⟨δ⟩ : Subproblem p).isRay qp x step

theorem unmoved (p : Problem K) (x0 y0) : p.Unmoved x0 y0 where
  objective _ := rfl
  penalty _ := rfl
  merit _ _ := rfl
  leftGap _ := rfl
  rightGap _ := rfl
  complementarity _ := rfl
  violation _ := rfl
  residual _ _ := rfl
  penaltyResidual _ _ _ := rfl
  certified _ _ _ := rfl
  classify _ _ _ := rfl
  shift needsDefinite o := by
    rw [Subproblem.build, Subproblem.build, shift_find, shift_find]
    rfl
  penalized _ _ _ := rfl
  unpenalized _ _ := rfl
  isRay _ _ _ _ := rfl

end Data

end Problem

/-- A draft is checked before its guesses are. -/
theorem Draft.build_guess [Zero K] [One K] [Sub K] [Neg K] [Mul K] [LT K] [LE K] [DecidableLT K]
    [DecidableLE K] [OfScientific K] [Special K] (d : Draft K) (g : Guess K) (hx : d.x0 = none)
    (hy : d.y0 = none) :
    build { d with x0 := g.x0, y0 := g.y0 } = d.build >>= fun p => p.withStart g.x0 g.y0 := by
  simp only [build, bind_assoc, hx, hy]
  rfl

/-- Guesses of a draft have the outcome of the same guesses for its problem. Of a series of guesses,
those that do not fit change nothing and each of the others replaces all before it; it is only the
guesses that change, and no outcome depends on those before. -/
theorem Problem.last_guess_counts [Zero K] [One K] [Add K] [Sub K] [Neg K] [Mul K] [Div K]
    [LT K] [LE K] [DecidableLT K] [DecidableLE K] [OfScientific K] [Special K] [BEq K] [Root K] :
    (∀ (d : Draft K) (g : Guess K), d.x0 = none → d.y0 = none →
      Draft.build { d with x0 := g.x0, y0 := g.y0 } = d.build >>= fun p => p.withStart g.x0 g.y0) ∧
    ∀ (p : Problem K) (gs : List (Guess K)),
      (∀ g : Guess K, (∃ q, p.withStart g.x0 g.y0 = .ok q) ↔ p.Takes g) ∧
      (∀ g : Guess K, (gs.foldl after p).withStart g.x0 g.y0 = p.withStart g.x0 g.y0) ∧
      ((∀ g ∈ gs, ¬p.Takes g) → gs.foldl after p = p) ∧
      (∀ earlier g later, gs = earlier ++ g :: later → p.Takes g → (∀ g' ∈ later, ¬p.Takes g') →
        ∃ x y, x.map Vector.toArray = g.x0 ∧ y.map Vector.toArray = g.y0 ∧
          gs.foldl after p = p.started x y) ∧
      ∃ x y, gs.foldl after p = p.started x y ∧ p.Unmoved x y := by
  refine ⟨Draft.build_guess,
    fun p gs => ⟨fun g => takes_iff.symm, fun g => ?_, foldl_after_of_refused, ?_, ?_⟩⟩
  · obtain ⟨x0, y0, hgs⟩ := exists_started p gs
    rw [hgs, withStart_started]
  · rintro earlier g later rfl hg hlater
    rw [foldl_after_of_last hg hlater]
    exact after_of_takes hg
  · obtain ⟨x0, y0, hgs⟩ := exists_started p gs
    exact ⟨x0, y0, hgs, p.unmoved x0 y0⟩

/-- A guess of the point, one of the multipliers alone, and one of a wrong length. -/
theorem Problem.last_guess_counts_strip :
    ∃ p, Draft.strip.build = .ok p ∧
      Draft.build { Draft.strip with x0 := some #[0, 0], y0 := none } =
        p.withStart (some #[0, 0]) none ∧
      p.Takes ⟨none, some #[1, 0, 0, 0]⟩ ∧ ¬p.Takes ⟨some #[1], none⟩ ∧
      ∃ x y, x.map Vector.toArray = none ∧ y.map Vector.toArray = some #[1, 0, 0, 0] ∧
        [⟨some #[0, 0], none⟩, ⟨none, some #[1, 0, 0, 0]⟩, ⟨some #[1], none⟩].foldl after p =
          p.started x y := by
  have hbuild : Draft.strip.build.toOption.any
    (fun p => (p.withStart none (some #[1, 0, 0, 0])).isOk &&
      !(p.withStart (some #[1]) none).isOk) = true := by decide +kernel
  obtain ⟨p, hp, htests⟩ := exists_ok_of_any hbuild
  have hok {g : Guess ℚ} : p.Takes g ↔ (p.withStart g.x0 g.y0).isOk = true := by
    rw [takes_iff]
    cases p.withStart g.x0 g.y0 <;> simp [Except.isOk, Except.toBool]
  simp only [Bool.and_eq_true, Bool.not_eq_true'] at htests
  have htakes : p.Takes ⟨none, some #[1, 0, 0, 0]⟩ := hok.mpr htests.1
  have hrefused : ¬p.Takes ⟨some #[1], none⟩ :=
    fun h => Bool.false_ne_true (htests.2.symm.trans (hok.mp h))
  obtain ⟨hdraft, hseries⟩ := last_guess_counts (K := ℚ)
  obtain ⟨-, -, -, hlast, -⟩ :=
    hseries p [⟨some #[0, 0], none⟩, ⟨none, some #[1, 0, 0, 0]⟩, ⟨some #[1], none⟩]
  refine ⟨p, hp, ?_, htakes, hrefused,
    hlast [⟨some #[0, 0], none⟩] _ _ rfl htakes (by simpa using hrefused)⟩
  have hguess := hdraft Draft.strip ⟨some #[0, 0], none⟩ rfl rfl
  rw [hp] at hguess
  exact hguess

end ComplementarityQP
