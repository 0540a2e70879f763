import ComplementarityQP.Proofs.Classes

/-! Classes pair by pair. Main statement: the class of a point is the least of those that each of
its biactive pairs has on its own, so that it does not depend on the order of the pairs, on which
side is which, or on other pairs. -/
namespace ComplementarityQP

variable {K : Type} {n q k r : Nat}

namespace Side

def select (s : Side K q n) (f : Fin k → Fin q) : Side K k n where
  coeff := Mat.ofFn fun i => s.coeff (f i)
  lower := Vector.ofFn fun i => s.lower.get (f i)
  upper := Vector.ofFn fun i => s.upper.get (f i)

def append (s : Side K q n) (t : Side K k n) : Side K (q + k) n where
  coeff := s.coeff.stack t.coeff
  lower := s.lower.join t.lower
  upper := s.upper.join t.upper

variable [Field K] (s : Side K q n) (t : Side K k n) (x : Vec K n)

theorem get_gap_select (f : Fin k → Fin q) (i : Fin k) :
    ((s.select f).gap x).get i = (s.gap x).get (f i) := by
  rw [get_gap, get_gap]
  simp [select, Mat.mulVec]

theorem get_gap_castAdd (i : Fin q) : ((s.append t).gap x).get (i.castAdd k) = (s.gap x).get i := by
  rw [get_gap, get_gap]
  simp [append, Mat.mulVec_stack]

theorem get_gap_natAdd (i : Fin k) : ((s.append t).gap x).get (i.natAdd q) = (t.gap x).get i := by
  rw [get_gap, get_gap]
  simp [append, Mat.mulVec_stack]

end Side

namespace Problem

section Parts

def withPairs (y : Vec K (r + q + q)) (yl yr : Vec K k) : Vec K (r + k + k) :=
  Vec.join (Vec.join (Vector.ofFn (generalPart y)) yl) yr

@[simp] theorem leftPart_withPairs (y : Vec K (r + q + q)) (yl yr : Vec K k) (i : Fin k) :
    leftPart (withPairs y yl yr) i = yl.get i := by
  simp [leftPart, withPairs]

@[simp] theorem rightPart_withPairs (y : Vec K (r + q + q)) (yl yr : Vec K k) (i : Fin k) :
    rightPart (withPairs y yl yr) i = yr.get i := by
  simp [rightPart, withPairs]

variable (y : Vec K (r + q + q))

def selectParts (f : Fin k → Fin q) : Vec K (r + k + k) :=
  withPairs y (Vector.ofFn fun i => leftPart y (f i)) (Vector.ofFn fun i => rightPart y (f i))

def exchangeParts : Vec K (r + q + q) :=
  withPairs y (Vector.ofFn (rightPart y)) (Vector.ofFn (leftPart y))

def appendParts (yl yr : Vec K k) : Vec K (r + (q + k) + (q + k)) :=
  withPairs y (Vec.join (Vector.ofFn (leftPart y)) yl) (Vec.join (Vector.ofFn (rightPart y)) yr)

variable [Field K] [LinearOrder K] [IsStrictOrderedRing K] [Special K] (tol : K)

omit [IsStrictOrderedRing K] in
theorem pairClass_selectParts (f : Fin k → Fin q) (i : Fin k) :
    pairClass tol (leftPart (selectParts y f) i) (rightPart (selectParts y f) i) =
      pairClass tol (leftPart y (f i)) (rightPart y (f i)) := by
  simp [selectParts]

theorem pairClass_exchangeParts [Exact K] (i : Fin q) :
    pairClass tol (leftPart (exchangeParts y) i) (rightPart (exchangeParts y) i) =
      pairClass tol (leftPart y i) (rightPart y i) := by
  rw [pairClass_comm]
  simp [exchangeParts]

omit [IsStrictOrderedRing K] in
theorem pairClass_appendParts (yl yr : Vec K k) (i : Fin q) :
    pairClass tol (leftPart (appendParts y yl yr) (i.castAdd k))
      (rightPart (appendParts y yl yr) (i.castAdd k)) =
      pairClass tol (leftPart y i) (rightPart y i) := by
  simp [appendParts]

end Parts

def select (p : Problem K) (f : Fin k → Fin p.pairs) : Problem K where
  vars := p.vars
  rows := p.rows
  pairs := k
  quad := p.quad
  lin := p.lin
  general := p.general
  left := p.left.select f
  right := p.right.select f
  x0 := p.x0
  y0 := p.y0.map fun y => selectParts y f

def exchange (p : Problem K) : Problem K :=
  { p with left := p.right, right := p.left, y0 := p.y0.map exchangeParts }

/-- The problem with more pairs, whose initial multipliers are zero. -/
def append [Zero K] (p : Problem K) (left right : Side K k p.vars) : Problem K where
  vars := p.vars
  rows := p.rows
  pairs := p.pairs + k
  quad := p.quad
  lin := p.lin
  general := p.general
  left := p.left.append left
  right := p.right.append right
  x0 := p.x0
  y0 := p.y0.map fun y => appendParts y (Vec.zero k) (Vec.zero k)

variable [Field K] [LinearOrder K] [IsStrictOrderedRing K] [Special K] {p p' : Problem K} {tol : K}
  {x : Vec K p.vars} {y : Vec K p.duals}

instance (p : Problem K) (tol : K) (x : Vec K p.vars) : DecidablePred (p.Biactive tol x) := fun _ =>
  inferInstanceAs (Decidable (_ ∧ _))

section Biactive
omit [IsStrictOrderedRing K] [Special K]

theorem biactive_select {f : Fin k → Fin p.pairs} {i : Fin k} :
    (p.select f).Biactive tol x i ↔ p.Biactive tol x (f i) := by
  change ((p.left.select f).gap x).get i ≤ tol ∧ ((p.right.select f).gap x).get i ≤ tol ↔ _
  rw [Side.get_gap_select, Side.get_gap_select]
  rfl

theorem biactive_exchange {i : Fin p.pairs} : p.exchange.Biactive tol x i ↔ p.Biactive tol x i :=
  and_comm

variable {left right : Side K k p.vars}

theorem biactive_append_castAdd {i : Fin p.pairs} :
    (p.append left right).Biactive tol x (i.castAdd k) ↔ p.Biactive tol x i := by
  change ((p.left.append left).gap x).get (i.castAdd k) ≤ tol ∧
    ((p.right.append right).gap x).get (i.castAdd k) ≤ tol ↔ _
  rw [Side.get_gap_castAdd, Side.get_gap_castAdd]
  rfl

theorem biactive_append_natAdd {i : Fin k} :
    (p.append left right).Biactive tol x (i.natAdd p.pairs) ↔ (left.gap x).get i ≤ tol ∧
      (right.gap x).get i ≤ tol := by
  change ((p.left.append left).gap x).get (i.natAdd p.pairs) ≤ tol ∧
    ((p.right.append right).gap x).get (i.natAdd p.pairs) ≤ tol ↔ _
  rw [Side.get_gap_natAdd, Side.get_gap_natAdd]

end Biactive

variable [Exact K]

/-- Every biactive pair of the second problem is found, with its class, among those of the first. -/
theorem classify_le_of_found {x' : Vec K p'.vars} {y' : Vec K p'.duals} (htol : 0 < tol)
    (h : ∀ i', p'.Biactive tol x' i' → ∃ i, p.Biactive tol x i ∧
      pairClass tol (leftPart y i) (rightPart y i) = pairClass tol (leftPart y' i')
    (rightPart y' i')) :
    p.classify tol x y ≤ p'.classify tol x' y' := by
  refine (le_classify_iff htol).mpr fun i' hi' => ?_
  obtain ⟨i, hi, hclass⟩ := h i' hi'
  exact hclass ▸ (le_classify_iff htol).mp le_rfl i hi

theorem classify_le_select (htol : 0 < tol) (f : Fin k → Fin p.pairs) :
    p.classify tol x y ≤ (p.select f).classify tol x (selectParts y f) :=
  classify_le_of_found htol fun j hj =>
    ⟨f j, biactive_select.mp hj, (pairClass_selectParts y tol f j).symm⟩

theorem select_classify_le (htol : 0 < tol) {f : Fin k → Fin p.pairs}
    (hf : ∀ i, p.Biactive tol x i → i ∈ Set.range f) :
    (p.select f).classify tol x (selectParts y f) ≤ p.classify tol x y := by
  refine classify_le_of_found htol fun i hi => ?_
  obtain ⟨j, rfl⟩ := hf i hi
  exact ⟨j, biactive_select.mpr hi, pairClass_selectParts y tol f j⟩

/-- The class of a biactive pair is the one of the problem that has no other. -/
theorem classify_single (htol : 0 < tol) {i : Fin p.pairs} (hi : p.Biactive tol x i) :
    (p.select fun _ : Fin 1 => i).classify tol x (selectParts y fun _ => i) =
      pairClass tol (leftPart y i) (rightPart y i) := by
  have hclass (j : Fin 1) := pairClass_selectParts y tol (fun _ : Fin 1 => i) j
  refine eq_of_forall_le_iff fun c => (le_classify_iff htol).trans ⟨fun h => ?_, fun h j _ => ?_⟩
  · exact hclass 0 ▸ h (0 : Fin 1) (biactive_select.mpr hi)
  · exact (hclass j).symm ▸ h

theorem classify_exchange (htol : 0 < tol) :
    p.exchange.classify tol x (exchangeParts y) = p.classify tol x y :=
  le_antisymm
    (classify_le_of_found htol fun i hi =>
      ⟨i, biactive_exchange.mpr hi, pairClass_exchangeParts y tol i⟩)
    (classify_le_of_found htol fun i hi =>
      ⟨i, biactive_exchange.mp hi, (pairClass_exchangeParts y tol i).symm⟩)

section Append
variable {left right : Side K k p.vars} {yl yr : Vec K k}

theorem append_classify_le (htol : 0 < tol) :
    (p.append left right).classify tol x (appendParts y yl yr) ≤ p.classify tol x y :=
  classify_le_of_found htol fun i hi =>
    ⟨i.castAdd k, biactive_append_castAdd.mpr hi, pairClass_appendParts y tol yl yr i⟩

theorem classify_le_append (htol : 0 < tol)
    (h : ∀ i, ¬((left.gap x).get i ≤ tol ∧ (right.gap x).get i ≤ tol)) :
    p.classify tol x y ≤ (p.append left right).classify tol x (appendParts y yl yr) := by
  refine classify_le_of_found htol fun j hj => ?_
  induction j using Fin.addCases with
  | left i => exact ⟨i, biactive_append_castAdd.mp hj, (pairClass_appendParts y tol yl yr i).symm⟩
  | right i => exact absurd (biactive_append_natAdd.mp hj) (h i)

end Append

/-- The class of a point is the least class of its biactive pairs, each on its own. -/
theorem class_is_least_of_pairs (htol : 0 < tol) (p : Problem K) (x : Vec K p.vars)
    (y : Vec K p.duals) :
    p.classify tol x y = (Finset.univ.filter (p.Biactive tol x)).inf
      (fun i => (p.select fun _ : Fin 1 => i).classify tol x (selectParts y fun _ => i)) ∧
    ((∀ i, ¬p.Biactive tol x i) → p.classify tol x y = .strong) ∧
    (∀ π : Equiv.Perm (Fin p.pairs), (p.select π).classify tol x (selectParts y π) =
      p.classify tol x y) ∧
    p.exchange.classify tol x (exchangeParts y) = p.classify tol x y ∧
    (∀ {k : Nat} (f : Fin k → Fin p.pairs), (∀ i, p.Biactive tol x i → i ∈ Set.range f) →
      (p.select f).classify tol x (selectParts y f) = p.classify tol x y) ∧
    (∀ {k : Nat} (left right : Side K k p.vars) (yl yr : Vec K k),
      (p.append left right).classify tol x (appendParts y yl yr) ≤ p.classify tol x y ∧
      ((∀ i, ¬((left.gap x).get i ≤ tol ∧ (right.gap x).get i ≤ tol)) →
        (p.append left right).classify tol x (appendParts y yl yr) = p.classify tol x y)) := by
  have hselect {k : Nat} (f : Fin k → Fin p.pairs)
    (hf : ∀ i, p.Biactive tol x i → i ∈ Set.range f) :
      (p.select f).classify tol x (selectParts y f) = p.classify tol x y :=
    le_antisymm (select_classify_le htol hf) (classify_le_select htol f)
  refine ⟨?_, fun h => ?_, fun π => hselect π fun i _ => π.surjective i, classify_exchange htol,
    hselect, fun left right yl yr => ⟨append_classify_le htol, fun h => ?_⟩⟩
  · refine eq_of_forall_le_iff fun c => (le_classify_iff htol).trans ?_
    rw [Finset.le_inf_iff]
    refine forall_congr' fun i => ?_
    rw [Finset.mem_filter_univ]
    exact forall_congr' fun hi => by rw [classify_single htol hi]
  · exact top_le_iff.mp ((le_classify_iff htol).mpr fun i hi => absurd hi (h i))
  · exact le_antisymm (append_classify_le htol) (classify_le_append htol h)

/-- Only the second pair of the corner is biactive at `(2, 0, 0)`. It makes the class, alone, with
the first pair behind it, or with the first pair twice. -/
theorem class_is_least_of_pairs_corner :
    let x : Vec ℚ corner.vars := #v[2, 0, 0]
    let y : Vec ℚ corner.duals := #v[0, -2, -3, -1, -1]
    let first : Fin 1 → Fin corner.pairs := fun _ => (0 : Fin 2)
    let second : Fin 1 → Fin corner.pairs := fun _ => (1 : Fin 2)
    let turned : Equiv.Perm (Fin corner.pairs) := Equiv.swap (0 : Fin 2) (1 : Fin 2)
    (0 : ℚ) < 1 ∧ corner.classify 1 x y = .clarke ∧
    (corner.select second).classify 1 x (selectParts y second) = .clarke ∧
    (corner.select turned).classify 1 x (selectParts y turned) = .clarke ∧
    (corner.append (corner.left.select first) (corner.right.select first)).classify 1 x
      (appendParts y #v[-2] #v[-1]) = .clarke := by
  intro x y first second turned
  have hclass : corner.classify 1 x y = .clarke := by decide +kernel
  have honly : ∀ i, corner.Biactive 1 x i → i ∈ Set.range second := by
    have hsecond : ∀ i, corner.Biactive 1 x i → i.val = 1 := by
      unfold Biactive
      decide +kernel
    exact fun i hi => ⟨0, Fin.ext (hsecond i hi).symm⟩
  have hfirst : ∀ i,
      ¬(((corner.left.select first).gap x).get i ≤ 1 ∧
        ((corner.right.select first).gap x).get i ≤ 1) := by
    decide +kernel
  obtain ⟨-, -, hturned, -, hselect, happend⟩ := class_is_least_of_pairs one_pos corner x y
  exact ⟨one_pos, hclass, (hselect second honly).trans hclass, (hturned turned).trans hclass,
    ((happend _ _ #v[-2] #v[-1]).2 hfirst).trans hclass⟩

end Problem

end ComplementarityQP
