import ComplementarityQP.Proofs.Scatter
import ComplementarityQP.Proofs.Supplied

/-! The matrices of a document. Main statement: row-by-row values are accepted if and only if there
is one for each entry. A wrong number is rejected for its dimensions, unless it is what is left in a
word of too large a product: then there is no matrix and no such fault either. -/
namespace ComplementarityQP

variable {K : Type} {m n : Nat}

inductive MatrixField where
  | quad | left | right | general

def MatrixField.name : MatrixField → String
  | .quad => "Q"
  | .left => "L"
  | .right => "R"
  | .general => "A"

theorem bind_eq_error {ε α β : Type} {c : Except ε α} {rest : α → Except ε β} {e : ε} :
    c >>= rest = .error e ↔ c = .error e ∨ ∃ a, c = .ok a ∧ rest a = .error e := by
  cases c with
  | error e => simp [bind, Except.bind]
  | ok a => simp [bind, Except.bind]

theorem Mat.get_stack_castAdd {k : Nat} (A : Mat K m n) (B : Mat K k n) (i : Fin m) (j : Fin n) :
    (A.stack B) (i.castAdd k) j = A i j := by
  rw [stack, get_ofFn, Fin.addCases_left]

def AnyMat.Tops (M : AnyMat K) (N : Mat K m n) : Prop :=
  ∃ (k : Nat) (G : Mat K k n), M = ⟨k, n, G⟩ ∧ ∃ hk : k ≤ m, ∀ i j, N (i.castLE hk) j = G i j

/-- The matrix stands in the problem. Rows made from box bounds follow the general ones. -/
def Problem.HasMatrix (p : Problem K) : MatrixField → AnyMat K → Prop
  | .quad, M => M = ⟨p.vars, p.vars, p.quad⟩
  | .left, M => M = ⟨p.pairs, p.vars, p.left.coeff⟩
  | .right, M => M = ⟨p.pairs, p.vars, p.right.coeff⟩
  | .general, M => M.Tops p.general.coeff

namespace Payload

/-- The sizes are too large for a matrix, and no test sees it: the product of the sizes exceeds a
word and what is left of it is the number of dense values, or the lists of columns are well
formed. -/
def Overflows : Payload K → Prop
  | .dense rows cols values => 2 ^ 64 ≤ rows.toNat * cols.toNat ∧
    values.size = rows.toNat * cols.toNat % 2 ^ 64
  | .csc rows cols colptr rowval nzval =>
    2 ^ 60 ≤ rows.toNat * cols.toNat ∧
      Columns.Formed ⟨rows.toNat, cols.toNat, colptr, rowval, nzval⟩

section Dense
variable [Zero K] [Add K] {name : String} {rows cols : UInt64} {values : Array K}

/-- Every outcome of values that are given row by row. -/
theorem dense_cases (name : String) (rows cols : UInt64) (values : Array K) :
    let read := toMat name (.dense rows cols values)
    let count := rows.toNat * cols.toNat
    (∃ h : values.size = count, count < 2 ^ 64 ∧ read = .ok ⟨_, _, ⟨⟨values, h⟩⟩⟩) ∨
    (values.size ≠ count % 2 ^ 64 ∧
      read = .error (.valueCount name values.size rows.toNat cols.toNat)) ∨
    (2 ^ 64 ≤ count ∧ values.size = count % 2 ^ 64 ∧ read = .error .undefinedShape) := by
  intro read count
  have hword : (rows * cols).toNat = count % 2 ^ 64 := UInt64.toNat_mul rows cols
  by_cases hsize : values.size = count % 2 ^ 64
  · by_cases hcount : count < 2 ^ 64
    · have hsame : values.size = count := hsize.trans (Nat.mod_eq_of_lt hcount)
      refine .inl ⟨hsame, hcount, ?_⟩
      simp only [read, toMat, hword]
      rw [if_neg (not_not_intro hsize), dif_pos hsame]
    · have hother : values.size ≠ count := by
        have hlt := Nat.mod_lt count (Nat.two_pow_pos 64)
        omega
      refine .inr (.inr ⟨Nat.le_of_not_lt hcount, hsize, ?_⟩)
      simp only [read, toMat, hword]
      rw [if_neg (not_not_intro hsize), dif_neg hother]
  · refine .inr (.inl ⟨hsize, ?_⟩)
    simp only [read, toMat, hword]
    rw [if_pos hsize]

theorem dense_eq_ok_iff :
    (∃ M, toMat name (.dense rows cols values) = .ok M) ↔
      values.size = rows.toNat * cols.toNat ∧ values.size < 2 ^ 64 := by
  obtain ⟨hsize, hcount, hread⟩ | ⟨hsize, hread⟩ | ⟨hcount, hsize, hread⟩ :=
    dense_cases name rows cols values
  · exact iff_of_true ⟨_, hread⟩ ⟨hsize, hsize ▸ hcount⟩
  · refine iff_of_false (fun ⟨M, hM⟩ => nomatch hread.symm.trans hM) fun ⟨hsame, hlt⟩ => hsize ?_
    rw [← hsame, Nat.mod_eq_of_lt hlt]
  · refine iff_of_false (fun ⟨M, hM⟩ => nomatch hread.symm.trans hM) fun ⟨hsame, hlt⟩ => ?_
    exact absurd (hsame ▸ hlt) (Nat.not_lt.mpr hcount)

theorem dense_dimensions_iff :
    (∃ fault, toMat name (.dense rows cols values) = .error fault ∧ fault.kind = .dimensions) ↔
      values.size ≠ rows.toNat * cols.toNat % 2 ^ 64 := by
  obtain ⟨hsize, hcount, hread⟩ | ⟨hsize, hread⟩ | ⟨hcount, hsize, hread⟩ :=
    dense_cases name rows cols values
  · refine iff_of_false (fun ⟨_, hfault, _⟩ => nomatch hread.symm.trans hfault) fun hne => hne ?_
    rw [hsize, Nat.mod_eq_of_lt hcount]
  · exact iff_of_true ⟨_, hread, rfl⟩ hsize
  · refine iff_of_false ?_ fun hne => hne hsize
    rintro ⟨fault, hfault, hkind⟩
    cases hread.symm.trans hfault
    cases hkind

theorem dense_undefined_iff :
    toMat name (.dense rows cols values) = .error .undefinedShape ↔
      Overflows (.dense rows cols values) := by
  obtain ⟨hsize, hcount, hread⟩ | ⟨hsize, hread⟩ | ⟨hcount, hsize, hread⟩ :=
    dense_cases name rows cols values
  · exact iff_of_false (fun h => nomatch hread.symm.trans h) fun h =>
      absurd hcount (Nat.not_lt.mpr h.1)
  · exact iff_of_false (fun h => nomatch hread.symm.trans h) fun h => hsize h.2
  · exact iff_of_true hread ⟨hcount, hsize⟩

/-- The values stand row by row. -/
theorem get_of_dense {M : AnyMat K} (h : toMat name (.dense rows cols values) = .ok M) :
    ∃ A : Mat K rows.toNat cols.toNat, M = ⟨_, _, A⟩ ∧
      ∀ i j, ∃ h : i.val * cols.toNat + j.val < values.size,
        A i j = values[i.val * cols.toNat + j.val] := by
  obtain ⟨hsize, hcount, hread⟩ | ⟨hsize, hread⟩ | ⟨hcount, hsize, hread⟩ :=
    dense_cases name rows cols values
  · cases hread.symm.trans h
    exact ⟨_, rfl, fun i j => ⟨hsize ▸ flat_lt i.isLt j.isLt, rfl⟩⟩
  · cases hread.symm.trans h
  · cases hread.symm.trans h

end Dense

theorem kind_of_toMat [Zero K] [Add K] {P : Payload K} {name : String} {fault : Fault K}
    (h : P.toMat name = .error fault) :
    fault.kind = .dimensions ∨ fault = .undefinedShape ∧ P.Overflows := by
  cases P with
  | dense rows cols values =>
    obtain ⟨hsize, hcount, hread⟩ | ⟨hsize, hread⟩ | ⟨hcount, hsize, hread⟩ :=
      dense_cases name rows cols values
    · cases hread.symm.trans h
    · cases hread.symm.trans h
      exact .inl rfl
    · cases hread.symm.trans h
      exact .inr ⟨rfl, hcount, hsize⟩
  | csc rows cols colptr rowval nzval =>
    obtain ⟨hformed, hfits, hread⟩ | ⟨hnot, hread⟩ | ⟨hformed, hfits, hread⟩ :=
      csc_cases rows cols colptr rowval nzval name
    · cases hread.symm.trans h
    · cases hread.symm.trans h
      exact .inl rfl
    · cases hread.symm.trans h
      exact .inr ⟨rfl, by simpa [fits] using hfits, hformed⟩

end Payload

namespace Draft

def matrix? (d : Draft K) : MatrixField → Option (AnyMat K)
  | .quad => some d.hessian
  | .left => d.left
  | .right => d.right
  | .general => d.general

section Build
variable [Zero K] [One K] [Add K] [Sub K] [Neg K] [Mul K] [LT K] [LE K] [DecidableLT K]
  [DecidableLE K] [OfScientific K] [Special K] {d : Draft K}

omit [Add K] in
theorem shape_of_checkObjective {Q : Mat K d.gradient.size d.gradient.size}
    (h : d.checkObjective = .ok Q) :
    d.hessian = ⟨_, _, Q⟩ := by
  simp only [checkObjective, bind_eq_ok] at h
  obtain ⟨-, -, Q', hQ, -, -, -, -, -, -, hpure⟩ := h
  cases hpure
  exact checkShape_eq_ok.mp hQ

omit [Add K] in
theorem Checked.hasMatrix (c : d.Checked) {f : MatrixField} {M : AnyMat K}
    (hM : d.matrix? f = some M) :
    c.problem.HasMatrix f M := by
  obtain ⟨hleft, hright⟩ := checkPairs_eq_ok c.sides
  cases f with
  | quad =>
    cases hM
    exact shape_of_checkObjective c.objective
  | left =>
    obtain rfl : M = _ := by simpa [show d.left = some M from hM] using hleft
    rfl
  | right =>
    obtain rfl : M = _ := by simpa [show d.right = some M from hM] using hright
    rfl
  | general =>
    have hrows := c.generalRows
    obtain rfl : M = _ := by simpa [show d.general = some M from hM] using hrows
    exact ⟨c.rows, c.general.coeff, rfl, Nat.le_add_right _ _, Mat.get_stack_castAdd _ _⟩

end Build

end Draft

namespace Document
variable {d : Document K}

def matrix? (d : Document K) : MatrixField → Option (Payload K)
  | .quad => some d.hessian
  | .left => d.left
  | .right => d.right
  | .general => d.general

section Draft
variable [Zero K] [Add K]

theorem matrices_of_sides {sides : Option (AnyMat K × AnyMat K)} (h : d.sides = .ok sides) :
    (∀ P, d.left = some P → ∃ M, P.toMat "L" = .ok M ∧ sides.map Prod.fst = some M) ∧
    ∀ P, d.right = some P → ∃ M, P.toMat "R" = .ok M ∧ sides.map Prod.snd = some M := by
  unfold Document.sides at h
  split at h
  · rename_i L R hleft hright
    simp only [bind_eq_ok] at h
    obtain ⟨L', hL, R', hR, hpure⟩ := h
    cases hpure
    rw [hleft, hright]
    exact ⟨fun P hP => Option.some.inj hP ▸ ⟨L', hL, rfl⟩,
      fun P hP => Option.some.inj hP ▸ ⟨R', hR, rfl⟩⟩
  · rename_i hleft hright
    rw [hleft, hright]
    exact ⟨nofun, nofun⟩
  · cases h

/-- Every matrix of the draft has been read from its field. -/
theorem matrix_of_draft {D : Draft K} (h : d.draft = .ok D) {f : MatrixField} {P : Payload K}
    (hP : d.matrix? f = some P) :
    ∃ M, P.toMat f.name = .ok M ∧ D.matrix? f = some M := by
  simp only [draft_eq, bind_eq_ok] at h
  obtain ⟨Q, hQ, sides, hsides, A, hA, hpure⟩ := h
  cases hpure
  cases f with
  | quad =>
    cases hP
    exact ⟨Q, hQ, rfl⟩
  | left => exact (matrices_of_sides hsides).1 P hP
  | right => exact (matrices_of_sides hsides).2 P hP
  | general =>
    rw [generalRows, show d.general = some P from hP] at hA
    obtain ⟨M, hM, hpure⟩ := bind_eq_ok.mp hA
    cases hpure
    exact ⟨M, hM, rfl⟩

theorem fault_of_sides {fault : Fault K} (h : d.sides = .error fault) :
    fault = .unpaired ∧ d.left.isSome ≠ d.right.isSome ∨
      ∃ f P, d.matrix? f = some P ∧ P.toMat f.name = .error fault := by
  unfold Document.sides at h
  split at h
  · rename_i L R hL hR
    simp only [bind_eq_error] at h
    obtain hfault | ⟨L', -, hfault | ⟨R', -, hpure⟩⟩ := h
    · exact .inr ⟨.left, L, hL, hfault⟩
    · exact .inr ⟨.right, R, hR, hfault⟩
    · cases hpure
  · cases h
  · rename_i hboth hneither
    cases h
    refine .inl ⟨rfl, fun hsame => ?_⟩
    cases hL : d.left <;> cases hR : d.right <;> simp_all

/-- A draft fails on the fault of one of its matrices, or on a side without the other. -/
theorem fault_of_draft {fault : Fault K} (h : d.draft = .error fault) :
    fault = .unpaired ∧ d.left.isSome ≠ d.right.isSome ∨
      ∃ f P, d.matrix? f = some P ∧ P.toMat f.name = .error fault := by
  simp only [draft_eq, bind_eq_error] at h
  obtain hQ | ⟨Q, -, hsides | ⟨sides, -, hA | ⟨A, -, hpure⟩⟩⟩ := h
  · exact .inr ⟨.quad, _, rfl, hQ⟩
  · exact fault_of_sides hsides
  · unfold generalRows at hA
    split at hA
    · rename_i P hP
      obtain hfault | ⟨M, -, hpure⟩ := bind_eq_error.mp hA
      · exact .inr ⟨.general, P, hP, hfault⟩
      · cases hpure
    · cases hA
  · cases hpure

end Draft

section Problem
variable [Zero K] [One K] [Add K] [Sub K] [Neg K] [Mul K] [LT K] [LE K] [DecidableLT K]
  [DecidableLE K] [OfScientific K] [Special K] {f : MatrixField} {P : Payload K}

/-- Every matrix of an accepted document has been read from its field and stands in the problem. -/
theorem matrix_of_accepted {p : Problem K} (h : d.draft >>= Draft.build = .ok p)
    (hP : d.matrix? f = some P) :
    ∃ M, P.toMat f.name = .ok M ∧ p.HasMatrix f M := by
  obtain ⟨D, hD, hbuild⟩ := bind_eq_ok.mp h
  obtain ⟨M, hread, hM⟩ := matrix_of_draft hD hP
  obtain ⟨c, hstart⟩ := Draft.exists_checked hbuild
  obtain ⟨x0, y0, rfl⟩ := Problem.withStart_eq_ok hstart
  refine ⟨M, hread, ?_⟩
  cases f <;> exact c.hasMatrix hM

/-- The fault of a document with a matrix that cannot be read. -/
theorem fault_of_matrix {fault : Fault K} (hP : d.matrix? f = some P)
    (hfault : P.toMat f.name = .error fault) :
    ∃ fault, d.draft >>= Draft.build = .error fault ∧
      (fault.kind = .dimensions ∨ fault = .undefinedShape ∧ ∃ f P, d.matrix? f = some P ∧
        P.Overflows) := by
  cases hdraft : d.draft with
  | ok D =>
    obtain ⟨M, hM, -⟩ := matrix_of_draft hdraft hP
    cases hM.symm.trans hfault
  | error first =>
    refine ⟨first, rfl, ?_⟩
    obtain ⟨rfl, -⟩ | ⟨f', P', hP', hfirst⟩ := fault_of_draft hdraft
    · exact .inl rfl
    · exact (Payload.kind_of_toMat hfirst).imp_right fun h => ⟨h.1, f', P', hP', h.2⟩

/-- A document whose matrices can all be read goes on to be built. -/
theorem built_of_matrices (hpaired : d.left.isSome = d.right.isSome)
    (h : ∀ f P, d.matrix? f = some P → ∃ M, P.toMat f.name = .ok M) :
    ∃ D, d.draft = .ok D ∧ d.draft >>= Draft.build = D.build := by
  cases hdraft : d.draft with
  | ok D => exact ⟨D, rfl, rfl⟩
  | error fault =>
    obtain ⟨-, hunpaired⟩ | ⟨f, P, hP, hfault⟩ := fault_of_draft hdraft
    · exact absurd hpaired hunpaired
    · obtain ⟨M, hM⟩ := h f P hP
      cases hM.symm.trans hfault

end Problem

end Document

theorem Problem.ofText_eq {s : String} {d : Document Float}
    (h : Json.parse? s >>= Document.decode = some d) :
    Problem.ofText s = d.draft >>= Draft.build := by
  unfold ofText
  rw [h]

namespace Payload

/-- Values row by row are accepted if and only if there is one for each entry, and no more than a
word can count. Another number is a fault of dimensions, unless it is what the product of the sizes
overflows to: then there is no matrix. A problem is read from a text only if all its matrices are
accepted, and has their entries; no other fault of a matrix is reported. -/
theorem dense_accepted_iff_filled [Zero K] [Add K] :
    (∀ (rows cols : UInt64) (values : Array K) (name : String),
      let read := Payload.toMat name (.dense rows cols values)
      let count := rows.toNat * cols.toNat
      ((∃ M, read = .ok M) ↔ values.size = count ∧ values.size < 2 ^ 64) ∧
      ((∃ fault, read = .error fault ∧ fault.kind = .dimensions) ↔ values.size ≠ count % 2 ^ 64) ∧
      (read = .error .undefinedShape ↔ Overflows (.dense rows cols values)) ∧
      ∀ M, read = .ok M → ∃ A : Mat K rows.toNat cols.toNat, M = ⟨_, _, A⟩ ∧
        ∀ i j, ∃ h : i.val * cols.toNat + j.val < values.size,
          A i j = values[i.val * cols.toNat + j.val]) ∧
    ∀ s d, Json.parse? s >>= Document.decode = some d →
      (∀ p, Problem.ofText s = .ok p → ∀ f P, d.matrix? f = some P → ∃ M, P.toMat f.name = .ok M ∧
        p.HasMatrix f M) ∧
      (∀ f P, d.matrix? f = some P → (¬∃ M, P.toMat f.name = .ok M) →
        ∃ fault, Problem.ofText s = .error fault ∧
        (fault.kind = .dimensions ∨ fault = .undefinedShape ∧ ∃ f P, d.matrix? f = some P ∧
          P.Overflows)) ∧
      (d.left.isSome = d.right.isSome →
        (∀ f P, d.matrix? f = some P → ∃ M, P.toMat f.name = .ok M) →
        ∃ D, d.draft = .ok D ∧ Problem.ofText s = D.build) := by
  refine ⟨fun rows cols values name => ?_, fun s d hs => ?_⟩
  · exact ⟨dense_eq_ok_iff, dense_dimensions_iff, dense_undefined_iff, fun M => get_of_dense⟩
  · rw [Problem.ofText_eq hs]
    refine ⟨fun p hp f P hP => Document.matrix_of_accepted hp hP, fun f P hP hread => ?_,
      Document.built_of_matrices⟩
    cases hfault : P.toMat f.name with
    | ok M => exact absurd ⟨M, hfault⟩ hread
    | error fault => exact Document.fault_of_matrix hP hfault

/-- A square matrix in a text, and lists that are too short or too long. -/
theorem dense_accepted_iff_filled_square :
    let s := "\x7b\"Q\": [\"dense\", 2, 2, [2, 0, 0, 2]], \"g\": [-2, -2]\x7d"
    (∃ d p, Json.parse? s >>= Document.decode = some d ∧ Problem.ofText s = .ok p ∧
      ∃ M, d.hessian.toMat "Q" = .ok M ∧ M = ⟨p.vars, p.vars, p.quad⟩) ∧
    (∃ fault, toMat "Q" (.dense 2 2 #[1, 2, (3 : Float)]) = .error fault ∧
      fault.kind = .dimensions) ∧
    ∃ fault, toMat "Q" (.dense (2 ^ 32) (2 ^ 32) #[(1 : Float)]) = .error fault ∧
      fault.kind = .dimensions := by
  intro s
  obtain ⟨hdense, htext⟩ := dense_accepted_iff_filled (K := Float)
  have hread : (Json.parse? s >>= Document.decode).isSome = true := by decide +kernel
  have haccepted : (Problem.ofText s).toOption.any (fun _ => true) = true := by decide +kernel
  obtain ⟨d, hd⟩ := Option.isSome_iff_exists.mp hread
  obtain ⟨p, hp, -⟩ := exists_ok_of_any haccepted
  obtain ⟨M, hM, hquad⟩ := (htext s d hd).1 p hp .quad d.hessian rfl
  exact ⟨⟨d, p, hd, hp, M, hM, hquad⟩, (hdense 2 2 _ "Q").2.1.mpr (by decide),
    (hdense _ _ _ "Q").2.1.mpr (by decide)⟩

/-- No values for `2³² × 2³²` entries: neither a matrix nor a fault of dimensions. -/
theorem overflow_passes_count :
    let s := "\x7b\"Q\": [\"dense\", 4294967296, 4294967296, []], \"g\": [0]\x7d"
    (#[] : Array Float).size ≠ 2 ^ 32 * 2 ^ 32 ∧
    toMat "Q" (.dense (2 ^ 32) (2 ^ 32) (#[] : Array Float)) = .error .undefinedShape ∧
    (Fault.undefinedShape : Fault Float).kind ≠ .dimensions ∧
    Problem.ofText s = .error .undefinedShape := by
  refine ⟨by decide, dense_undefined_iff.mpr ⟨by decide, by decide⟩, by decide, rfl⟩

end Payload

end ComplementarityQP
