import ComplementarityQP.Columns
import ComplementarityQP.Proofs.Exact
import ComplementarityQP.Proofs.Numerals

/-! Compressed columns against dense matrices. Main statement: storing and reading are inverse, up
to entries that are too small to be stored. -/
namespace ComplementarityQP

variable {K : Type} {m n : Nat}

namespace Columns

theorem length_totals (start : Nat) (ns : List Nat) : (totals start ns).length = ns.length + 1 := by
  induction ns generalizing start with
  | nil => rfl
  | cons n ns ih => simp [totals, ih]

theorem totals_head (start : Nat) (ns : List Nat) : (totals start ns).head? = some start := by
  cases ns <;> rfl

theorem totals_getLast (start : Nat) (ns : List Nat) :
    (totals start ns).getLast? = some (start + ns.sum) := by
  induction ns generalizing start with
  | nil => rfl
  | cons n ns ih =>
    rw [totals, List.getLast?_cons, ih, List.sum_cons, Option.getD_some, Nat.add_assoc]

theorem totals_rise (start : Nat) (ns : List Nat) :
    ((totals start ns).zip (totals start ns).tail).all (fun (a, b) => a ≤ b) = true := by
  induction ns generalizing start with
  | nil => rfl
  | cons n ns ih =>
    have hnext := ih (start + n)
    cases ns <;> simp_all [totals]

section Lists
variable {α : Type}

/-- The parts of `xs` between neighbouring positions. -/
def cut (xs : List α) : List Nat → List (List α)
  | a :: b :: ptrs => (xs.drop a).take (b - a) :: cut xs (b :: ptrs)
  | [_] | [] => []

theorem length_cut (xs : List α) (a : Nat) (ptrs : List Nat) :
    (cut xs (a :: ptrs)).length = ptrs.length := by
  induction ptrs generalizing a with
  | nil => rfl
  | cons b ptrs ih => simp [cut, ih]

theorem cut_totals (start : Nat) (before : List α) (cols : List (List α))
    (hstart : before.length = start) :
    cut (before ++ cols.flatten) (totals start (cols.map List.length)) = cols := by
  induction cols generalizing start before with
  | nil => rfl
  | cons col cols ih =>
    have hrest := ih (start + col.length) (before ++ col) (by simp [hstart])
    cases cols with
    | nil => simp [totals, cut, ← hstart]
    | cons next cols => simp_all [totals, cut, ← hstart]

theorem cut_getElem? (xs : List α) (ptrs : List Nat) (j : Nat) :
    (cut xs ptrs)[j]? = match ptrs[j]?, ptrs[j + 1]? with
      | some a, some b => some ((xs.drop a).take (b - a))
      | _, _ => none := by
  fun_induction cut xs ptrs generalizing j with
  | case1 a b ptrs ih =>
    cases j with
    | zero => rfl
    | succ j => simpa using ih j
  | case2 a => cases j <;> rfl
  | case3 => rfl

theorem totals_cut (xs : List α) (a : Nat) (ptrs : List Nat) (hrise : (a :: ptrs).Pairwise (· ≤ ·))
    (hwithin : ∀ b ∈ ptrs, b ≤ xs.length) :
    totals a ((cut xs (a :: ptrs)).map List.length) = a :: ptrs := by
  induction ptrs generalizing a with
  | nil => rfl
  | cons b ptrs ih =>
    have hle : a ≤ b := List.rel_of_pairwise_cons hrise (by simp)
    have hb : b ≤ xs.length := hwithin b (by simp)
    have hlength : a + ((xs.drop a).take (b - a)).length = b := by
      simp only [List.length_take, List.length_drop]
      omega
    rw [cut, List.map_cons, totals, hlength,
      ih b hrise.of_cons fun c hc => hwithin c (by simp [hc])]

theorem flatten_cut (xs : List α) (a : Nat) (ptrs : List Nat) (hrise : (a :: ptrs).Pairwise (· ≤ ·))
    {last : Nat} (hlast : (a :: ptrs).getLast? = some last) :
    xs.take a ++ (cut xs (a :: ptrs)).flatten = xs.take last := by
  induction ptrs generalizing a with
  | nil =>
    obtain rfl : a = last := by simpa using hlast
    simp [cut]
  | cons b ptrs ih =>
    have hle : a ≤ b := List.rel_of_pairwise_cons hrise (by simp)
    have hjoin : xs.take a ++ (xs.drop a).take (b - a) = xs.take b := by
      rw [← List.take_add, Nat.add_sub_cancel' hle]
    rw [cut, List.flatten_cons, ← List.append_assoc, hjoin]
    exact ih b hrise.of_cons (by simpa using hlast)

theorem rises_iff (ptrs : List Nat) :
    (ptrs.zip ptrs.tail).all (fun (a, b) => a ≤ b) = true ↔ ptrs.Pairwise (· ≤ ·) := by
  rw [← List.isChain_iff_pairwise]
  induction ptrs with
  | nil => simp
  | cons a ptrs ih =>
    cases ptrs with
    | nil => simp
    | cons b ptrs => simpa using fun _ => ih

end Lists

def columns (c : Columns K) : List (List (Nat × K)) := cut (c.rowval.zip c.nzval) c.colptr

theorem column_eq (c : Columns K) (j : Nat) : c.column j = c.columns[j]?.getD [] := by
  rw [columns, cut_getElem?, column]
  cases c.colptr[j]? <;> cases c.colptr[j + 1]? <;> rfl

theorem columns_ofLists (rows : Nat) (cols : List (List (Nat × K))) :
    (ofLists rows cols).columns = cols := by
  have hentries : (cols.flatten.map Prod.fst).zip (cols.flatten.map Prod.snd) = cols.flatten :=
    (List.zip_of_prod rfl rfl).symm
  simpa only [columns, ofLists, hentries, List.nil_append] using cut_totals 0 [] cols rfl

theorem wellFormed_ofLists {rows : Nat} {cols : List (List (Nat × K))}
    (h : ∀ col ∈ cols, ∀ e ∈ col, e.1 < rows) : (ofLists rows cols).wellFormed = true := by
  have hrows : ∀ i ∈ cols.flatten.map Prod.fst, i < rows := by
    intro i hi
    obtain ⟨e, he, rfl⟩ := List.mem_map.mp hi
    obtain ⟨col, hcol, he⟩ := List.mem_flatten.mp he
    exact h col hcol e he
  have hlength : (cols.map List.length).sum = cols.flatten.length := List.length_flatten.symm
  simp only [wellFormed, ofLists, length_totals, totals_head, totals_getLast, totals_rise,
    List.length_map, hlength, Nat.zero_add, decide_true, Bool.and_true, Bool.true_and,
    List.all_eq_true]
  exact fun i hi => decide_eq_true (hrows i hi)

/-- What passes the test is made of its columns. -/
theorem ofLists_columns {c : Columns K} (h : c.wellFormed = true) :
    ofLists c.rows c.columns = c := by
  obtain ⟨rows, cols, colptr, rowval, nzval⟩ := c
  simp only [wellFormed, Bool.and_eq_true, decide_eq_true_eq, rises_iff] at h
  obtain ⟨⟨⟨⟨⟨hcols, hvalues⟩, hhead⟩, hlast⟩, hrise⟩, -⟩ := h
  obtain ⟨ptrs, rfl⟩ := List.head?_eq_some_iff.mp hhead
  have hentries : (rowval.zip nzval).length = nzval.length := by simp [hvalues]
  have hwithin : ∀ b ∈ ptrs, b ≤ (rowval.zip nzval).length := by
    intro b hb
    obtain ⟨before, hsplit⟩ := List.getLast?_eq_some_iff.mp hlast
    have hmem : b ∈ before ++ [nzval.length] := hsplit ▸ List.mem_cons_of_mem 0 hb
    have hrise' : (before ++ [nzval.length]).Pairwise (· ≤ ·) := hsplit ▸ hrise
    rw [hentries]
    obtain hb | hb := List.mem_append.mp hmem
    · exact (List.pairwise_append.mp hrise').2.2 b hb _ (by simp)
    · simp_all
  have hflatten : (cut (rowval.zip nzval) (0 :: ptrs)).flatten = rowval.zip nzval := by
    rw [← hentries] at hlast
    have hcut := flatten_cut (rowval.zip nzval) 0 ptrs hrise hlast
    simpa only [List.take_zero, List.nil_append, List.take_length] using hcut
  simp only [ofLists, columns, totals_cut _ 0 ptrs hrise hwithin, hflatten, length_cut, mk.injEq,
    true_and]
  refine ⟨by simpa using hcols, List.map_fst_zip hvalues.le, List.map_snd_zip hvalues.ge⟩

section Entry
variable [Zero K] [Add K] {col : List (Nat × K)} {i : Nat}

theorem entry_append (before after : List (Nat × K)) :
    entry i (before ++ after) =
      after.foldl (fun s e => if e.1 = i then s + e.2 else s) (entry i before) :=
  List.foldl_append

omit [Zero K] in
theorem foldl_of_other (h : ∀ e ∈ col, e.1 ≠ i) (s : K) :
    col.foldl (fun s e => if e.1 = i then s + e.2 else s) s = s := by
  induction col with
  | nil => rfl
  | cons e col ih =>
    have he : e.1 ≠ i := h e (by simp)
    simpa [he] using ih fun f hf => h f (by simp [hf])

theorem entry_of_other (h : ∀ e ∈ col, e.1 ≠ i) : entry i col = 0 := foldl_of_other h 0

/-- A row that occurs once in a column gets its value alone. -/
theorem entry_of_mem (hrows : (col.map Prod.fst).Nodup) {v : K} (h : (i, v) ∈ col) :
    entry i col = 0 + v := by
  obtain ⟨before, after, rfl⟩ := List.append_of_mem h
  simp only [List.map_append, List.map_cons, List.nodup_append, List.nodup_cons, List.mem_cons,
    List.mem_map] at hrows
  obtain ⟨-, ⟨hafter, -⟩, hbefore⟩ := hrows
  have hbefore' : ∀ e ∈ before, e.1 ≠ i := fun e he => hbefore e.1 ⟨e, he, rfl⟩ i (.inl rfl)
  have hafter' : ∀ e ∈ after, e.1 ≠ i := fun e he heq => hafter ⟨e, he, heq⟩
  rw [entry_append, entry_of_other hbefore', List.foldl_cons, if_pos rfl, foldl_of_other hafter']

end Entry

/-- Two columns with rising rows and the same entries are the same. -/
theorem eq_of_rise {col col' : List (Nat × K)} (h : (col.map Prod.fst).Pairwise (· < ·))
    (h' : (col'.map Prod.fst).Pairwise (· < ·)) (hmem : ∀ e, e ∈ col ↔ e ∈ col') : col = col' := by
  rw [List.pairwise_map] at h h'
  have hnodup : col.Nodup := h.imp fun hlt heq => Nat.ne_of_lt hlt (congrArg Prod.fst heq)
  have hnodup' : col'.Nodup := h'.imp fun hlt heq => Nat.ne_of_lt hlt (congrArg Prod.fst heq)
  have hperm : col.Perm col' := (List.perm_ext_iff_of_nodup hnodup hnodup').mpr hmem
  exact hperm.eq_of_pairwise (fun e f _ _ hef hfe => absurd hfe (Nat.lt_asymm hef)) h h'

def Sorted (c : Columns K) : Prop := ∀ j < c.cols, ((c.column j).map Prod.fst).Pairwise (· < ·)

end Columns

section Stored
variable [Zero K] [Neg K] [LT K] [DecidableLT K] [OfScientific K]

/-- Scalars that a column gives back as they were stored: 0 is not stored, and a value that is stays
the same when it is added to 0. -/
class Storable (K : Type) [Zero K] [Add K] [Neg K] [LT K] [DecidableLT K] [OfScientific K] :
    Prop where
  zero_add (v : K) : sparsityTol < magnitude v → 0 + v = v
  zero_small : ¬sparsityTol < magnitude (0 : K)

def Mat.thresholded (A : Mat K m n) : Mat K m n :=
  ofFn fun i j => if sparsityTol < magnitude (A i j) then A i j else 0

def Mat.upper (A : Mat K m n) : Mat K m n := ofFn fun i j => if i.val ≤ j.val then A i j else 0

namespace Columns
variable (A : Mat K m n) (keep : Fin m → Fin n → Bool)

theorem mem_storedColumn {j : Fin n} {e : Nat × K} :
    e ∈ storedColumn A keep j ↔
      ∃ i : Fin m, keep i j = true ∧ sparsityTol < magnitude (A i j) ∧ (i.val, A i j) = e := by
  simp only [storedColumn, List.mem_map, List.mem_filter, List.mem_finRange, true_and,
    Bool.and_eq_true, decide_eq_true_eq, and_assoc]

theorem storedColumn_rise (j : Fin n) :
    ((storedColumn A keep j).map Prod.fst).Pairwise (· < ·) := by
  rw [storedColumn, List.map_map]
  exact List.pairwise_map.mpr ((List.pairwise_lt_finRange m).filter _)

def storedLists : List (List (Nat × K)) := (List.finRange n).map (storedColumn A keep)

theorem column_stored (j : Fin n) :
    (ofLists m (storedLists A keep)).column j = storedColumn A keep j := by
  simp [column_eq, columns_ofLists, storedLists]

theorem sorted_stored : (ofLists m (storedLists A keep)).Sorted := by
  intro j hj
  have hn : j < n := by simpa [ofLists, storedLists] using hj
  rw [column_stored A keep ⟨j, hn⟩]
  exact storedColumn_rise A keep ⟨j, hn⟩

theorem wellFormed_stored : (ofLists m (storedLists A keep)).wellFormed = true := by
  refine wellFormed_ofLists fun col hcol e he => ?_
  obtain ⟨j, -, rfl⟩ := List.mem_map.mp hcol
  obtain ⟨i, -, -, rfl⟩ := (mem_storedColumn A keep).mp he
  exact i.isLt

variable [Add K] [Storable K]

theorem entry_storedColumn (i : Fin m) (j : Fin n) :
    entry i (storedColumn A keep j) =
      if keep i j ∧ sparsityTol < magnitude (A i j) then A i j else 0 := by
  split
  · rename_i h
    have hmem : (i.val, A i j) ∈ storedColumn A keep j :=
      (mem_storedColumn A keep).mpr ⟨i, h.1, h.2, rfl⟩
    rw [entry_of_mem ((storedColumn_rise A keep j).imp Nat.ne_of_lt) hmem]
    exact Storable.zero_add _ h.2
  · rename_i h
    refine entry_of_other fun e he heq => h ?_
    obtain ⟨k, hkeep, hlarge, rfl⟩ := (mem_storedColumn A keep).mp he
    obtain rfl : k = i := Fin.ext heq
    exact ⟨hkeep, hlarge⟩

def payload (c : Columns K) (rows cols : UInt64) : Payload K :=
  .csc rows cols c.colptr c.rowval c.nzval

theorem toMat_stored {rows cols : UInt64} (hfits : Payload.fits rows cols)
    (A : Mat K rows.toNat cols.toNat) (keep : Fin rows.toNat → Fin cols.toNat → Bool)
    (name : String) :
    ((ofLists rows.toNat (storedLists A keep)).payload rows cols).toMat name =
      .ok ⟨_, _, Mat.ofFn fun i j =>
        if keep i j ∧ sparsityTol < magnitude (A i j) then A i j else 0⟩ := by
  have hshape : (⟨rows.toNat, cols.toNat, (ofLists rows.toNat (storedLists A keep)).colptr,
      (ofLists rows.toNat (storedLists A keep)).rowval,
      (ofLists rows.toNat (storedLists A keep)).nzval⟩ : Columns K) =
      ofLists rows.toNat (storedLists A keep) := by
    simp [ofLists, storedLists]
  have hformed := wellFormed_stored A keep
  rw [← hshape] at hformed
  simp only [payload, Payload.toMat, hformed, hfits, Bool.not_true, Bool.false_eq_true, if_false,
    if_true]
  congr 2
  ext i j
  simp only [toMat, Mat.get_ofFn]
  exact (congrArg (entry i.val) (column_stored A keep j)).trans (entry_storedColumn A keep i j)

/-- A column with rising rows and no small value is stored again as it is. -/
theorem storedColumn_toMat {c : Columns K} (hrows : ∀ i ∈ c.rowval, i < c.rows) (hsorted : c.Sorted)
    (hlarge : ∀ v ∈ c.nzval, sparsityTol < magnitude v) (j : Fin c.cols) :
    storedColumn c.toMat (fun _ _ => true) j = c.column j := by
  have hentry : ∀ e ∈ c.column j, e.1 < c.rows ∧ sparsityTol < magnitude e.2 := by
    intro e he
    have hmem : e ∈ c.rowval.zip c.nzval := by
      unfold column at he
      split at he
      · exact List.mem_of_mem_drop (List.mem_of_mem_take he)
      · cases he
    exact ⟨hrows _ (List.of_mem_zip hmem).1, hlarge _ (List.of_mem_zip hmem).2⟩
  have hrise := hsorted j j.isLt
  have hvalue : ∀ e ∈ c.column j, entry e.1 (c.column j) = e.2 := fun e he => by
    rw [entry_of_mem (hrise.imp Nat.ne_of_lt) he, Storable.zero_add _ (hentry e he).2]
  have hmem : ∀ e, e ∈ storedColumn c.toMat (fun _ _ => true) j ↔ e ∈ c.column j := by
    intro e
    rw [mem_storedColumn]
    simp only [toMat, Mat.get_ofFn, true_and]
    constructor
    · rintro ⟨i, hi, rfl⟩
      by_contra hnot
      -- A row without a stored value would hold 0, which is small.
      have hother : ∀ e ∈ c.column j, e.1 ≠ i := by
        intro e he heq
        rw [← heq, hvalue e he] at hnot
        exact hnot he
      rw [entry_of_other hother] at hi
      exact Storable.zero_small hi
    · intro he
      refine ⟨⟨e.1, (hentry e he).1⟩, ?_, ?_⟩
      · rw [hvalue e he]
        exact (hentry e he).2
      · rw [hvalue e he]
  exact eq_of_rise (storedColumn_rise c.toMat (fun _ _ => true) j) hrise hmem

theorem ofMat_toMat {c : Columns K} (hformed : c.wellFormed = true) (hsorted : c.Sorted)
    (hlarge : ∀ v ∈ c.nzval, sparsityTol < magnitude v) : ofMat c.toMat = c := by
  have hrows : ∀ i ∈ c.rowval, i < c.rows := by
    simp only [wellFormed, Bool.and_eq_true, List.all_eq_true, decide_eq_true_eq] at hformed
    exact hformed.2
  have hlists : (List.finRange c.cols).map (storedColumn c.toMat fun _ _ => true) = c.columns := by
    have hlength : c.columns.length = c.cols := congrArg Columns.cols (ofLists_columns hformed)
    apply List.ext_getElem
    · simp [hlength]
    · intro j hj hj'
      simp [storedColumn_toMat hrows hsorted hlarge, column_eq, hj']
  rw [ofMat, hlists, ofLists_columns hformed]

end Columns

end Stored

namespace Columns

/-- Storing and reading are inverse: what was stored is read as the thresholded matrix, or its upper
triangle, wherever a vector can hold the matrix; what was read is stored as the same lists, if they
are sorted and without small values. -/
structure Inverse (K : Type) [Zero K] [Add K] [Neg K] [LT K] [DecidableLT K] [OfScientific K] :
    Prop where
  read_ofMat (rows cols : UInt64) (A : Mat K rows.toNat cols.toNat) (name : String) :
    (Payload.fits rows cols →
      ((ofMat A).payload rows cols).toMat name = .ok ⟨_, _, A.thresholded⟩) ∧
      (ofMat A).wellFormed = true ∧ (ofMat A).Sorted
  read_ofUpper (rows cols : UInt64) (A : Mat K rows.toNat cols.toNat) (name : String) :
    rows ≠ 0 ∨ cols = 0 → ∃ c, ofUpper A = .ok c ∧
      (Payload.fits rows cols →
        (c.payload rows cols).toMat name = .ok ⟨_, _, A.upper.thresholded⟩) ∧
      c.wellFormed = true ∧ c.Sorted
  ofMat_read (rows cols : UInt64) (colptr rowval : List Nat) (nzval : List K) (name : String)
    (M : AnyMat K) :
    Payload.toMat name (.csc rows cols colptr rowval nzval) = .ok M →
      Sorted ⟨rows.toNat, cols.toNat, colptr, rowval, nzval⟩ →
        (∀ v ∈ nzval, sparsityTol < magnitude v) →
      ofMat M.mat = ⟨rows.toNat, cols.toNat, colptr, rowval, nzval⟩

theorem ofUpper_eq_ok [Zero K] [Neg K] [LT K] [DecidableLT K] [OfScientific K] (A : Mat K m n)
    (h : m ≠ 0 ∨ n = 0) :
    ofUpper A = .ok (ofLists m (storedLists A fun i j => i.val ≤ j.val)) := by
  have hdefined : ¬(m = 0 && n ≠ 0) = true := by
    rcases h with h | h <;> simp [h]
  rw [ofUpper, if_neg hdefined, storedLists]

theorem inverse [Zero K] [Add K] [Neg K] [LT K] [DecidableLT K] [OfScientific K] [Storable K] :
    Inverse K where
  read_ofMat rows cols A name := by
    refine ⟨fun hfits => (toMat_stored hfits A (fun _ _ => true) name).trans ?_,
      wellFormed_stored A _, sorted_stored A _⟩
    simp [Mat.thresholded]
  read_ofUpper rows cols A name hshape := by
    have hdefined : rows.toNat ≠ 0 ∨ cols.toNat = 0 :=
      hshape.imp (fun h h0 => h (UInt64.toNat_inj.mp h0)) fun h => by rw [h]; rfl
    refine ⟨_, ofUpper_eq_ok A hdefined, fun hfits => (toMat_stored hfits A _ name).trans ?_,
      wellFormed_stored A _, sorted_stored A _⟩
    congr 2
    ext i j
    by_cases hle : i.val ≤ j.val <;> simp [Mat.thresholded, Mat.upper, hle]
  ofMat_read rows cols colptr rowval nzval name M hread hsorted hlarge := by
    simp only [Payload.toMat] at hread
    split at hread
    · cases hread
    · rename_i hformed
      split at hread
      · cases hread
        exact ofMat_toMat (by simpa using hformed) hsorted hlarge
      · cases hread

end Columns

section Scalars

instance [Field K] [LinearOrder K] [IsStrictOrderedRing K] : Storable K where
  zero_add v _ := zero_add v
  zero_small := by
    rw [magnitude_eq_abs, abs_zero]
    norm_num [sparsityTol]

open Float.Model in
theorem float_zero_add {v : Float} (h : ∀ s, v.toModel.unpack ≠ .zero s) : 0 + v = v := by
  have hstays : UnpackedFloat.add Format.binary64 (.zero .positive) v.toModel.unpack =
      v.toModel.unpack := by
    cases hv : v.toModel.unpack with
    | zero s => exact absurd hv (h s)
    | notANumber => rfl
    | infinity s => rfl
    | finite s m e hm => rfl
  calc 0 + v
    _ = .ofModel (pack
          (UnpackedFloat.add Format.binary64 (.zero .positive) v.toModel.unpack)) := rfl
    _ = .ofModel (pack v.toModel.unpack) := by rw [hstays]
    _ = v := Float.ofBits_toBits v

/-- Only the sum of 0 and `-0` is another float, and `-0` is not stored. -/
instance : Storable Float where
  zero_add v hlarge := by
    refine float_zero_add fun s hs => ?_
    obtain rfl : Float.ofModel (.pack (.zero s)) = v := by
      rw [← hs]
      exact Float.ofBits_toBits v
    revert hlarge
    cases s <;> decide +kernel
  zero_small := by decide +kernel

end Scalars

namespace Columns
variable [Field K] [LinearOrder K] [IsStrictOrderedRing K]

/-- Storing and reading are inverse, in exact arithmetic and in floats. A symmetric matrix is the
sum of the stored upper triangle and its transpose, less the diagonal that both have. -/
theorem storing_inverse_to_reading :
    Inverse K ∧ Inverse Float ∧
    ∀ (size : UInt64) (A : Mat K size.toNat size.toNat) (name : String), Payload.fits size size →
      (∀ i j, A i j = A j i) → ∃ c U, ofUpper A = .ok c ∧
        (c.payload size size).toMat name = .ok ⟨_, _, U⟩ ∧
        ∀ i j, U i j + U j i - (if i = j then U i i else 0) = A.thresholded i j := by
  refine ⟨inverse, inverse, fun size A name hfits hsymm => ?_⟩
  obtain ⟨c, hstored, hread, -⟩ := inverse.read_ofUpper size size A name (ne_or_eq size 0)
  refine ⟨c, A.upper.thresholded, hstored, hread hfits, fun i j => ?_⟩
  obtain hlt | rfl | hgt := lt_trichotomy i j
  · simp [Mat.thresholded, Mat.upper, hlt.le, hlt.not_ge, hlt.ne]
  · simp [Mat.thresholded, Mat.upper]
  · simp [Mat.thresholded, Mat.upper, hgt.le, hgt.not_ge, hgt.ne', hsymm i j]

/-- A symmetric matrix with a small entry, and lists with an empty column. -/
theorem storing_inverse_to_reading_small :
    let A : Mat ℚ 2 2 := Mat.ofFn fun i j => if i = j then (if i = 0 then 4 else 1e-15) else 1
    (∀ i j, A i j = A j i) ∧ (∃ c U, ofUpper A = .ok c ∧ (c.payload 2 2).toMat "P" = .ok ⟨2, 2, U⟩ ∧
      ∀ i j, U i j + U j i - (if i = j then U i i else 0) = A.thresholded i j) ∧
    let c : Columns ℚ := ⟨2, 3, [0, 1, 1, 3], [0, 0, 1], [1, 2, -1]⟩
    c.Sorted ∧ (∀ v ∈ c.nzval, sparsityTol < magnitude v) ∧ ofMat c.toMat = c := by
  intro A
  obtain ⟨hexact, -, hupper⟩ := storing_inverse_to_reading (K := ℚ)
  have hsymm : ∀ i j, A i j = A j i := by decide +kernel
  have hsorted : Sorted (⟨2, 3, [0, 1, 1, 3], [0, 0, 1], [1, 2, -1]⟩ : Columns ℚ) := by
    unfold Sorted
    decide +kernel
  have hlarge : ∀ v ∈ [1, 2, (-1 : ℚ)], sparsityTol < magnitude v := by decide +kernel
  exact ⟨hsymm, hupper 2 A "P" rfl hsymm, hsorted, hlarge,
    hexact.ofMat_read 2 3 [0, 1, 1, 3] [0, 0, 1] [1, 2, -1] "A" _ rfl hsorted hlarge⟩

end Columns

end ComplementarityQP
