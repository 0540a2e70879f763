import ComplementarityQP.Problem.Document
import ComplementarityQP.Proofs.Compression
import Mathlib.Algebra.BigOperators.Intervals
import Mathlib.Data.UInt

/-! Compressed columns as sums of their stored values. Main statement: lists that pass the test are
read without a look-up out of range, and every stored value is added to one entry, unless the sizes
are too large for a matrix. -/
namespace ComplementarityQP

variable {K : Type} {m n : Nat}

def Mat.increase [Add K] (A : Mat K m n) (i : Nat) (j : Fin n) (v : K) : Mat K m n :=
  ofFn fun i' j' => if i'.val = i ∧ j' = j then A i' j' + v else A i' j'

namespace Columns

structure Formed (c : Columns K) : Prop where
  count : c.colptr.length = c.cols + 1
  first : c.colptr.head? = some 0
  rises : c.colptr.Pairwise (· ≤ ·)
  last : c.colptr.getLast? = some c.nzval.length
  paired : c.rowval.length = c.nzval.length
  within : ∀ i ∈ c.rowval, i < c.rows

theorem wellFormed_iff {c : Columns K} : c.wellFormed = true ↔ c.Formed := by
  simp only [wellFormed, Bool.and_eq_true, decide_eq_true_eq, rises_iff]
  rw [List.all_eq_true]
  simp only [decide_eq_true_eq]
  constructor
  · rintro ⟨⟨⟨⟨⟨count, paired⟩, first⟩, last⟩, rises⟩, within⟩
    exact ⟨count, first, rises, last, paired, within⟩
  · rintro ⟨count, first, rises, last, paired, within⟩
    exact ⟨⟨⟨⟨⟨count, paired⟩, first⟩, last⟩, rises⟩, within⟩

def Stores (c : Columns K) (k i j : Nat) : Prop :=
  c.rowval[k]? = some i ∧ (∃ a ∈ c.colptr[j]?, a ≤ k) ∧ ∃ b ∈ c.colptr[j + 1]?, k < b

instance (c : Columns K) (k i j : Nat) : Decidable (c.Stores k i j) :=
  inferInstanceAs (Decidable (_ ∧ _ ∧ _))

section Loop
variable [Add K]

/-- Adds the value at place `k` to its entry in column `j`, unless a look-up is out of range. -/
def addPlace (c : Columns K) (j : Fin c.cols) (A : Mat K c.rows c.cols) (k : Nat) :
    Option (Mat K c.rows c.cols) := do
  let i ← c.rowval[k]?
  let v ← c.nzval[k]?
  if i < c.rows then some (A.increase i j v) else none

def addColumn (c : Columns K) (A : Mat K c.rows c.cols) (j : Fin c.cols) :
    Option (Mat K c.rows c.cols) := do
  let a ← c.colptr[j.val]?
  let b ← c.colptr[j.val + 1]?
  (List.range' a (b - a)).foldlM (c.addPlace j) A

def scatter [Zero K] (c : Columns K) : Option (Mat K c.rows c.cols) :=
  (List.finRange c.cols).foldlM c.addColumn (Mat.zero c.rows c.cols)

end Loop

section Places
variable {c : Columns K} {j : Nat}

theorem Formed.pointer_mono (h : c.Formed) {j' a a' : Nat} (hj : j ≤ j')
    (ha : c.colptr[j]? = some a) (ha' : c.colptr[j']? = some a') : a ≤ a' := by
  obtain ⟨hstart, rfl⟩ := List.getElem?_eq_some_iff.mp ha
  obtain ⟨hend, rfl⟩ := List.getElem?_eq_some_iff.mp ha'
  obtain rfl | hlt := hj.eq_or_lt
  · exact le_rfl
  · exact List.pairwise_iff_getElem.mp h.rises _ _ _ _ hlt

theorem Formed.pointers (h : c.Formed) (hj : j < c.cols) :
    ∃ a b, c.colptr[j]? = some a ∧ c.colptr[j + 1]? = some b ∧ a ≤ b ∧ b ≤ c.nzval.length := by
  have hcount := h.count
  have hend : c.colptr[c.cols]? = some c.nzval.length := by
    rw [← h.last, List.getLast?_eq_getElem?, hcount, Nat.add_sub_cancel]
  have ha : c.colptr[j]? = some c.colptr[j] := List.getElem?_eq_getElem _
  have hb : c.colptr[j + 1]? = some c.colptr[j + 1] := List.getElem?_eq_getElem _
  exact ⟨_, _, ha, hb, h.pointer_mono j.le_succ ha hb, h.pointer_mono hj hb hend⟩

theorem column_eq_of_pointers {a b : Nat} (ha : c.colptr[j]? = some a)
    (hb : c.colptr[j + 1]? = some b) :
    c.column j = ((c.rowval.zip c.nzval).drop a).take (b - a) := by
  unfold column
  rw [ha, hb]

theorem stores_iff_of_pointers {a b k i : Nat} (ha : c.colptr[j]? = some a)
    (hb : c.colptr[j + 1]? = some b) :
    c.Stores k i j ↔ c.rowval[k]? = some i ∧ a ≤ k ∧ k < b := by
  simp [Stores, ha, hb]

theorem mem_column_of_pointers {a b k : Nat} {e : Nat × K} (ha : c.colptr[j]? = some a)
    (hb : c.colptr[j + 1]? = some b) (hk : (c.rowval.zip c.nzval)[k]? = some e)
    (hwithin : a ≤ k ∧ k < b) :
    e ∈ c.column j := by
  have hplace : k - a < b - a ∧ a + (k - a) = k := by omega
  refine List.mem_of_getElem? (i := k - a) ?_
  rw [column_eq_of_pointers ha hb, List.getElem?_take_of_lt hplace.1, List.getElem?_drop,
    hplace.2, hk]

theorem rows_of_mem_column (h : c.Formed) {e : Nat × K} (he : e ∈ c.column j) : e.1 < c.rows := by
  unfold column at he
  split at he
  · exact h.within _ (List.of_mem_zip (List.mem_of_mem_drop (List.mem_of_mem_take he))).1
  · cases he

end Places

section Loop
variable [Add K] {c : Columns K}

theorem addPlace_eq {k : Nat} {e : Nat × K} (hk : (c.rowval.zip c.nzval)[k]? = some e)
    (he : e.1 < c.rows) (j : Fin c.cols) (A : Mat K c.rows c.cols) :
    c.addPlace j A k = some (A.increase e.1 j e.2) := by
  obtain ⟨hrow, hvalue⟩ := List.getElem?_zip_eq_some.mp hk
  simp [addPlace, hrow, hvalue, he]

/-- The places of a list of entries. -/
theorem foldlM_addPlace {ks : List Nat} {col : List (Nat × K)} {j : Fin c.cols}
    (h : List.Forall₂ (fun k e => (c.rowval.zip c.nzval)[k]? = some e ∧ e.1 < c.rows) ks col)
    (A : Mat K c.rows c.cols) :
    ks.foldlM (c.addPlace j) A = some (col.foldl (fun A e => A.increase e.1 j e.2) A) := by
  induction h generalizing A with
  | nil => rfl
  | cons he _ ih =>
    rw [List.foldlM_cons, addPlace_eq he.1 he.2]
    exact ih _

theorem addColumn_eq (h : c.Formed) (A : Mat K c.rows c.cols) (j : Fin c.cols) :
    c.addColumn A j = some ((c.column j).foldl (fun A e => A.increase e.1 j e.2) A) := by
  obtain ⟨a, b, ha, hb, hab, hlength⟩ := h.pointers j.isLt
  have hcolumn := column_eq_of_pointers ha hb
  have hplaces : List.Forall₂ (fun k e => (c.rowval.zip c.nzval)[k]? = some e ∧ e.1 < c.rows)
      (List.range' a (b - a)) (c.column j) := by
    refine List.forall₂_iff_get.mpr
      ⟨?_, fun i hi hi' => ⟨?_, rows_of_mem_column h (List.get_mem _ _)⟩⟩
    · have hpaired := h.paired
      simp only [hcolumn, List.length_range', List.length_take, List.length_drop, List.length_zip]
      omega
    · have hplace : (c.column j)[i]? = (c.rowval.zip c.nzval)[a + i]? := by
        rw [hcolumn, List.getElem?_take_of_lt (by simpa using hi), List.getElem?_drop]
      simpa using hplace.symm.trans (List.getElem?_eq_getElem hi')
  simp only [addColumn, ha, hb, Option.bind_eq_bind, Option.bind_some]
  exact foldlM_addPlace hplaces A

/-- What one column adds to an entry. -/
theorem get_foldl_increase (col : List (Nat × K)) (A : Mat K m n) (j j' : Fin n) (i : Fin m) :
    (col.foldl (fun A e => A.increase e.1 j e.2) A) i j' =
      if j' = j then col.foldl
        (fun s e => if e.1 = i.val then s + e.2 else s) (A i j') else A i j' := by
  induction col generalizing A with
  | nil => simp
  | cons e col ih =>
    rw [List.foldl_cons, ih, List.foldl_cons]
    by_cases hj : j' = j
    · simp [Mat.increase, hj, eq_comm]
    · simp [Mat.increase, hj]

/-- What a list of columns adds to an entry. -/
theorem foldlM_addColumn (h : c.Formed) {js : List (Fin c.cols)} (hjs : js.Nodup)
    (A : Mat K c.rows c.cols) :
    ∃ B, js.foldlM c.addColumn A = some B ∧ ∀ i j, B i j =
      if j ∈ js then (c.column j).foldl
        (fun s e => if e.1 = i.val then s + e.2 else s) (A i j) else A i j := by
  induction js generalizing A with
  | nil => exact ⟨A, rfl, fun i j => by simp⟩
  | cons j₀ js ih =>
    obtain ⟨hfresh, hjs⟩ := List.nodup_cons.mp hjs
    obtain ⟨B, hB, hentries⟩ := ih hjs ((c.column j₀).foldl (fun A e => A.increase e.1 j₀ e.2) A)
    refine ⟨B, ?_, fun i j => ?_⟩
    · rw [List.foldlM_cons, addColumn_eq h]
      exact hB
    · -- Each column is added once, so an entry changes in one step at most.
      rw [hentries, get_foldl_increase]
      by_cases hj : j = j₀
      · simp [hj, hfresh]
      · simp [hj]

/-- Every look-up is in range, and the values of an entry are added in the order in which they are
stored. -/
theorem scatter_eq [Zero K] (h : c.Formed) : c.scatter = some c.toMat := by
  obtain ⟨B, hB, hentries⟩ :=
    foldlM_addColumn h (List.nodup_finRange c.cols) (Mat.zero c.rows c.cols)
  have hsame : B = c.toMat := by
    ext i j
    have hzero : Mat.zero (K := K) c.rows c.cols i j = 0 := by simp [Mat.zero, Mat.get]
    rw [hentries, if_pos (List.mem_finRange j), hzero, toMat, Mat.get_ofFn, entry]
  rw [scatter, hB, hsame]

end Loop

section Sum
variable [AddCommMonoid K] {c : Columns K} {j : Nat}

theorem entry_eq_sum (i : Nat) (col : List (Nat × K)) :
    entry i col = (col.map fun e => if e.1 = i then e.2 else 0).sum := by
  have hfrom (s : K) : col.foldl (fun s e => if e.1 = i then s + e.2 else s) s =
      s + (col.map fun e => if e.1 = i then e.2 else 0).sum := by
    induction col generalizing s with
    | nil => simp
    | cons e col ih =>
      rw [List.foldl_cons, ih, List.map_cons, List.sum_cons, ← add_assoc]
      split <;> simp
  rw [entry, hfrom, zero_add]

theorem entry_perm (i : Nat) {col col' : List (Nat × K)} (h : col.Perm col') :
    entry i col = entry i col' := by
  rw [entry_eq_sum, entry_eq_sum]
  exact (h.map _).sum_eq

theorem sum_part {α : Type} (xs : List α) (f : α → K) (a len : Nat) :
    (((xs.drop a).take len).map f).sum = ∑ k ∈ Finset.range len, (xs[a + k]?.map f).getD 0 := by
  induction len with
  | zero => simp
  | succ len ih =>
    rw [List.take_add_one, List.map_append, List.sum_append, ih, Finset.sum_range_succ,
      List.getElem?_drop]
    cases xs[a + len]? <;> simp

/-- An entry is the sum of the values that belong to it. -/
theorem entry_column (h : c.Formed) (i : Nat) (hj : j < c.cols) :
    entry i (c.column j) = ∑ k : Fin c.nzval.length with c.Stores k.val i j, c.nzval[k] := by
  obtain ⟨a, b, ha, hb, hab, hlength⟩ := h.pointers hj
  let value (k : Nat) : K := if c.Stores k i j then c.nzval[k]?.getD 0 else 0
  have hplace (k : Nat) (hk : k < b - a) :
      ((c.rowval.zip c.nzval)[a + k]?.map fun e => if e.1 = i then e.2 else 0).getD 0 =
      value (a + k) := by
    have hvalue : a + k < c.nzval.length := by omega
    have hrow : a + k < c.rowval.length := h.paired ▸ hvalue
    have hwithin : a ≤ a + k ∧ a + k < b := by omega
    simp [value, stores_iff_of_pointers ha hb, hrow, hvalue, hwithin]
  have houtside : ∀ k ∈ Finset.range c.nzval.length, k ∉ Finset.Ico a b → value k = 0 := by
    intro k _ hk
    refine if_neg fun hstores => hk (Finset.mem_Ico.mpr ?_)
    exact ((stores_iff_of_pointers ha hb).mp hstores).2
  have hsubset : Finset.Ico a b ⊆ Finset.range c.nzval.length := by
    intro k hk
    simp only [Finset.mem_Ico, Finset.mem_range] at hk ⊢
    omega
  calc entry i (c.column j)
      = ∑ k ∈ Finset.range (b - a),
          ((c.rowval.zip c.nzval)[a + k]?.map fun e => if e.1 = i then e.2 else 0).getD 0 := by
        rw [entry_eq_sum, column_eq_of_pointers ha hb, sum_part]
    _ = ∑ k ∈ Finset.range (b - a), value (a + k) :=
      Finset.sum_congr rfl fun k hk => hplace k (Finset.mem_range.mp hk)
    _ = ∑ k ∈ Finset.Ico a b, value k := (Finset.sum_Ico_eq_sum_range value a b).symm
    _ = ∑ k ∈ Finset.range c.nzval.length, value k := Finset.sum_subset hsubset houtside
    _ = ∑ k : Fin c.nzval.length, value k := Finset.sum_range value
    _ = ∑ k : Fin c.nzval.length with c.Stores k.val i j, c.nzval[k] := by
      simp [value, Finset.sum_filter]

end Sum

section Owner
variable {c : Columns K}

theorem exists_column_of_rises {ptrs : List Nat} {k first last : Nat}
    (hfirst : ptrs.head? = some first) (hlast : ptrs.getLast? = some last)
    (hk : first ≤ k ∧ k < last) :
    ∃ j a b, ptrs[j]? = some a ∧ ptrs[j + 1]? = some b ∧ a ≤ k ∧ k < b := by
  induction ptrs generalizing first with
  | nil => cases hfirst
  | cons a ptrs ih =>
    obtain rfl : a = first := Option.some.inj hfirst
    cases ptrs with
    | nil =>
      obtain rfl : a = last := Option.some.inj hlast
      omega
    | cons b ptrs =>
      by_cases hb : k < b
      · exact ⟨0, a, b, rfl, rfl, hk.1, hb⟩
      · obtain ⟨j, a', b', ha', hb', hk'⟩ :=
          ih rfl (by simpa using hlast) ⟨Nat.le_of_not_lt hb, hk.2⟩
        exact ⟨j + 1, a', b', ha', hb', hk'⟩

/-- The column of a place. -/
theorem Formed.exists_column (h : c.Formed) {k : Nat} (hk : k < c.nzval.length) :
    ∃ j a b, j < c.cols ∧ c.colptr[j]? = some a ∧ c.colptr[j + 1]? = some b ∧ a ≤ k ∧ k < b := by
  obtain ⟨j, a, b, ha, hb, hwithin⟩ := exists_column_of_rises h.first h.last ⟨Nat.zero_le k, hk⟩
  have hcount := h.count
  have hnext := (List.getElem?_eq_some_iff.mp hb).1
  exact ⟨j, a, b, by omega, ha, hb, hwithin⟩

theorem not_lt_of_stores (h : c.Formed) {k i i' j j' : Nat} (hj : c.Stores k i j)
    (hj' : c.Stores k i' j') :
    ¬j < j' := by
  obtain ⟨-, -, b, hb, hkb⟩ := hj
  obtain ⟨-, ⟨a, ha, hak⟩, -⟩ := hj'
  intro hlt
  have hle : b ≤ a := h.pointer_mono (Nat.succ_le_of_lt hlt) hb ha
  omega

/-- Every stored value belongs to one entry. -/
theorem existsUnique_stores (h : c.Formed) (k : Fin c.nzval.length) :
    ∃! e : Fin c.rows × Fin c.cols, c.Stores k e.1 e.2 := by
  have hrow : k.val < c.rowval.length := by
    rw [h.paired]
    exact k.isLt
  obtain ⟨j, a, b, hcols, ha, hb, hak, hkb⟩ := h.exists_column k.isLt
  have hstores : c.Stores k c.rowval[k] j :=
    (stores_iff_of_pointers ha hb).mpr ⟨List.getElem?_eq_getElem hrow, hak, hkb⟩
  refine ⟨(⟨c.rowval[k], h.within _ (List.getElem_mem hrow)⟩, ⟨j, hcols⟩), hstores, fun e he => ?_⟩
  have hsame : e.1.val = c.rowval[k] := Option.some.inj (he.1.symm.trans hstores.1)
  have hcolumn : e.2.val = j := Nat.le_antisymm (Nat.le_of_not_lt (not_lt_of_stores h hstores he))
    (Nat.le_of_not_lt (not_lt_of_stores h he hstores))
  exact Prod.ext (Fin.ext hsame) (Fin.ext hcolumn)

end Owner

/-- The lists hold each column in some other order. -/
structure Reorders (c : Columns K) (rowval : List Nat) (nzval : List K) : Prop where
  places : rowval.length = c.rowval.length
  values : nzval.length = c.nzval.length
  perm : ∀ j < c.cols, ({ c with rowval, nzval }.column j).Perm (c.column j)

section Order
variable {c : Columns K} {rowval : List Nat} {nzval : List K}

theorem Reorders.symm (h : c.Reorders rowval nzval) :
    Reorders { c with rowval, nzval } c.rowval c.nzval :=
  ⟨h.places.symm, h.values.symm, fun j hj => (h.perm j hj).symm⟩

theorem Formed.reorders (h : c.Formed) (hr : c.Reorders rowval nzval) :
    Formed { c with rowval, nzval } where
  count := h.count
  first := h.first
  rises := h.rises
  last := by rw [h.last, hr.values]
  paired := by rw [hr.places, hr.values, h.paired]
  within := by
    intro i hi
    obtain ⟨k, hk, rfl⟩ := List.mem_iff_getElem.mp hi
    have hlength : k < c.nzval.length := h.paired ▸ hr.places ▸ hk
    have hvalue : k < nzval.length := hr.values ▸ hlength
    obtain ⟨j, a, b, hcols, ha, hb, hwithin⟩ := h.exists_column hlength
    have hplace : (rowval.zip nzval)[k]? = some (rowval[k], nzval[k]) :=
      List.getElem?_zip_eq_some.mpr ⟨List.getElem?_eq_getElem hk, List.getElem?_eq_getElem hvalue⟩
    have hmem := mem_column_of_pointers (c := { c with rowval, nzval }) ha hb hplace hwithin
    exact rows_of_mem_column h ((hr.perm j hcols).mem_iff.mp hmem)

theorem formed_reorders_iff (hr : c.Reorders rowval nzval) :
    Formed { c with rowval, nzval } ↔ c.Formed :=
  ⟨fun h => h.reorders hr.symm, fun h => h.reorders hr⟩

theorem toMat_reorders [AddCommMonoid K] (hr : c.Reorders rowval nzval) :
    toMat { c with rowval, nzval } = c.toMat := by
  ext i j
  simp only [toMat, Mat.get_ofFn]
  exact entry_perm i (hr.perm j j.isLt)

end Order

end Columns

namespace Payload
open Columns

/-- Three outcomes, told apart by two conditions of which the first is tested. -/
theorem outcome_iff {α : Type} {read : Except (Fault K) α} {tested possible : Prop} {M : α}
    {fault : Fault K} (hfault : fault.kind = .dimensions)
    (h : tested ∧ possible ∧ read = .ok M ∨ ¬tested ∧ read = .error fault ∨
      tested ∧ ¬possible ∧ read = .error .undefinedShape) :
    ((∃ M, read = .ok M) ↔ tested ∧ possible) ∧
    ((∃ f, read = .error f ∧ f.kind = .dimensions) ↔ ¬tested) ∧
    (read = .error fault ↔ ¬tested) ∧
    (read = .error .undefinedShape ↔ tested ∧ ¬possible) := by
  have hkind : (Fault.undefinedShape : Fault K).kind ≠ .dimensions := nofun
  have hother : fault ≠ .undefinedShape := fun heq => hkind (heq ▸ hfault)
  obtain ⟨htested, hpossible, rfl⟩ | ⟨htested, rfl⟩ | ⟨htested, hpossible, rfl⟩ := h
  · simp [htested, hpossible]
  · simp [htested, hfault, hother]
  · simp [htested, hpossible, hkind, hother.symm]

section Read
variable (rows cols : UInt64) (colptr rowval : List Nat) (nzval : List K) (name : String)

/-- Every outcome of compressed columns. -/
theorem csc_cases [Zero K] [Add K] :
    let c : Columns K := ⟨rows.toNat, cols.toNat, colptr, rowval, nzval⟩
    let read := toMat name (.csc rows cols colptr rowval nzval)
    (c.Formed ∧ fits rows cols ∧ read = .ok ⟨_, _, c.toMat⟩) ∨
    (¬c.Formed ∧ read = .error (.malformedColumns name rows.toNat cols.toNat)) ∨
    (c.Formed ∧ ¬fits rows cols ∧ read = .error .undefinedShape) := by
  intro c read
  by_cases hformed : c.Formed
  · have hread : read = if fits rows cols then .ok ⟨_, _, c.toMat⟩ else .error .undefinedShape :=
      if_neg (by simpa using wellFormed_iff.mpr hformed)
    by_cases hfits : fits rows cols
    · exact .inl ⟨hformed, hfits, hread.trans (if_pos hfits)⟩
    · exact .inr (.inr ⟨hformed, hfits, hread.trans (if_neg hfits)⟩)
  · exact .inr (.inl ⟨hformed, if_pos (by simpa using mt wellFormed_iff.mp hformed)⟩)

theorem csc_undefined_iff [Zero K] [Add K] :
    toMat name (.csc rows cols colptr rowval nzval) = .error .undefinedShape ↔
    Columns.Formed (⟨rows.toNat, cols.toNat, colptr, rowval, nzval⟩ : Columns K) ∧
      ¬fits rows cols :=
  (outcome_iff rfl (csc_cases rows cols colptr rowval nzval name)).2.2.2

/-- Compressed columns are accepted if and only if their lists are formed as they should be and a
vector can hold the matrix. Then no look-up is out of range while the values are added up, each
value belongs to one entry, an entry is the sum of its values, and the order within the columns does
not matter. Lists that are not so formed are rejected for their dimensions. Formed ones with too
large sizes have no matrix, and are not rejected either. -/
theorem csc_accepted_iff_formed [AddCommMonoid K] :
    let c : Columns K := ⟨rows.toNat, cols.toNat, colptr, rowval, nzval⟩
    let read := Payload.toMat name (.csc rows cols colptr rowval nzval)
    ((∃ A, read = .ok A) ↔ c.Formed ∧ rows.toNat * cols.toNat < 2 ^ 60) ∧
    ((∃ fault, read = .error fault ∧ fault.kind = .dimensions) ↔ ¬c.Formed) ∧
    (read = .error (.malformedColumns name rows.toNat cols.toNat) ↔ ¬c.Formed) ∧
    (read = .error .undefinedShape ↔ c.Formed ∧ 2 ^ 60 ≤ rows.toNat * cols.toNat) ∧
    (∀ M, read = .ok M → ∃ A : Mat K rows.toNat cols.toNat, M = ⟨_, _, A⟩ ∧ c.scatter = some A ∧
      (∀ i j, A i j = ∑ k : Fin nzval.length with c.Stores k.val i j, nzval[k]) ∧
      ∀ k : Fin nzval.length, ∃! e : Fin rows.toNat × Fin cols.toNat, c.Stores k e.1 e.2) ∧
    ∀ rowval' nzval', c.Reorders rowval' nzval' →
      Payload.toMat name (.csc rows cols colptr rowval' nzval') = read := by
  intro c read
  have hcases := csc_cases rows cols colptr rowval nzval name
  obtain ⟨haccepted, hdimensions, hmalformed, hundefined⟩ := outcome_iff rfl hcases
  refine ⟨?_, hdimensions, hmalformed, ?_, fun M hM => ?_, fun rowval' nzval' hr => ?_⟩
  · simpa [fits] using haccepted
  · simpa [fits] using hundefined
  · have hformed : c.Formed := (haccepted.mp ⟨M, hM⟩).1
    obtain ⟨-, -, hread⟩ | ⟨hnot, -⟩ | ⟨-, -, hread⟩ := hcases
    · cases hread.symm.trans hM
      refine ⟨c.toMat, rfl, scatter_eq hformed, fun i j => ?_, existsUnique_stores hformed⟩
      rw [Columns.toMat, Mat.get_ofFn]
      exact entry_column hformed i j.isLt
    · exact absurd hformed hnot
    · cases hread.symm.trans hM
  · have hsame : wellFormed { c with rowval := rowval', nzval := nzval' } = c.wellFormed :=
      Bool.eq_iff_iff.mpr
        (wellFormed_iff.trans ((formed_reorders_iff hr).trans wellFormed_iff.symm))
    simp only [read, toMat]
    rw [← toMat_reorders hr, ← hsame]

end Read

/-- A column with two values for one row, and a column without values. -/
theorem csc_accepted_iff_formed_repeated :
    let c : Columns ℚ := ⟨2, 3, [0, 3, 3, 4], [1, 0, 1, 0], [1, 2, 5, 7]⟩
    c.Formed ∧ c.Reorders [0, 1, 1, 0] [2, 5, 1, 7] ∧ ¬Formed { c with colptr := [0, 3, 2, 4] } ∧
    ∃ A : Mat ℚ 2 3, Payload.toMat "A" (.csc 2 3 [0, 3, 3, 4] [1, 0, 1, 0] [1, 2, 5, 7]) =
    .ok ⟨2, 3, A⟩ ∧
      Payload.toMat "A" (.csc 2 3 [0, 3, 3, 4] [0, 1, 1, 0] [2, 5, 1, 7]) = .ok ⟨2, 3, A⟩ ∧
      A 0 0 = 2 ∧ A 1 0 = 6 ∧ A 0 1 = 0 ∧ A 0 2 = 7 := by
  intro c
  have hformed : c.Formed := wellFormed_iff.mp (by decide +kernel)
  have hfalls : ¬Formed { c with colptr := [0, 3, 2, 4] } :=
    fun h => absurd (wellFormed_iff.mpr h) (by decide +kernel)
  have hreorders : c.Reorders [0, 1, 1, 0] [2, 5, 1, 7] := by
    refine ⟨rfl, rfl, ?_⟩
    decide +kernel
  obtain ⟨haccepted, -, -, -, hread, hsame⟩ :=
    csc_accepted_iff_formed 2 3 [0, 3, 3, 4] [1, 0, 1, 0] [1, 2, 5, (7 : ℚ)] "A"
  obtain ⟨M, hM⟩ := haccepted.mpr ⟨hformed, by decide⟩
  obtain ⟨A, rfl, -, hentries, -⟩ := hread M hM
  refine ⟨hformed, hreorders, hfalls, A, hM, (hsame _ _ hreorders).trans hM, ?_⟩
  simp only [hentries]
  decide +kernel

/-- Lists without values pass all tests, and the sizes are those of no matrix: `2⁶²` values do not
fit, and `2⁶⁴` even are none as a word, so that the one stored value has no place. Neither is a
fault of dimensions. -/
theorem csc_oversize_passes_tests :
    Columns.Formed (⟨2 ^ 62, 1, [0, 0], [], []⟩ : Columns Float) ∧
    toMat "Q" (.csc (2 ^ 62) 1 [0, 0] [] ([] : List Float)) = .error .undefinedShape ∧
    Columns.Formed (⟨2 ^ 63, 2, [0, 1, 1], [0], [1]⟩ : Columns Float) ∧
    toMat "Q" (.csc (2 ^ 63) 2 [0, 1, 1] [0] [(1 : Float)]) = .error .undefinedShape ∧
    (Fault.undefinedShape : Fault Float).kind ≠ .dimensions ∧
    Problem.ofText "\x7b\"Q\": [\"csc\", 4611686018427387904, 1, [0, 0], [], []], \"g\": [0]\x7d" =
      .error .undefinedShape := by
  refine ⟨wellFormed_iff.mp (by decide +kernel), ?_, wellFormed_iff.mp (by decide +kernel), ?_,
    nofun, rfl⟩
  · exact (csc_undefined_iff (2 ^ 62) 1 _ _ _ "Q").mpr
      ⟨wellFormed_iff.mp (by decide +kernel), by decide +kernel⟩
  · exact (csc_undefined_iff (2 ^ 63) 2 _ _ _ "Q").mpr
      ⟨wellFormed_iff.mp (by decide +kernel), by decide +kernel⟩

end Payload

end ComplementarityQP
