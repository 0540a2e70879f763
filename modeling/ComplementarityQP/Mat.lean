import ComplementarityQP.Vec

/-! Dense matrices of a fixed shape, stored row by row. -/
namespace ComplementarityQP

structure Mat (K : Type) (m n : Nat) where
  entries : Vector K (m * n)

variable {K : Type} {m n p : Nat}

theorem flat_lt {i j : Nat} (hi : i < m) (hj : j < n) : i * n + j < m * n := by
  have : (i + 1) * n ≤ m * n := Nat.mul_le_mul_right n hi
  rw [Nat.add_mul, Nat.one_mul] at this
  omega

namespace Mat

def get (A : Mat K m n) (i : Fin m) (j : Fin n) : K :=
  have := flat_lt i.isLt j.isLt
  A.entries[i.val * n + j.val]

instance : CoeFun (Mat K m n) (fun _ => Fin m → Fin n → K) := ⟨get⟩

def ofFn (f : Fin m → Fin n → K) : Mat K m n :=
  ⟨Vector.ofFn fun k =>
    have hn : 0 < n := Nat.pos_of_lt_mul_left k.isLt
    f ⟨k / n, Nat.div_lt_of_lt_mul (Nat.mul_comm m n ▸ k.isLt)⟩ ⟨k % n, Nat.mod_lt _ hn⟩⟩

@[simp] theorem get_ofFn (f : Fin m → Fin n → K) (i : Fin m) (j : Fin n) :
    (ofFn f).get i j = f i j := by
  have hn : 0 < n := Nat.lt_of_le_of_lt (Nat.zero_le _) j.isLt
  have hd : (i.val * n + j.val) / n = i.val := by
    rw [Nat.mul_comm, Nat.mul_add_div hn, Nat.div_eq_of_lt j.isLt, Nat.add_zero]
  have hm : (i.val * n + j.val) % n = j.val := by
    rw [Nat.mul_comm, Nat.mul_add_mod, Nat.mod_eq_of_lt j.isLt]
  simp [get, ofFn, hd, hm]

@[ext] theorem ext {A B : Mat K m n} (h : ∀ i j, A i j = B i j) : A = B := by
  cases A with | mk a =>
  cases B with | mk b =>
  congr 1
  apply Vector.ext
  intro k hk
  have hn : 0 < n := Nat.pos_of_lt_mul_left hk
  have he : k / n * n + k % n = k := by rw [Nat.mul_comm]; exact Nat.div_add_mod k n
  have := h ⟨k / n, Nat.div_lt_of_lt_mul (Nat.mul_comm m n ▸ hk)⟩ ⟨k % n, Nat.mod_lt _ hn⟩
  simpa [get, he] using this

def zero [Zero K] (m n : Nat) : Mat K m n := ⟨Vector.replicate (m * n) 0⟩

def transpose (A : Mat K m n) : Mat K n m := ofFn fun i j => A j i

def row (A : Mat K m n) (i : Fin m) : Vec K n := Vector.ofFn (A i)

def diagonal (A : Mat K n n) : Vec K n := Vector.ofFn fun i => A i i

def mulVec [Zero K] [Add K] [Mul K] (A : Mat K m n) (x : Vec K n) : Vec K m :=
  Vector.ofFn fun i => sum n fun j => A i j * x.get j

def transposeMulVec [Zero K] [Add K] [Mul K] (A : Mat K m n) (y : Vec K m) : Vec K n :=
  Vector.ofFn fun j => sum m fun i => A i j * y.get i

def mul [Zero K] [Add K] [Mul K] (A : Mat K m n) (B : Mat K n p) : Mat K m p :=
  ofFn fun i k => sum n fun j => A i j * B j k

def add [Add K] (A B : Mat K m n) : Mat K m n := ofFn fun i j => A i j + B i j

def addDiagonal [Zero K] [One K] [Add K] [Mul K] (A : Mat K n n) (c : K) : Mat K n n :=
  ofFn fun i j => A i j + (if i = j then 1 else 0) * c

/-- The symmetric part `(A + Aᵀ) / 2`. -/
def symmetrize [Add K] [Mul K] [OfScientific K] (A : Mat K n n) : Mat K n n :=
  ofFn fun i j => (A i j + A j i) * 0.5

def stack (A : Mat K m n) (B : Mat K p n) : Mat K (m + p) n :=
  ofFn (Fin.addCases (fun i => A i) fun i => B i)

/-- The largest magnitude of an entry, 0 for an empty matrix. -/
def norm [Zero K] [Neg K] [LT K] [LE K] [DecidableLT K] [DecidableLE K] (A : Mat K m n) : K :=
  Vec.norm A.entries

/-- The largest difference between mirrored entries of the leading square. -/
def asymmetry [Zero K] [Neg K] [Sub K] [LT K] [DecidableLT K] (A : Mat K m n) : K :=
  Fin.foldl (min m n) (fun w j =>
    Fin.foldl j (fun w i =>
      atLeast w (magnitude (A ⟨i, by omega⟩ ⟨j, by omega⟩ - A ⟨j, by omega⟩ ⟨i, by omega⟩))) w) 0

def diagonalNorm [Zero K] [Neg K] [LT K] [DecidableLT K] (A : Mat K n n) : K :=
  Fin.foldl n (fun w i => atLeast w (magnitude (A i i))) 0

def allFinite [Special K] (A : Mat K m n) : Bool := A.entries.all isFinite

end Mat

/-- A matrix whose shape is known only when the program runs. -/
structure AnyMat (K : Type) where
  rows : Nat
  cols : Nat
  mat : Mat K rows cols

namespace AnyMat

def ofShape? (A : AnyMat K) (m n : Nat) : Option (Mat K m n) :=
  if h : A.rows = m ∧ A.cols = n then some (h.1 ▸ h.2 ▸ A.mat) else none

def empty [Zero K] (n : Nat) : AnyMat K := ⟨0, n, Mat.zero 0 n⟩

end AnyMat

end ComplementarityQP
