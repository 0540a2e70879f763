import ComplementarityQP.Scalar

/-! Vectors of a fixed length. Sums run from the left. -/
namespace ComplementarityQP

abbrev Vec (K : Type) (n : Nat) := Vector K n

variable {K : Type} {n : Nat}

def sum [Zero K] [Add K] (n : Nat) (f : Fin n → K) : K :=
  Fin.foldl n (fun s i => s + f i) 0

namespace Vec

def zero [Zero K] (n : Nat) : Vec K n := Vector.replicate n 0

def dot [Zero K] [Add K] [Mul K] (x y : Vec K n) : K := sum n fun i => x.get i * y.get i

def scale [Mul K] (c : K) (x : Vec K n) : Vec K n := x.map (c * ·)

/-- `x + c y`. -/
def shift [Add K] [Mul K] (x : Vec K n) (c : K) (y : Vec K n) : Vec K n :=
  Vector.ofFn fun i => x.get i + c * y.get i

/-- The largest magnitude of an entry, 0 for the empty vector. -/
def norm [Zero K] [Neg K] [LT K] [LE K] [DecidableLT K] [DecidableLE K] (x : Vec K n) : K :=
  Fin.foldl n (fun w i => if magnitude (x.get i) ≤ w then w else magnitude (x.get i)) 0

def allFinite [Special K] (x : Vec K n) : Bool := x.all isFinite

def join {m : Nat} (x : Vec K m) (y : Vec K n) : Vec K (m + n) :=
  Vector.ofFn (Fin.addCases (fun i => x.get i) fun i => y.get i)

def put (x : Vec K n) (i : Fin n) (v : K) : Vec K n :=
  Vector.ofFn fun j => if j = i then v else x.get j

def ofArray? (n : Nat) (xs : Array K) : Option (Vec K n) :=
  if h : xs.size = n then some ⟨xs, h⟩ else none

end Vec

end ComplementarityQP
