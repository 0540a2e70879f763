import ComplementarityQP.Fault
import ComplementarityQP.Json.Decode

/-! Matrices in compressed column form, and the matrices of a problem document. -/
namespace ComplementarityQP

variable {K : Type} {m n : Nat}

/-- Column `j` holds the values at `colptr[j], …, colptr[j + 1] - 1`, each in the row that `rowval`
has at the same place. -/
structure Columns (K : Type) where
  rows : Nat
  cols : Nat
  colptr : List Nat
  rowval : List Nat
  nzval : List K

/-- Entries up to this magnitude are not stored. -/
def sparsityTol [OfScientific K] : K := 1e-14

namespace Columns

def totals (start : Nat) : List Nat → List Nat
  | [] => [start]
  | n :: ns => start :: totals (start + n) ns

def ofLists (rows : Nat) (cols : List (List (Nat × K))) : Columns K where
  rows := rows
  cols := cols.length
  colptr := totals 0 (cols.map List.length)
  rowval := cols.flatten.map Prod.fst
  nzval := cols.flatten.map Prod.snd

section OfMat

variable [Zero K] [Neg K] [LT K] [DecidableLT K] [OfScientific K]

def storedColumn (A : Mat K m n) (keep : Fin m → Fin n → Bool) (j : Fin n) : List (Nat × K) :=
  let stored :=
    (List.finRange m).filter fun i => keep i j && decide (sparsityTol < magnitude (A i j))
  stored.map fun i => (i.val, A i j)

def ofMat (A : Mat K m n) : Columns K :=
  ofLists m ((List.finRange n).map (storedColumn A fun _ _ => true))

/-- The upper triangle. A matrix without rows but with columns has no first row to look at. -/
def ofUpper (A : Mat K m n) : Except (Fault K) (Columns K) :=
  if m = 0 && n ≠ 0 then .error .undefinedShape
  else .ok (ofLists m ((List.finRange n).map (storedColumn A fun i j => i.val ≤ j.val)))

end OfMat

def wellFormed (c : Columns K) : Bool :=
  c.colptr.length = c.cols + 1
    && c.rowval.length = c.nzval.length
    && c.colptr.head? = some 0
    && c.colptr.getLast? = some c.nzval.length
    && (c.colptr.zip c.colptr.tail).all (fun (a, b) => a ≤ b)
    && c.rowval.all (· < c.rows)

def column (c : Columns K) (j : Nat) : List (Nat × K) :=
  match c.colptr[j]?, c.colptr[j + 1]? with
  | some a, some b => ((c.rowval.zip c.nzval).drop a).take (b - a)
  | _, _ => []

def entry [Zero K] [Add K] (i : Nat) (col : List (Nat × K)) : K :=
  col.foldl (fun s e => if e.1 = i then s + e.2 else s) 0

def toMat [Zero K] [Add K] (c : Columns K) : Mat K c.rows c.cols :=
  Mat.ofFn fun i j => entry i (c.column j)

end Columns

inductive Payload (K : Type) where
  /-- Values row by row. -/
  | dense (rows cols : UInt64) (values : Array K)
  /-- Compressed columns. -/
  | csc (rows cols : UInt64) (colptr rowval : List Nat) (nzval : List K)

namespace Payload

/-- Can a vector hold the entries? They take eight bytes each, and it has at most `2⁶³ - 1`. -/
def fits (rows cols : UInt64) : Bool := rows.toNat * cols.toNat < Nat.pow 2 60

/-- The matrix that a payload stands for. The number of dense values is compared with the product of
the sizes as a word, and nothing is compared with the product of those of columns, so large sizes
can pass the tests and still have no matrix. -/
def toMat [Zero K] [Add K] (name : String) : Payload K → Except (Fault K) (AnyMat K)
  | .dense rows cols values =>
    if values.size ≠ (rows * cols).toNat then
      .error (.valueCount name values.size rows.toNat cols.toNat)
    else if h : values.size = rows.toNat * cols.toNat then .ok ⟨_, _, ⟨⟨values, h⟩⟩⟩
    else .error .undefinedShape
  | .csc rows cols colptr rowval nzval =>
    let c : Columns K := ⟨rows.toNat, cols.toNat, colptr, rowval, nzval⟩
    if !c.wellFormed then .error (.malformedColumns name rows.toNat cols.toNat)
    else if fits rows cols then .ok ⟨_, _, c.toMat⟩
    else .error .undefinedShape

def encode (num : K → Json) : Payload K → Json
  | .dense rows cols values =>
    .record [("format", .text "dense"), ("rows", .nat rows.toNat), ("cols", .nat cols.toNat),
      ("values", Json.array num values)]
  | .csc rows cols colptr rowval nzval =>
    .record [("format", .text "csc"), ("rows", .nat rows.toNat), ("cols", .nat cols.toNat),
      ("colptr", Json.list Json.nat colptr), ("rowval", Json.list Json.nat rowval),
        ("nzval", Json.list num nzval)]

def asWord (v : Json) : Option UInt64 := (Json.asSize v).map UInt64.ofNat

/-- The format and the other fields. The format may stand anywhere in an object, and first in an
array. -/
def tagged : Json → Option (String × Json)
  | .obj fields =>
    match fields.partition fun f => f.1 = some "format" with
    | ([(_, .str (some t))], rest) => some (t, .obj rest)
    | _ => none
  | .arr (.str (some t) :: rest) => some (t, .arr rest)
  | _ => none

/-- Reads a matrix that stands inside of `level` records. All of it is stored before the format is
known, so even fields that do not matter must be storable. -/
def decode (level : Nat) (v : Json) : Option (Payload Float) := do
  guard (v.storable (127 - level))
  let (tag, body) ← tagged v
  match tag with
  | "dense" =>
    let [r, c, x] ← Json.slots (Json.keys ["rows", "cols", "values"]) body | none
    pure (.dense (← r.required asWord) (← c.required asWord)
      (← x.required (Json.asArray Json.asFloat)))
  | "csc" =>
    let [r, c, p, i, x] ← Json.slots (Json.keys ["rows", "cols", "colptr", "rowval", "nzval"])
      body | none
    pure (.csc (← r.required asWord) (← c.required asWord) (← p.required (Json.asList Json.asSize))
      (← i.required (Json.asList Json.asSize)) (← x.required (Json.asList Json.asFloat)))
  | _ => none

end Payload

end ComplementarityQP
