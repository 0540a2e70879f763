import ComplementarityQP.Json.Value

/-! Reading typed data out of JSON values. A record is an object, or an array of its fields in
order. -/
namespace ComplementarityQP.Json

variable {α : Type}

def asBool : Json → Option Bool
  | .bool b => some b
  | _ => none

def asFloat : Json → Option Float
  | .num l => l.toFloat?
  | _ => none

def asNat (bound : Nat) : Json → Option Nat
  | .num l => do
    let n ← l.toNat?
    if n < bound then some n else none
  | _ => none

def asSize : Json → Option Nat := asNat UInt64.size

def asList (f : Json → Option α) : Json → Option (List α)
  | .arr items => items.mapM f
  | _ => none

def asArray (f : Json → Option α) (v : Json) : Option (Array α) := (asList f v).map List.toArray

def asOption (f : Json → Option α) : Json → Option (Option α)
  | .null => some none
  | v => (f v).map some

/-- One of a list of named values, written as its name or as an object with that one key. -/
def asEnum (names : List (String × α)) : Json → Option α
  | .str (some s) => names.lookup s
  | .obj [(some s, .null)] => names.lookup s
  | _ => none

inductive Slot where
  | given (v : Json)
  /-- An object without the key. -/
  | absent
  /-- An array that ends before the field. -/
  | cut

/-- The value under one of `keys`; fails if there are two. -/
def findField (fields : List (Text × Json)) (keys : List String) : Option Slot :=
  match fields.filter fun f => f.1.any keys.contains with
  | [] => some .absent
  | [(_, v)] => some (.given v)
  | _ => none

/-- The fields of a record. Each has one or more keys, unknown keys are skipped, and all keys must
be readable. An array may be too short, but not too long. -/
def slots (names : List (List String)) : Json → Option (List Slot)
  | .obj fields =>
    if fields.all fun f => f.1.isSome then names.mapM (findField fields) else none
  | .arr items =>
    if names.length < items.length then none
    else some (items.map .given ++ List.replicate (names.length - items.length) .cut)
  | _ => none

namespace Slot

def required (f : Json → Option α) : Slot → Option α
  | .given v => f v
  | _ => none

/-- A field that an object may lack, and an array may not. -/
def optional (f : Json → Option α) : Slot → Option (Option α)
  | .given v => asOption f v
  | .absent => some none
  | .cut => none

def orElse (dflt : α) (f : Json → Option α) : Slot → Option α
  | .given v => f v
  | _ => some dflt

end Slot

def keys (names : List String) : List (List String) := names.map fun s => [s]

end ComplementarityQP.Json
