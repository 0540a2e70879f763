import ComplementarityQP.Json.Decode
import ComplementarityQP.Proofs.Numerals
import ComplementarityQP.Proofs.Scanner

/-! Typed data in JSON: what is read is written so that it reads back. -/
namespace ComplementarityQP.Json

/-- How the values of a type are read and written, and the floats that they hold. -/
structure Codec (α : Type) where
  decode : Json → Option α
  encode : α → Json
  floats : α → List Float

namespace Codec
variable {α : Type} {c : Codec α} {v : Json} {a : α}

/-- `a` reads back from what is written for it, and all its floats are finite. -/
structure Keeps (c : Codec α) (a : α) : Prop where
  reads : c.decode (c.encode a) = some a
  proper : (c.encode a).Proper
  finite : ∀ x ∈ c.floats a, x.isFinite = true

def Stable (c : Codec α) : Prop := ∀ v a, v.Proper → c.decode v = some a → c.Keeps a

def float : Codec Float := ⟨asFloat, Json.float, fun x => [x]⟩

theorem keeps_float {x : Float} (hx : x.isFinite = true) : float.Keeps x where
  reads := by
    simp only [float, Json.float, hx, if_true, asFloat]
    exact Numeral.toFloat?_ofFloat hx
  proper := by
    simp only [float, Json.float, hx, if_true]
    exact .num (by simp [Numeral.Proper, Numeral.ofFloat])
  finite := by simpa [float] using hx

theorem stable_float : float.Stable := by
  intro v x _ h
  cases v with
  | num l => exact keeps_float (Numeral.isFinite_of_toFloat? h)
  | _ => cases h

def bool : Codec Bool := ⟨asBool, .bool, fun _ => []⟩

theorem keeps_bool (b : Bool) : bool.Keeps b := ⟨rfl, .bool b, by simp [bool]⟩

def nat (bound : Nat) : Codec Nat := ⟨asNat bound, .nat, fun _ => []⟩

theorem keeps_nat {bound n : Nat} (hn : n < bound) : (nat bound).Keeps n where
  reads := by simp [nat, Json.nat, asNat, Numeral.toNat?, Numeral.ofNat, hn]
  proper := .num fun _ => rfl
  finite := by simp [nat]

theorem asNat_eq_some {bound n : Nat} (hv : v.Proper) (h : asNat bound v = some n) :
    v = .nat n ∧ n < bound := by
  cases hv with
  | @num l hl =>
    obtain ⟨negative, digits, exp, integral⟩ := l
    simp only [asNat, Numeral.toNat?, Option.bind_eq_bind, Option.bind_eq_some_iff] at h
    obtain ⟨k, hk, hbound⟩ := h
    split at hk
    case isTrue hplain =>
      simp at hplain hk
      obtain ⟨rfl, rfl⟩ := hplain
      obtain rfl : exp = 0 := hl rfl
      split at hbound
      · cases hbound
        exact ⟨by rw [hk]; rfl, ‹_›⟩
      · cases hbound
    case isFalse => cases hk
  | _ => cases h

theorem stable_nat (bound : Nat) : (nat bound).Stable :=
  fun _ _ hv h => keeps_nat (asNat_eq_some hv h).2

def size : Codec Nat := nat UInt64.size

theorem stable_size : size.Stable := stable_nat _

def option (c : Codec α) : Codec (Option α) :=
  ⟨asOption c.decode, opt c.encode, fun a => a.elim [] c.floats⟩

theorem keeps_none (c : Codec α) : c.option.Keeps none := ⟨rfl, .null, by simp [option]⟩

theorem keeps_some (hnull : c.decode .null = none) (h : c.Keeps a) : c.option.Keeps (some a) where
  reads := by
    have hreads := h.reads
    simp only [option, opt]
    generalize c.encode a = v at hreads
    cases v with
    | null => rw [hnull] at hreads; cases hreads
    | _ => simp only [asOption, hreads, Option.map_some]
  proper := h.proper
  finite := h.finite

theorem stable_option (hnull : c.decode .null = none) (hc : c.Stable) : c.option.Stable := by
  intro v a hv h
  by_cases hn : v = .null
  · subst hn
    cases h
    exact keeps_none c
  · have h' : (c.decode v).map some = some a := by
      cases v <;> first | contradiction | exact h
    obtain ⟨b, hb, rfl⟩ := Option.map_eq_some_iff.mp h'
    exact keeps_some hnull (hc v b hv hb)

end Codec

theorem mapM_eq_some_iff {α β : Type} {f : α → Option β} {xs : List α} {ys : List β} :
    xs.mapM f = some ys ↔ List.Forall₂ (fun x y => f x = some y) xs ys := by
  induction xs generalizing ys with
  | nil => simp [eq_comm]
  | cons x xs ih =>
    simp only [List.mapM_cons, Option.bind_eq_bind, Option.bind_eq_some_iff, Option.pure_def,
      Option.some.injEq, ih, List.forall₂_cons_left_iff]
    constructor
    · rintro ⟨y, hy, zs, hzs, rfl⟩
      exact ⟨y, zs, hy, hzs, rfl⟩
    · rintro ⟨y, zs, hy, hzs, rfl⟩
      exact ⟨y, hy, zs, hzs, rfl⟩

theorem exists_of_mem_right {α β : Type*} {R : α → β → Prop} {xs : List α} {ys : List β}
    (h : List.Forall₂ R xs ys) {y : β} (hy : y ∈ ys) : ∃ x ∈ xs, R x y := by
  induction h with
  | nil => cases hy
  | cons hxy _ ih =>
    obtain rfl | hy := List.mem_cons.mp hy
    · exact ⟨_, List.mem_cons_self, hxy⟩
    · obtain ⟨x, hx, hR⟩ := ih hy
      exact ⟨x, List.mem_cons_of_mem _ hx, hR⟩

namespace Codec
variable {α : Type} {c : Codec α} {v : Json} {a : α}

def list (c : Codec α) : Codec (List α) :=
  ⟨asList c.decode, Json.list c.encode, List.flatMap c.floats⟩

theorem keeps_list {xs : List α} (h : ∀ a ∈ xs, c.Keeps a) : c.list.Keeps xs where
  reads := by
    refine mapM_eq_some_iff.mpr (List.forall₂_map_left_iff.mpr ?_)
    exact List.forall₂_same.mpr fun a ha => (h a ha).reads
  proper := .arr fun v hv => by
    obtain ⟨a, ha, rfl⟩ := List.mem_map.mp hv
    exact (h a ha).proper
  finite := fun x hx => by
    obtain ⟨a, ha, hxa⟩ := List.mem_flatMap.mp hx
    exact (h a ha).finite x hxa

theorem Keeps.reads_mem {xs : List α} (h : c.list.Keeps xs) (ha : a ∈ xs) :
    c.decode (c.encode a) = some a := by
  have hall := List.forall₂_map_left_iff.mp (mapM_eq_some_iff.mp h.reads)
  exact List.forall₂_same.mp hall a ha

theorem stable_list (hc : c.Stable) : c.list.Stable := by
  intro v xs hv h
  cases hv with
  | @arr items hitems =>
    have hall := mapM_eq_some_iff.mp h
    refine keeps_list fun a ha => ?_
    obtain ⟨u, hu, hread⟩ := exists_of_mem_right hall ha
    exact hc u a (hitems u hu) hread
  | _ => cases h

def array (c : Codec α) : Codec (Array α) :=
  ⟨asArray c.decode, Json.array c.encode, fun xs => xs.toList.flatMap c.floats⟩

theorem keeps_array {xs : Array α} (h : c.list.Keeps xs.toList) : c.array.Keeps xs where
  reads := by
    have hreads := h.reads
    simp only [list, array, asArray, Json.list, Json.array] at hreads ⊢
    rw [hreads]
    simp
  proper := h.proper
  finite := h.finite

theorem Keeps.toList {xs : Array α} (h : c.array.Keeps xs) : c.list.Keeps xs.toList where
  reads := by
    obtain ⟨ys, hys, heq⟩ := Option.map_eq_some_iff.mp h.reads
    subst heq
    exact hys
  proper := h.proper
  finite := h.finite

theorem stable_array (hc : c.Stable) : c.array.Stable := by
  intro v xs hv h
  obtain ⟨ys, hys, rfl⟩ := Option.map_eq_some_iff.mp h
  exact keeps_array (by simpa using stable_list hc v ys hv hys)

theorem isFinite_of_keeps {xs : List Float} (h : float.list.Keeps xs) :
    ∀ x ∈ xs, x.isFinite = true :=
  fun x hx => h.finite x (List.mem_flatMap.mpr ⟨x, hx, List.mem_singleton_self x⟩)

def enum (names : List (String × α)) (name : α → String) : Codec α :=
  ⟨asEnum names, fun a => .text (name a), fun _ => []⟩

theorem keeps_enum {names : List (String × α)} {name : α → String}
    (h : names.lookup (name a) = some a) :
    (enum names name).Keeps a := ⟨h, .str _, by simp [enum]⟩

theorem stable_bool : bool.Stable := fun _ b _ _ => keeps_bool b

theorem stable_enum {names : List (String × α)} {name : α → String}
    (h : ∀ a, names.lookup (name a) = some a) :
    (enum names name).Stable := fun _ a _ _ => keeps_enum (h a)

end Codec

/-! The fields of a record. -/

def children : Json → List Json
  | .arr items => items
  | .obj fields => fields.map Prod.snd
  | _ => []

theorem Proper.of_children {v u : Json} (hv : v.Proper) (hu : u ∈ children v) : u.Proper := by
  cases hv with
  | arr h => exact h u hu
  | obj h =>
    obtain ⟨f, hf, rfl⟩ := List.mem_map.mp hu
    exact h f hf
  | _ => simp [children] at hu

theorem mem_children_of_findField {fields : List (Text × Json)} {keys : List String} {u : Json}
    (h : findField fields keys = some (.given u)) : u ∈ children (.obj fields) := by
  rw [findField] at h
  split at h
  case h_1 => cases h
  case h_2 k w hfilter =>
    cases h
    have hmem : (k, u) ∈ fields := List.mem_of_mem_filter (hfilter ▸ List.mem_singleton_self _)
    exact List.mem_map_of_mem hmem
  case h_3 => cases h

/-- A record's fields are taken from inside of its value. -/
theorem mem_children_of_slots {names : List (List String)} {v u : Json} {ss : List Slot}
    (h : slots names v = some ss) (hu : .given u ∈ ss) : u ∈ children v := by
  cases v with
  | obj fields =>
    rw [slots] at h
    split at h
    · obtain ⟨keys, -, hfind⟩ := exists_of_mem_right (mapM_eq_some_iff.mp h) hu
      exact mem_children_of_findField hfind
    · cases h
  | arr items =>
    rw [slots] at h
    split at h
    · cases h
    · cases h
      simpa [children] using hu
  | _ => cases h

/-- A field of a record: its key, its other keys, and how its slot is read. -/
structure Member (ρ : Type) where
  name : String
  aliases : List String
  {α : Type}
  codec : Codec α
  read : Slot → Option α
  get : ρ → α
  read_given : ∀ v, read (.given v) = codec.decode v

namespace Member
variable {ρ α : Type}

def keys (f : Member ρ) : List String := f.name :: f.aliases

def value (f : Member ρ) (r : ρ) : Json := f.codec.encode (f.get r)

def Reads (f : Member ρ) (r : ρ) (s : Slot) : Prop := f.read s = some (f.get r)

structure Stable (f : Member ρ) : Prop where
  keeps : ∀ s a, (∀ u, s = .given u → u.Proper) → f.read s = some a → f.codec.Keeps a

def required (name : String) (c : Codec α) (get : ρ → α) : Member ρ :=
  ⟨name, [], c, Slot.required c.decode, get, fun _ => rfl⟩

theorem Stable.required {name : String} {c : Codec α} {get : ρ → α} (hc : c.Stable) :
    (Member.required name c get).Stable where
  keeps := fun s a hs h => by
    cases s with
    | given v => exact hc v a (hs v rfl) h
    | _ => cases h

def optional (name : String) (c : Codec α) (get : ρ → Option α) : Member ρ :=
  ⟨name, [], c.option, Slot.optional c.decode, get, fun _ => rfl⟩

theorem Stable.optional {name : String} {c : Codec α} {get : ρ → Option α}
    (hnull : c.decode .null = none) (hc : c.Stable) : (Member.optional name c get).Stable where
  keeps := fun s a hs h => by
    cases s with
    | given v => exact Codec.stable_option hnull hc v a (hs v rfl) h
    | absent =>
      cases h
      exact Codec.keeps_none c
    | cut => cases h

def orElse (name : String) (dflt : α) (c : Codec α) (get : ρ → α) : Member ρ :=
  ⟨name, [], c, Slot.orElse dflt c.decode, get, fun _ => rfl⟩

theorem Stable.orElse {name : String} {dflt : α} {c : Codec α} {get : ρ → α} (hc : c.Stable)
    (hdflt : c.Keeps dflt) :
    (Member.orElse name dflt c get).Stable where
  keeps := fun s a hs h => by
    cases s with
    | given v => exact hc v a (hs v rfl) h
    | _ =>
      cases h
      exact hdflt

def aliased (aliases : List String) (f : Member ρ) : Member ρ := { f with aliases }

theorem Stable.aliased {aliases : List String} {f : Member ρ} (h : f.Stable) :
    (f.aliased aliases).Stable :=
  ⟨h.keeps⟩

end Member

/-! Records. -/

section Record
variable {ρ : Type} {fs : List (Member ρ)}

def entries (fs : List (Member ρ)) (r : ρ) : List (String × Json) :=
  fs.map fun f => (f.name, f.value r)

/-- Only one of the written entries has a key of the field `f`: its own. -/
theorem filter_entries (hkeys : (fs.flatMap Member.keys).Nodup) {f : Member ρ} (hf : f ∈ fs)
    (r : ρ) :
    (entries fs r).filter (fun e => f.keys.contains e.1) = [(f.name, f.value r)] := by
  induction fs with
  | nil => cases hf
  | cons g gs ih =>
    rw [List.flatMap_cons, List.nodup_append] at hkeys
    obtain ⟨-, htail, hdisjoint⟩ := hkeys
    have hname (h : Member ρ) : h.name ∈ h.keys := List.mem_cons_self
    have htails {h : Member ρ} (hh : h ∈ gs) {k : String} (hk : k ∈ h.keys) :
        k ∈ gs.flatMap Member.keys :=
      List.mem_flatMap.mpr ⟨h, hh, hk⟩
    rw [entries, List.map_cons, List.filter_cons]
    obtain rfl | hf := List.mem_cons.mp hf
    · have hrest : (entries gs r).filter (fun e => f.keys.contains e.1) = [] := by
        refine List.filter_eq_nil_iff.mpr fun e he hcontains => ?_
        obtain ⟨h, hh, rfl⟩ := List.mem_map.mp he
        exact hdisjoint _ (List.contains_iff_mem.mp hcontains) _ (htails hh (hname h)) rfl
      rw [if_pos (List.contains_iff_mem.mpr (hname f))]
      exact congrArg _ hrest
    · have hother : ¬ f.keys.contains g.name = true := fun hcontains =>
        hdisjoint _ (hname g) _ (htails hf (List.contains_iff_mem.mp hcontains)) rfl
      rw [if_neg hother]
      exact ih htail hf

theorem record_eq (fields : List (String × Json)) :
    Json.record fields = .obj (fields.map fun e => (some e.1, e.2)) :=
  rfl

theorem slots_entries (hkeys : (fs.flatMap Member.keys).Nodup) (r : ρ) :
    slots (fs.map Member.keys) (.record (entries fs r)) =
      some (fs.map fun f => .given (f.value r)) := by
  have hreadable : ((entries fs r).map fun e => (some e.1, e.2)).all (fun f => f.1.isSome) =
      true := by simp
  rw [record_eq, slots, if_pos hreadable, mapM_eq_some_iff, List.forall₂_map_left_iff,
    List.forall₂_map_right_iff]
  refine List.forall₂_same.mpr fun f hf => ?_
  have hfilter : ((entries fs r).map fun e => (some e.1, e.2)).filter
    (fun e => e.1.any f.keys.contains) =
      [(some f.name, f.value r)] := by
    rw [List.filter_map]
    have hentries := filter_entries hkeys hf r
    exact congrArg (List.map fun e : String × Json => (some e.1, e.2)) hentries
  rw [findField, hfilter]

/-- A constructor of records: it takes the fields in order. -/
def Build (ρ : Type) : List (Member ρ) → Type
  | [] => ρ
  | f :: fs => f.α → Build ρ fs

def collect : (fs : List (Member ρ)) → Build ρ fs → List Slot → Option ρ
  | [], r, [] => some r
  | f :: fs, build, s :: ss => do collect fs (build (← f.read s)) ss
  | _, _, _ => none

def rebuild (r : ρ) : (fs : List (Member ρ)) → Build ρ fs → ρ
  | [], r' => r'
  | f :: fs, build => rebuild r fs (build (f.get r))

/-- The records that are built have `P`, and as their fields what they were built from. -/
def Faithful : (fs : List (Member ρ)) → Build ρ fs → (ρ → Prop) → Prop
  | [], r, P => P r
  | f :: fs, build, P => ∀ a, Faithful fs (build a) fun r => f.get r = a ∧ P r

theorem reads_of_collect {build : Build ρ fs} {ss : List Slot} {r : ρ}
    (h : collect fs build ss = some r) {P : ρ → Prop} (hbuild : Faithful fs build P) :
    List.Forall₂ (fun f s => f.Reads r s) fs ss ∧ P r := by
  induction fs generalizing ss P with
  | nil =>
    cases ss with
    | nil =>
      cases h
      exact ⟨.nil, hbuild⟩
    | cons s ss => cases h
  | cons f fs ih =>
    cases ss with
    | nil => cases h
    | cons s ss =>
      obtain ⟨a, hread, hrest⟩ := Option.bind_eq_some_iff.mp h
      obtain ⟨hreads, hget, hP⟩ := ih hrest (hbuild a)
      exact ⟨.cons (hread.trans (congrArg some hget.symm)) hreads, hP⟩

theorem collect_of_reads {build : Build ρ fs} {ss : List Slot} {r : ρ}
    (h : List.Forall₂ (fun f s => f.Reads r s) fs ss) :
    collect fs build ss = some (rebuild r fs build) := by
  induction h with
  | nil => rfl
  | cons hread _ ih => exact Option.bind_eq_some_iff.mpr ⟨_, hread, ih⟩

theorem length_of_slots {names : List (List String)} {v : Json} {ss : List Slot}
    (h : slots names v = some ss) :
    ss.length = names.length := by
  cases v with
  | obj fields =>
    rw [slots] at h
    split at h
    · exact (mapM_eq_some_iff.mp h).length_eq.symm
    · cases h
  | arr items =>
    rw [slots] at h
    split at h
    · cases h
    · cases h
      simp
      omega
  | _ => cases h

def Codec.record (decode : Json → Option ρ) (encode : ρ → Json) (fs : List (Member ρ)) : Codec ρ :=
  ⟨decode, encode, fun r => fs.flatMap fun f => f.codec.floats (f.get r)⟩

/-- The records of `c` have the fields `fs`: these are read, written and searched for floats. -/
structure Codec.HasMembers (c : Codec ρ) (fs : List (Member ρ)) (build : Build ρ fs) : Prop where
  keys : (fs.flatMap Member.keys).Nodup
  decode : ∀ v, c.decode v = slots (fs.map Member.keys) v >>= collect fs build
  encode : ∀ r, c.encode r = .record (entries fs r)
  floats : ∀ r, c.floats r = fs.flatMap fun f => f.codec.floats (f.get r)
  faithful : Faithful fs build fun r => rebuild r fs build = r

namespace Codec.HasMembers
variable {c : Codec ρ} {build : Build ρ fs}

theorem keeps (h : c.HasMembers fs build) {r : ρ} (hbuilt : rebuild r fs build = r)
    (hr : ∀ f ∈ fs, f.codec.Keeps (f.get r)) : c.Keeps r where
  reads := by
    have hreads : List.Forall₂ (fun f s => f.Reads r s) fs (fs.map fun f => .given (f.value r)) :=
      List.forall₂_map_right_iff.mpr
        (List.forall₂_same.mpr fun f hf => (f.read_given _).trans (hr f hf).reads)
    have hcollect : collect fs build (fs.map fun f => .given (f.value r)) =
        some (Json.rebuild r fs build) :=
      collect_of_reads hreads
    rw [hbuilt] at hcollect
    rw [h.encode, h.decode, slots_entries h.keys]
    exact hcollect
  proper := by
    rw [h.encode]
    refine .obj fun e he => ?_
    obtain ⟨e', he', rfl⟩ := List.mem_map.mp he
    obtain ⟨f, hf, rfl⟩ := List.mem_map.mp he'
    exact (hr f hf).proper
  finite := by
    rw [h.floats]
    intro x hx
    obtain ⟨f, hf, hxf⟩ := List.mem_flatMap.mp hx
    exact (hr f hf).finite x hxf

theorem of_read (h : c.HasMembers fs build) (hmembers : ∀ f ∈ fs, f.Stable) {v : Json} {r : ρ}
    (hv : v.Proper) (hread : c.decode v = some r) :
    rebuild r fs build = r ∧ ∀ f ∈ fs, f.codec.Keeps (f.get r) := by
  rw [h.decode] at hread
  obtain ⟨ss, hslots, hcollect⟩ := Option.bind_eq_some_iff.mp hread
  obtain ⟨hreads, hbuilt⟩ := reads_of_collect hcollect h.faithful
  refine ⟨hbuilt, fun f hf => ?_⟩
  obtain ⟨s, hs, hslot⟩ := exists_of_mem_right hreads.flip hf
  refine (hmembers f hf).keeps s _ (fun u hu => ?_) hslot
  subst hu
  exact hv.of_children (mem_children_of_slots hslots hs)

theorem stable (h : c.HasMembers fs build) (hmembers : ∀ f ∈ fs, f.Stable) : c.Stable := by
  intro v r hv hread
  obtain ⟨hbuilt, hr⟩ := h.of_read hmembers hv hread
  exact h.keeps hbuilt hr

end Codec.HasMembers

end Record

end ComplementarityQP.Json
