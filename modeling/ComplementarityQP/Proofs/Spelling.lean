import ComplementarityQP.Proofs.Codecs

/-! Records that are spelled in other ways. Main statements: what is read is the same for the
entries in another order, with other keys of the same fields, with values that are read alike,
without a field that has its default, and for an array of the values in order. -/
namespace ComplementarityQP.Json

section Fields
variable {keys : List String} {key : String} {fields fields' : List (Text × Json)} {v : Json}

def valuesAt (fields : List (Text × Json)) (keys : List String) : List Json :=
  (fields.filter fun f => f.1.any keys.contains).map Prod.snd

def Slot.ofValues : List Json → Option Slot
  | [] => some .absent
  | [v] => some (.given v)
  | _ => none

theorem findField_eq (fields : List (Text × Json)) (keys : List String) :
    findField fields keys = Slot.ofValues (valuesAt fields keys) := by
  unfold findField valuesAt
  generalize fields.filter (fun f => f.1.any keys.contains) = found
  rcases found with _ | ⟨_, _ | _⟩ <;> rfl

theorem valuesAt_cons_of_mem (h : key ∈ keys) :
    valuesAt ((some key, v) :: fields) keys = v :: valuesAt fields keys := by
  simp [valuesAt, h]

theorem valuesAt_cons_of_not_mem (h : key ∉ keys) :
    valuesAt ((some key, v) :: fields) keys = valuesAt fields keys := by
  simp [valuesAt, h]

theorem valuesAt_eq_nil (h : ∀ e ∈ fields, ∀ key ∈ e.1, key ∉ keys) :
    valuesAt fields keys = [] := by
  refine List.map_eq_nil_iff.mpr (List.filter_eq_nil_iff.mpr fun e he hany => ?_)
  obtain ⟨key, hkey, hcontains⟩ := (Option.any_eq_true ..).mp hany
  exact h e he key hkey (List.contains_iff_mem.mp hcontains)

theorem valuesAt_map {rename : String → String} (h : ∀ key, rename key ∈ keys ↔ key ∈ keys) :
    valuesAt (fields.map fun e => (e.1.map rename, e.2)) keys = valuesAt fields keys := by
  have hcontains (key : String) : keys.contains (rename key) = keys.contains key := by
    rw [Bool.eq_iff_iff, List.contains_iff_mem, List.contains_iff_mem, h]
  simp only [valuesAt, List.filter_map, List.map_map]
  refine congrArg _ (List.filter_congr fun e _ => ?_)
  obtain ⟨_ | key, v⟩ := e
  · rfl
  · exact hcontains key

theorem valuesAt_perm (h : fields.Perm fields') (keys : List String) :
    (valuesAt fields keys).Perm (valuesAt fields' keys) :=
  (h.filter _).map _

/-- Where the order of the values matters, they are too many. -/
theorem ofValues_perm {vs vs' : List Json} (h : vs.Perm vs') :
    Slot.ofValues vs = Slot.ofValues vs' := by
  match vs, vs', h with
  | [], [], _ => rfl
  | [v], vs', h =>
    obtain rfl := List.perm_singleton.mp h.symm
    rfl
  | _ :: _ :: _, _ :: _ :: _, _ => rfl
  | [], _ :: _, h | _ :: _ :: _, [], h | _ :: _ :: _, [_], h => simp at h

end Fields

section Record
variable {ρ : Type} {fs : List (Member ρ)}

/-- The record that is built from its fields, found one by one. -/
def gather : (fs : List (Member ρ)) → Build ρ fs → ((f : Member ρ) → Option f.α) → Option ρ
  | [], r, _ => some r
  | f :: fs, build, find => do gather fs (build (← find f)) find

theorem gather_congr {build : Build ρ fs} {find find' : (f : Member ρ) → Option f.α}
    (h : ∀ f ∈ fs, find f = find' f) :
    gather fs build find = gather fs build find' := by
  induction fs with
  | nil => rfl
  | cons f fs ih =>
    rw [List.forall_mem_cons] at h
    simp only [gather, h.1]
    exact Option.bind_congr fun a _ => ih h.2

/-- Looking for all fields before reading the first makes no difference. -/
theorem mapM_bind_collect (find : List String → Option Slot) (build : Build ρ fs) :
    (fs.map Member.keys).mapM find >>= collect fs build =
      gather fs build fun f => find f.keys >>= f.read := by
  induction fs with
  | nil => rfl
  | cons f fs ih =>
    simp only [List.map_cons, List.mapM_cons, gather, Option.bind_eq_bind, Option.bind_assoc,
      Option.pure_def, Option.bind_some, collect]
    refine Option.bind_congr fun s _ => ?_
    rw [Option.bind_comm]
    exact Option.bind_congr fun a _ => ih _

/-- A key belongs to one field. -/
theorem mem_keys_iff (hkeys : (fs.flatMap Member.keys).Nodup) {f g : Member ρ} (hf : f ∈ fs)
    (hg : g ∈ fs) {key : String} (hkey : key ∈ f.keys) : key ∈ g.keys ↔ g = f := by
  refine ⟨fun hmem => ?_, fun h => h ▸ hkey⟩
  by_contra hne
  have : Std.Symm (Function.onFun List.Disjoint (Member.keys (ρ := ρ))) := ⟨fun _ _ h => h.symm⟩
  exact (List.nodup_flatMap.mp hkeys).2.forall hf hg (Ne.symm hne) hkey hmem

/-- The values of a record in order, under the names of its fields. -/
def labelled (names : List String) (items : List Json) : List (Text × Json) :=
  (names.zip items).map fun e => (some e.1, e.2)

theorem labelled_nil (names : List String) : labelled names [] = [] := by
  simp [labelled]

/-- Values in order are read as under the names of the fields, if a field beyond the end of an array
is read as one that an object lacks. -/
theorem collect_positional (hkeys : (fs.flatMap Member.keys).Nodup) (build : Build ρ fs)
    (items : List Json) (hlength : items.length ≤ fs.length)
    (hrest : ∀ f ∈ fs.drop items.length, f.read .cut = f.read .absent) :
    collect fs build (items.map .given ++ .replicate (fs.length - items.length) .cut) =
      gather fs build fun f =>
        Slot.ofValues (valuesAt (labelled (fs.map Member.name) items) f.keys) >>= f.read := by
  induction fs generalizing items with
  | nil =>
    obtain rfl : items = [] := List.length_eq_zero_iff.mp (Nat.le_zero.mp hlength)
    rfl
  | cons f fs ih =>
    rw [List.flatMap_cons, List.nodup_append] at hkeys
    obtain ⟨-, htail, hdisjoint⟩ := hkeys
    have hother {g : Member ρ} (hg : g ∈ fs) {key : String} (hkey : key ∈ g.keys) : key ∉ f.keys :=
      fun hmem => hdisjoint _ hmem _ (List.mem_flatMap.mpr ⟨g, hg, hkey⟩) rfl
    cases items with
    | nil =>
      rw [List.length_nil, List.drop_zero, List.forall_mem_cons] at hrest
      have hih (a : f.α) := ih htail (build a) [] (Nat.zero_le _) hrest.2
      simp only [labelled_nil, List.map_nil, List.nil_append, List.length_nil,
        Nat.sub_zero] at hih ⊢
      rw [List.length_cons, List.replicate_succ, collect, gather, hrest.1]
      exact Option.bind_congr fun a _ => hih a
    | cons v items =>
      have hname : f.name ∈ f.keys := List.mem_cons_self
      have hentries : labelled ((f :: fs).map Member.name) (v :: items) =
          (some f.name, v) :: labelled (fs.map Member.name) items := rfl
      have hnames : ∀ e ∈ labelled (fs.map Member.name) items, ∀ key ∈ e.1, key ∉ f.keys := by
        intro e he key hkey
        obtain ⟨e', he', rfl⟩ := List.mem_map.mp he
        obtain ⟨g, hg, hname'⟩ := List.mem_map.mp (List.of_mem_zip he').1
        obtain rfl := Option.some.inj hkey
        exact hname' ▸ hother hg List.mem_cons_self
      have hread : Slot.ofValues (valuesAt (labelled ((f :: fs).map Member.name) (v :: items))
        f.keys) >>= f.read =
          f.read (.given v) := by
        rw [hentries, valuesAt_cons_of_mem hname, valuesAt_eq_nil hnames]
        rfl
      have hskip : ∀ g ∈ fs, valuesAt (labelled ((f :: fs).map Member.name) (v :: items)) g.keys =
          valuesAt (labelled (fs.map Member.name) items) g.keys := by
        intro g hg
        rw [hentries, valuesAt_cons_of_not_mem fun hmem => hother hg hmem hname]
      simp only [List.map_cons, List.cons_append, List.length_cons, Nat.add_sub_add_right,
        collect, gather]
      rw [← List.map_cons, hread]
      refine Option.bind_congr fun a _ => ?_
      rw [ih htail (build a) items (by simpa using hlength) (by simpa using hrest)]
      exact gather_congr fun g hg => by rw [hskip g hg]

namespace Codec.HasMembers
variable {c : Codec ρ} {build : Build ρ fs} (h : c.HasMembers fs build)
  {fields fields' : List (Text × Json)}
include h

/-- What an object is read as depends on what its fields are. -/
theorem decode_obj_congr
    (hreadable : (fields.all fun e => e.1.isSome) = fields'.all fun e => e.1.isSome)
    (hfind : ∀ f ∈ fs, Slot.ofValues (valuesAt fields f.keys) >>= f.read =
      Slot.ofValues (valuesAt fields' f.keys) >>= f.read) :
    c.decode (.obj fields) = c.decode (.obj fields') := by
  rw [h.decode, h.decode, slots, slots, hreadable]
  split
  · rw [mapM_bind_collect, mapM_bind_collect]
    refine gather_congr fun f hf => ?_
    rw [findField_eq, findField_eq]
    exact hfind f hf
  · rfl

theorem decode_perm (hperm : fields.Perm fields') :
    c.decode (.obj fields) = c.decode (.obj fields') :=
  h.decode_obj_congr hperm.all_eq fun f _ => by rw [ofValues_perm (valuesAt_perm hperm f.keys)]

/-- Other keys of the same fields. -/
theorem decode_renamed {rename : String → String}
    (hsame : ∀ key, ∀ f ∈ fs, rename key ∈ f.keys ↔ key ∈ f.keys) :
    c.decode (.obj fields) = c.decode (.obj (fields.map fun e => (e.1.map rename, e.2))) :=
  h.decode_obj_congr (by simp [Function.comp_def]) fun f hf => by
    rw [valuesAt_map fun key => hsame key f hf]

/-- Another value that is read as the same. -/
theorem decode_value {f : Member ρ} (hf : f ∈ fs) {v v' : Json}
    (hv : f.codec.decode v = f.codec.decode v') :
    c.decode (.obj ((some f.name, v) :: fields)) =
      c.decode (.obj ((some f.name, v') :: fields)) := by
  have hname : f.name ∈ f.keys := List.mem_cons_self
  refine h.decode_obj_congr (by simp) fun g hg => ?_
  by_cases hmem : f.name ∈ g.keys
  · obtain rfl := (mem_keys_iff h.keys hf hg hname).mp hmem
    rw [valuesAt_cons_of_mem hmem, valuesAt_cons_of_mem hmem]
    cases valuesAt fields g.keys with
    | nil => exact (g.read_given v).trans (hv.trans (g.read_given v').symm)
    | cons => rfl
  · rw [valuesAt_cons_of_not_mem hmem, valuesAt_cons_of_not_mem hmem]

/-- The field `f` left out, if it is read as the value `v` then. -/
theorem decode_omitted {f : Member ρ} (hf : f ∈ fs) {v : Json}
    (hv : f.read .absent = f.codec.decode v) (hothers : ∀ e ∈ fields, ∀ key ∈ e.1, key ∉ f.keys) :
    c.decode (.obj ((some f.name, v) :: fields)) = c.decode (.obj fields) := by
  have hname : f.name ∈ f.keys := List.mem_cons_self
  refine h.decode_obj_congr (by simp) fun g hg => ?_
  by_cases hmem : f.name ∈ g.keys
  · obtain rfl := (mem_keys_iff h.keys hf hg hname).mp hmem
    rw [valuesAt_cons_of_mem hmem, valuesAt_eq_nil hothers]
    exact (g.read_given v).trans hv.symm
  · rw [valuesAt_cons_of_not_mem hmem]

/-- The values in order, without keys. -/
theorem decode_positional {items : List Json} (hlength : items.length ≤ fs.length)
    (hrest : ∀ f ∈ fs.drop items.length, f.read .cut = f.read .absent) :
    c.decode (.arr items) = c.decode (.obj (labelled (fs.map Member.name) items)) := by
  have harray : slots (fs.map Member.keys) (.arr items) =
      some (items.map .given ++ .replicate (fs.length - items.length) .cut) := by
    rw [slots, if_neg (by simpa using hlength), List.length_map]
  have hreadable : (labelled (fs.map Member.name) items).all fun e => e.1.isSome := by
    simp [labelled]
  rw [h.decode, h.decode, harray, slots, if_pos hreadable, mapM_bind_collect]
  simp only [findField_eq]
  exact collect_positional h.keys build items hlength hrest

end Codec.HasMembers

end Record

end ComplementarityQP.Json
