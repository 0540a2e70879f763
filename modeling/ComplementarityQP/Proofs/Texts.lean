import ComplementarityQP.Proofs.Documents
import ComplementarityQP.Proofs.Spelling

/-! Documents as texts. Main statement: whatever a text is read as, its written form is read as the
same value and is its own written form, and all other spellings of the text have that written form
too. -/
namespace ComplementarityQP
open Json

inductive Kind where
  | options | problem | matrix | warmStart | solution | stats | record | answer | settings
  | runStatus | stationarity | qpStatus | innerStatus | phase | verbosity | method

namespace Kind

def Value : Kind → Type
  | options => Options Float
  | problem => Document Float
  | matrix => Payload Float
  | warmStart => WarmStart Float
  | solution => (n m : Nat) × Solution Float n m
  | stats => Stats Float
  | record => Record Float
  | answer => (n m : Nat) × Answer Float n m
  | settings => QpSettings Float
  | runStatus => RunStatus
  | stationarity => Stationarity
  | qpStatus => QpStatus
  | innerStatus => InnerStatus
  | phase => Phase
  | verbosity => Verbosity
  | method => QpMethod

def codec : (k : Kind) → Codec k.Value
  | options => Options.codec
  | problem => Document.codec
  | matrix => Payload.codec 0
  | warmStart => WarmStart.codec
  | solution => Solution.codec
  | stats => Stats.codec
  | record => Record.codec
  | answer => Answer.codec
  | settings => QpSettings.codec
  | runStatus => RunStatus.codec
  | stationarity => Stationarity.codec
  | qpStatus => QpStatus.codec
  | innerStatus => InnerStatus.codec
  | phase => Phase.codec
  | verbosity => Verbosity.codec
  | method => QpMethod.codec

def read (k : Kind) (s : String) : Option k.Value := Json.parse? s >>= k.codec.decode

def write (k : Kind) (a : k.Value) : String := (k.codec.encode a).render

/-- The text that is written for what a text is read as. -/
def normal (k : Kind) (s : String) : Option String := (k.read s).map k.write

theorem stable (k : Kind) : k.codec.Stable := by
  cases k with
  | options => exact Options.stable
  | problem => exact Document.stable
  | matrix => exact Payload.stable (Nat.zero_le 1)
  | warmStart => exact WarmStart.stable
  | solution => exact Solution.stable
  | stats => exact Stats.stable
  | record => exact Record.stable
  | answer => exact Answer.stable
  | settings => exact QpSettings.stable
  | runStatus => exact RunStatus.stable
  | stationarity => exact Stationarity.stable
  | qpStatus => exact QpStatus.stable
  | innerStatus => exact InnerStatus.stable
  | phase => exact Phase.stable
  | verbosity => exact Verbosity.stable
  | method => exact QpMethod.stable

/-! What a reader takes for the same. -/

def fields : Kind → List String
  | options => Options.fields
  | problem => Document.fields
  | warmStart => WarmStart.fields
  | solution => Solution.fields
  | stats => Stats.fields
  | record => Record.fields
  | answer => Answer.fields
  | settings => QpSettings.fields
  | _ => []

/-- The other keys, each with the field that it means. -/
def aliases : Kind → List (String × String)
  | problem =>
    [("Q", "hessian"), ("g", "gradient"), ("L", "left"), ("S1", "left"), ("R", "right"),
     ("S2", "right"), ("A", "constraints"), ("lbA", "lb_a"), ("ubA", "ub_a"),
     ("lbL", "lb_left"), ("ubL", "ub_left"), ("lbR", "lb_right"), ("ubR", "ub_right")]
  | _ => []

def nameOf (k : Kind) (key : String) : String := (k.aliases.lookup key).getD key

/-- How many values an array must have at least. -/
def least : Kind → Nat
  | options => 0
  | problem => 2
  | k => k.fields.length

/-- The fields that an object may lack, each with the value that it has then. -/
def defaults : Kind → List (String × Json)
  | options => entries Options.members Options.default
  | problem => (Document.fields.drop 2).map fun name => (name, .null)
  | warmStart => WarmStart.fields.map fun name => (name, .null)
  | stats => [("last_qp_status", .null)]
  | _ => []

/-- The fields that hold documents. -/
def parts : Kind → List (String × Kind)
  | options => [("qp_backend", method), ("verbosity", verbosity)]
  | problem => [("hessian", matrix), ("left", matrix), ("right", matrix), ("constraints", matrix)]
  | solution => [("status", runStatus), ("stationarity_type", stationarity), ("stats", stats)]
  | stats => [("last_qp_status", qpStatus)]
  | record => [("phase", phase)]
  | answer => [("status", qpStatus)]
  | _ => []

def names : Kind → List String
  | runStatus => RunStatus.all.map RunStatus.name
  | stationarity => Stationarity.all.map Stationarity.name
  | qpStatus => QpStatus.names.map Prod.fst
  | innerStatus => InnerStatus.plain.map Prod.fst
  | phase => Phase.all.map Phase.name
  | verbosity => Verbosity.all.map Verbosity.name
  | method => QpMethod.all.map QpMethod.name
  | _ => []

/-- The formats of a matrix, each with its other fields. -/
def formats : List (String × List String) :=
  [("dense", ["rows", "cols", "values"]), ("csc", ["rows", "cols", "colptr", "rowval", "nzval"])]

/-- Two values are spellings of one document. -/
inductive Respelled : Kind → Json → Json → Prop where
  | order {k : Kind} {entries entries' : List (Text × Json)} (h : entries.Perm entries') :
      Respelled k (.obj entries) (.obj entries')
  | aliased {k : Kind} {entries : List (Text × Json)} :
      Respelled k (.obj entries) (.obj (entries.map fun e => (e.1.map k.nameOf, e.2)))
  /-- A field with its default, and without it; no other key means the field. -/
  | omitted {k : Kind} {entries : List (Text × Json)} {name : String} {v : Json}
      (h : (name, v) ∈ k.defaults) (hothers : ∀ e ∈ entries, ∀ key ∈ e.1, k.nameOf key ≠ name) :
      Respelled k (.obj ((some name, v) :: entries)) (.obj entries)
  | positional {k : Kind} {items : List Json} (hleast : k.least ≤ items.length)
      (hmost : items.length ≤ k.fields.length) :
      Respelled k (.arr items) (.obj (labelled k.fields items))
  | format {format : String} {names : List String} {items : List Json}
      (h : (format, names) ∈ formats) (hlength : items.length = names.length) :
      Respelled matrix (.arr (.text format :: items))
        (.obj ((some "format", .text format) :: labelled names items))
  | name {k : Kind} {name : String} (h : name ∈ k.names) :
      Respelled k (.text name) (.obj [(some name, .null)])
  | part {k k' : Kind} {name : String} {entries : List (Text × Json)} {v v' : Json}
      (h : (name, k') ∈ k.parts) (hv : Respelled k' v v') :
      Respelled k (.obj ((some name, v) :: entries)) (.obj ((some name, v') :: entries))
  /-- One of the records of a run. -/
  | step {entries : List (Text × Json)} {before after : List Json} {v v' : Json}
      (hv : Respelled record v v') :
      Respelled stats (.obj ((some "trace", .arr (before ++ v :: after)) :: entries))
        (.obj ((some "trace", .arr (before ++ v' :: after)) :: entries))
  | failed {v v' : Json} (hv : Respelled qpStatus v v') :
      Respelled innerStatus (.obj [(some "Failed", v)]) (.obj [(some "Failed", v')])

/-! Keys. -/

theorem lookup_getD_eq_iff {table : List (String × String)} (hkeys : (table.map Prod.fst).Nodup)
    {name : String} (hname : name ∉ table.map Prod.fst) (key : String) :
    (table.lookup key).getD key = name ↔
      key ∈ name :: (table.filter fun a => a.2 = name).map Prod.fst := by
  induction table with
  | nil => simp
  | cons a table ih =>
    obtain ⟨other, meaning⟩ := a
    rw [List.map_cons, List.nodup_cons] at hkeys
    rw [List.map_cons, List.mem_cons, not_or] at hname
    by_cases hkey : key = other
    · subst hkey
      have hrest : key ∉ (table.filter fun a => a.2 = name).map Prod.fst := fun h =>
        hkeys.1 (List.map_subset _ (List.filter_subset_self _) h)
      by_cases hmeaning : meaning = name <;> simp [hmeaning, Ne.symm hname.1, hrest]
    · have hih := ih hkeys.2 hname.2
      have hbeq : (key == other) = false := beq_eq_false_iff_ne.mpr hkey
      by_cases hmeaning : meaning = name <;>
        simpa [List.lookup_cons, hbeq, hkey, hmeaning] using hih

def keysOf (k : Kind) (name : String) : List String :=
  name :: (k.aliases.filter fun a => a.2 = name).map Prod.fst

theorem nameOf_eq_iff {k : Kind} {name : String} (hname : name ∈ k.fields) (key : String) :
    k.nameOf key = name ↔ key ∈ k.keysOf name := by
  have hdisjoint : ∀ name ∈ k.fields, name ∉ k.aliases.map Prod.fst := by cases k <;> decide
  exact lookup_getD_eq_iff (by cases k <;> decide) (hdisjoint name hname) key

theorem nameOf_nameOf (k : Kind) (key : String) : k.nameOf (k.nameOf key) = k.nameOf key := by
  cases hlookup : k.aliases.lookup key with
  | none =>
    have hkey : k.nameOf key = key := by rw [nameOf, hlookup, Option.getD_none]
    rw [hkey, hkey]
  | some name =>
    obtain ⟨_, _, htable, -⟩ := List.lookup_eq_some_iff.mp hlookup
    have hfields : ∀ a ∈ k.aliases, a.2 ∈ k.fields := by cases k <;> decide
    have hname : name ∈ k.fields := hfields (key, name) (htable ▸ List.mem_append_cons_self)
    rw [show k.nameOf key = name by rw [nameOf, hlookup, Option.getD_some]]
    exact (nameOf_eq_iff hname name).mpr List.mem_cons_self

/-! What records are made of. -/

/-- Reads a document that stands inside of `level` records. -/
def decodeAt (level : Nat) : (k : Kind) → Json → Option k.Value
  | matrix => Payload.decode level
  | k => k.codec.decode

structure Alike (k : Kind) (v v' : Json) : Prop where
  left : v ≠ .null
  right : v' ≠ .null
  same : ∀ level, k.decodeAt level v = k.decodeAt level v'

theorem asOption_congr {α : Type} {f : Json → Option α} {v v' : Json} (hv : v ≠ .null)
    (hv' : v' ≠ .null) (h : f v = f v') : asOption f v = asOption f v' := by
  have hsome {u : Json} (hu : u ≠ .null) : asOption f u = (f u).map some := by
    cases u <;> first | contradiction | rfl
  rw [hsome hv, hsome hv', h]

theorem Alike.option {k : Kind} {v v' : Json} (h : k.Alike v v') (level : Nat) :
    asOption (k.decodeAt level) v = asOption (k.decodeAt level) v' :=
  asOption_congr h.left h.right (h.same level)

/-- The documents of `k` are records, with the members `fs`. -/
structure IsRecord (k : Kind) (fs : List (Member k.Value)) (build : Build k.Value fs) : Prop where
  hasMembers : k.codec.HasMembers fs build
  decode : ∀ level v, k.decodeAt level v = k.codec.decode v
  names : fs.map Member.name = k.fields
  keys : fs.map Member.keys = k.fields.map k.keysOf
  omitted : ∀ e ∈ k.defaults, ∃ f ∈ fs, f.name = e.1 ∧ f.read .absent = f.codec.decode e.2
  cut : ∀ f ∈ fs.drop k.least, f.read .cut = f.read .absent
  parts : ∀ e ∈ k.parts, ∃ f ∈ fs, f.name = e.1 ∧ ∀ v v', e.2.Alike v v' →
    f.codec.decode v = f.codec.decode v'

section
variable {ρ : Type} {fs : List (Member ρ)} {names : List String}

theorem omitted_null (hnames : fs.map Member.name = names) (count : Nat)
    (hread : ∀ f ∈ fs.drop count, f.read .absent = f.codec.decode .null) :
    ∀ e ∈ (names.drop count).map fun name => (name, Json.null),
      ∃ f ∈ fs, f.name = e.1 ∧ f.read .absent = f.codec.decode e.2 := by
  subst hnames
  rw [← List.map_drop, List.map_map, List.forall_mem_map]
  exact fun f hf => ⟨f, List.mem_of_mem_drop hf, rfl, hread f hf⟩

theorem cut_full (hnames : fs.map Member.name = names) :
    ∀ f ∈ fs.drop names.length, f.read .cut = f.read .absent := by
  rw [← hnames, List.length_map, List.drop_length]
  exact nofun

end

theorem isRecord_options : options.IsRecord Options.members Options.mk where
  hasMembers := Options.hasMembers
  decode := fun _ _ => rfl
  names := rfl
  keys := rfl
  omitted := by
    refine List.forall_mem_map.mpr fun f hf => ⟨f, hf, rfl, ?_⟩
    have hdefault := Options.read_absent f hf
    exact hdefault.trans ((Options.stable_members f hf).keeps .absent _ nofun hdefault).reads.symm
  cut := Options.read_cut
  parts := by
    simp only [parts, List.forall_mem_cons, List.not_mem_nil, false_imp_iff, implies_true, and_true]
    exact ⟨⟨Options.members[16], List.getElem_mem _, rfl, fun _ _ h => h.same 0⟩,
      ⟨Options.members[19], List.getElem_mem _, rfl, fun _ _ h => h.same 0⟩⟩

theorem isRecord_problem : problem.IsRecord Document.members Document.mk where
  hasMembers := Document.hasMembers
  decode := fun _ _ => rfl
  names := rfl
  keys := by decide
  omitted :=
    omitted_null (show Document.members.map Member.name = Document.fields from rfl) 2
      Document.read_absent
  cut := Document.read_cut
  parts := by
    simp only [parts, List.forall_mem_cons, List.not_mem_nil, false_imp_iff, implies_true, and_true]
    exact ⟨⟨Document.members[0], List.getElem_mem _, rfl, fun _ _ h => h.same 1⟩,
      ⟨Document.members[2], List.getElem_mem _, rfl, fun _ _ h => h.option 1⟩,
      ⟨Document.members[3], List.getElem_mem _, rfl, fun _ _ h => h.option 1⟩,
      ⟨Document.members[4], List.getElem_mem _, rfl, fun _ _ h => h.option 1⟩⟩

theorem isRecord_warmStart : warmStart.IsRecord WarmStart.members WarmStart.mk where
  hasMembers := WarmStart.hasMembers
  decode := fun _ _ => rfl
  names := rfl
  keys := rfl
  omitted :=
    omitted_null (show WarmStart.members.map Member.name = WarmStart.fields from rfl) 0
      WarmStart.read_absent
  cut := cut_full rfl
  parts := nofun

theorem isRecord_solution : solution.IsRecord Solution.members Solution.build where
  hasMembers := Solution.hasMembers
  decode := fun _ _ => rfl
  names := rfl
  keys := rfl
  omitted := nofun
  cut := cut_full rfl
  parts := by
    simp only [parts, List.forall_mem_cons, List.not_mem_nil, false_imp_iff, implies_true, and_true]
    exact ⟨⟨Solution.members[2], List.getElem_mem _, rfl, fun _ _ h => h.same 0⟩,
      ⟨Solution.members[3], List.getElem_mem _, rfl, fun _ _ h => h.same 0⟩,
      ⟨Solution.members[4], List.getElem_mem _, rfl, fun _ _ h => h.same 0⟩⟩

theorem isRecord_stats : stats.IsRecord Stats.members Stats.mk where
  hasMembers := Stats.hasMembers
  decode := fun _ _ => rfl
  names := rfl
  keys := rfl
  omitted := by
    simp only [defaults, List.forall_mem_cons, List.not_mem_nil, false_imp_iff, implies_true,
      and_true]
    exact ⟨Stats.members[9], List.getElem_mem _, rfl, rfl⟩
  cut := cut_full rfl
  parts := by
    simp only [parts, List.forall_mem_cons, List.not_mem_nil, false_imp_iff, implies_true, and_true]
    exact ⟨Stats.members[9], List.getElem_mem _, rfl, fun _ _ h => h.option 0⟩

theorem isRecord_record : record.IsRecord Record.members Record.mk where
  hasMembers := Record.hasMembers
  decode := fun _ _ => rfl
  names := rfl
  keys := rfl
  omitted := nofun
  cut := cut_full rfl
  parts := by
    simp only [parts, List.forall_mem_cons, List.not_mem_nil, false_imp_iff, implies_true, and_true]
    exact ⟨Record.members[0], List.getElem_mem _, rfl, fun _ _ h => h.same 0⟩

theorem isRecord_answer : answer.IsRecord Answer.members Answer.build where
  hasMembers := Answer.hasMembers
  decode := fun _ _ => rfl
  names := rfl
  keys := rfl
  omitted := nofun
  cut := cut_full rfl
  parts := by
    simp only [parts, List.forall_mem_cons, List.not_mem_nil, false_imp_iff, implies_true, and_true]
    exact ⟨Answer.members[2], List.getElem_mem _, rfl, fun _ _ h => h.same 0⟩

theorem isRecord_settings : settings.IsRecord QpSettings.members QpSettings.mk where
  hasMembers := QpSettings.hasMembers
  decode := fun _ _ => rfl
  names := rfl
  keys := rfl
  omitted := nofun
  cut := cut_full rfl
  parts := nofun

theorem isRecord_or (k : Kind) : (∃ fs build, k.IsRecord fs build) ∨ k.fields = [] := by
  cases k with
  | options => exact .inl ⟨_, _, isRecord_options⟩
  | problem => exact .inl ⟨_, _, isRecord_problem⟩
  | warmStart => exact .inl ⟨_, _, isRecord_warmStart⟩
  | solution => exact .inl ⟨_, _, isRecord_solution⟩
  | stats => exact .inl ⟨_, _, isRecord_stats⟩
  | record => exact .inl ⟨_, _, isRecord_record⟩
  | answer => exact .inl ⟨_, _, isRecord_answer⟩
  | settings => exact .inl ⟨_, _, isRecord_settings⟩
  | _ => exact .inr rfl

/-! The same for a reader. -/

namespace IsRecord
variable {k : Kind} {fs : List (Member k.Value)} {build : Build k.Value fs}
  (h : k.IsRecord fs build) {entries entries' : List (Text × Json)} {name : String} {v v' : Json}
include h

theorem mem_keys_iff {f : Member k.Value} (hf : f ∈ fs) (key : String) :
    key ∈ f.keys ↔ k.nameOf key = f.name := by
  have hname : f.name ∈ k.fields := h.names ▸ List.mem_map_of_mem hf
  have hkeys := h.keys
  rw [← h.names, List.map_map, List.map_inj_left] at hkeys
  rw [hkeys f hf]
  exact (nameOf_eq_iff hname key).symm

theorem decode_aliased :
    k.codec.decode (.obj entries) =
      k.codec.decode (.obj (entries.map fun e => (e.1.map k.nameOf, e.2))) :=
  h.hasMembers.decode_renamed fun key f hf => by rw [h.mem_keys_iff hf, h.mem_keys_iff hf,
    nameOf_nameOf]

theorem decode_omitted (hv : (name, v) ∈ k.defaults)
    (hothers : ∀ e ∈ entries, ∀ key ∈ e.1, k.nameOf key ≠ name) :
    k.codec.decode (.obj ((some name, v) :: entries)) = k.codec.decode (.obj entries) := by
  obtain ⟨f, hf, rfl, hread⟩ := h.omitted _ hv
  exact h.hasMembers.decode_omitted hf hread fun e he key hkey hmem =>
    hothers e he key hkey ((h.mem_keys_iff hf key).mp hmem)

theorem decode_positional {items : List Json} (hleast : k.least ≤ items.length)
    (hmost : items.length ≤ k.fields.length) :
    k.codec.decode (.arr items) = k.codec.decode (.obj (labelled k.fields items)) := by
  rw [← h.names, List.length_map] at hmost
  rw [← h.names]
  exact h.hasMembers.decode_positional hmost fun f hf =>
    h.cut f (List.drop_subset_drop_left fs hleast hf)

theorem decode_part {k' : Kind} (hpart : (name, k') ∈ k.parts) (hv : k'.Alike v v') :
    k.codec.decode (.obj ((some name, v) :: entries)) =
      k.codec.decode (.obj ((some name, v') :: entries)) := by
  obtain ⟨f, hf, rfl, hread⟩ := h.parts _ hpart
  exact h.hasMembers.decode_value hf (hread v v' hv)

end IsRecord

/-! Matrices. -/

theorem decodeBody_obj_perm {entries entries' : List (Text × Json)} (h : entries.Perm entries')
    (format : String) :
    Payload.decodeBody format (.obj entries) = Payload.decodeBody format (.obj entries') := by
  unfold Payload.decodeBody
  rw [Payload.dense_hasMembers.decode_perm h, Payload.csc_hasMembers.decode_perm h]

theorem decodeBody_positional {format : String} {names : List String} {items : List Json}
    (h : (format, names) ∈ formats) (hlength : items.length = names.length) :
    Payload.decodeBody format (.arr items) =
      Payload.decodeBody format (.obj (labelled names items)) := by
  have hcut {ρ : Type} {fs : List (Member ρ)} (hfs : items.length = fs.length) :
      ∀ f ∈ fs.drop items.length, f.read .cut = f.read .absent := by
    rw [hfs, List.drop_length]
    exact nofun
  simp only [formats, List.mem_cons, List.not_mem_nil, or_false, Prod.mk.injEq] at h
  obtain ⟨rfl, rfl⟩ | ⟨rfl, rfl⟩ := h
  · exact Payload.dense_hasMembers.decode_positional hlength.le (hcut hlength)
  · exact Payload.csc_hasMembers.decode_positional hlength.le (hcut hlength)

/-- There is one format, and the rest is in another order; or both objects have no or no single
format. -/
theorem tagged_perm {entries entries' : List (Text × Json)} (h : entries.Perm entries') :
    (Payload.tagged (.obj entries) = none ∧ Payload.tagged (.obj entries') = none) ∨
      ∃ format rest rest', rest.Perm rest' ∧
        Payload.tagged (.obj entries) = some (format, .obj rest) ∧
        Payload.tagged (.obj entries') = some (format, .obj rest') := by
  have hfound := h.filter fun f => f.1 = some "format"
  have hrest := h.filter (not ∘ fun f => decide (f.1 = some "format"))
  simp only [Payload.tagged, List.partition_eq_filter_filter]
  generalize entries.filter (fun f => f.1 = some "format") = found at hfound
  generalize entries'.filter (fun f => f.1 = some "format") = found' at hfound
  match found, found', hfound with
  | [], [], _ => exact .inl ⟨rfl, rfl⟩
  | [(_, v)], found', hfound =>
    obtain rfl := List.perm_singleton.mp hfound.symm
    rcases v with _ | _ | _ | (_ | format) | _ | _
    case str.some => exact .inr ⟨format, _, _, hrest, rfl, rfl⟩
    all_goals exact .inl ⟨rfl, rfl⟩
  | (_, v) :: _ :: _, (_, v') :: _ :: _, _ =>
    refine .inl ⟨?_, ?_⟩
    · rcases v with _ | _ | _ | (_ | _) | _ | _ <;> rfl
    · rcases v' with _ | _ | _ | (_ | _) | _ | _ <;> rfl
  | [], _ :: _, hfound | _ :: _ :: _, [], hfound | _ :: _ :: _, [_], hfound => simp at hfound

theorem storable_obj_perm {entries entries' : List (Text × Json)} (h : entries.Perm entries')
    (depth : Nat) :
    (Json.obj entries).storable depth = (Json.obj entries').storable depth := by
  cases depth with
  | zero => rw [Json.storable, Json.storable]
  | succ depth => rw [Json.storable, Json.storable, h.all_eq]

theorem decode_matrix_perm {entries entries' : List (Text × Json)} (h : entries.Perm entries')
    (level : Nat) :
    Payload.decode level (.obj entries) = Payload.decode level (.obj entries') := by
  rw [Payload.decode_eq, Payload.decode_eq, storable_obj_perm h]
  refine Option.bind_congr fun _ _ => ?_
  obtain ⟨hnone, hnone'⟩ | ⟨format, rest, rest', hrest, hsome, hsome'⟩ := tagged_perm h
  · rw [hnone, hnone']
  · rw [hsome, hsome']
    exact decodeBody_obj_perm hrest format

theorem storable_labelled {names : List String} {items : List Json}
    (hlength : items.length = names.length) (depth : Nat) :
    ((labelled names items).all fun f => f.1.isSome && f.2.storable depth) =
      items.all fun v => v.storable depth := by
  have hitems : (names.zip items).map Prod.snd = items := List.map_snd_zip hlength.le
  conv_rhs => rw [← hitems]
  simp only [labelled, List.all_map, Function.comp_def, Option.isSome_some, Bool.true_and]

theorem tagged_labelled {format : String} {names : List String} (hnames : "format" ∉ names)
    (items : List Json) :
    Payload.tagged (.obj ((some "format", .text format) :: labelled names items)) =
      some (format, .obj (labelled names items)) := by
  have hother : ∀ e ∈ labelled names items, e.1 ≠ some "format" := by
    intro e he hformat
    obtain ⟨e', he', rfl⟩ := List.mem_map.mp he
    exact hnames (Option.some.inj hformat ▸ (List.of_mem_zip he').1)
  have hnone : (labelled names items).filter (fun f => f.1 = some "format") = [] :=
    List.filter_eq_nil_iff.mpr fun e he => by simpa using hother e he
  have hall : (labelled names items).filter (not ∘ fun f => decide (f.1 = some "format")) =
      labelled names items :=
    List.filter_eq_self.mpr fun e he => by simpa using hother e he
  have hpartition : ((some "format", Json.text format) :: labelled names items).partition
      (fun f => f.1 = some "format") = ([(some "format", .text format)], labelled names items) := by
    rw [List.partition_eq_filter_filter, List.filter_cons_of_pos (by simp),
      List.filter_cons_of_neg (by simp), hnone, hall]
  rw [Payload.tagged, hpartition]
  rfl

theorem decode_matrix_positional {format : String} {names : List String} {items : List Json}
    (h : (format, names) ∈ formats) (hlength : items.length = names.length) (level : Nat) :
    Payload.decode level (.arr (.text format :: items)) =
      Payload.decode level (.obj ((some "format", .text format) :: labelled names items)) := by
  have hnames : ∀ f ∈ formats, "format" ∉ f.2 := by decide
  have hstorable (depth : Nat) : (Json.arr (.text format :: items)).storable depth =
      (Json.obj ((some "format", .text format) :: labelled names items)).storable depth := by
    cases depth with
    | zero => rw [Json.storable, Json.storable]
    | succ depth =>
      rw [Json.storable, Json.storable, List.all_cons, List.all_cons, storable_labelled hlength]
      rfl
  rw [Payload.decode_eq, Payload.decode_eq, hstorable, tagged_labelled (hnames _ h)]
  exact Option.bind_congr fun _ _ => decodeBody_positional h hlength

/-! Names. -/

theorem obj_perm {entries entries' : List (Text × Json)} (h : entries.Perm entries') :
    entries = entries' ∨ (entries.length ≠ 1 ∧ entries'.length ≠ 1) := by
  by_cases hlength : entries.length = 1
  · obtain ⟨e, rfl⟩ := List.length_eq_one_iff.mp hlength
    exact .inl (List.perm_singleton.mp h.symm).symm
  · exact .inr ⟨hlength, h.length_eq ▸ hlength⟩

theorem asEnum_obj {α : Type} (names : List (String × α)) {entries : List (Text × Json)}
    (h : entries.length ≠ 1) :
    asEnum names (.obj entries) = none := by
  unfold asEnum
  split
  case h_1 heq => cases heq
  case h_2 heq =>
    cases heq
    exact absurd rfl h
  case h_3 => rfl

theorem asEnum_perm {α : Type} (names : List (String × α)) {entries entries' : List (Text × Json)}
    (h : entries.Perm entries') : asEnum names (.obj entries) = asEnum names (.obj entries') := by
  obtain rfl | ⟨hlength, hlength'⟩ := obj_perm h
  · rfl
  · rw [asEnum_obj names hlength, asEnum_obj names hlength']

theorem decode_innerStatus_perm {entries entries' : List (Text × Json)}
    (h : entries.Perm entries') :
    InnerStatus.decode (.obj entries) = InnerStatus.decode (.obj entries') := by
  have hplain {entries : List (Text × Json)} (hlength : entries.length ≠ 1) :
      InnerStatus.decode (.obj entries) = none := by
    unfold InnerStatus.decode
    split
    case h_1 heq =>
      cases heq
      exact absurd rfl hlength
    case h_2 => exact asEnum_obj _ hlength
  obtain rfl | ⟨hlength, hlength'⟩ := obj_perm h
  · rfl
  · rw [hplain hlength, hplain hlength']

/-! All of it. -/

theorem decodeAt_perm (k : Kind) {entries entries' : List (Text × Json)} (h : entries.Perm entries')
    (level : Nat) :
    k.decodeAt level (.obj entries) = k.decodeAt level (.obj entries') := by
  obtain ⟨fs, build, hrecord⟩ | hfields := k.isRecord_or
  · rw [hrecord.decode, hrecord.decode]
    exact hrecord.hasMembers.decode_perm h
  · cases k with
    | matrix => exact decode_matrix_perm h level
    | runStatus | stationarity | qpStatus | phase | verbosity | method => exact asEnum_perm _ h
    | innerStatus => exact decode_innerStatus_perm h
    | _ => contradiction

theorem decodeAt_aliased (k : Kind) (entries : List (Text × Json)) (level : Nat) :
    k.decodeAt level (.obj entries) =
    k.decodeAt level (.obj (entries.map fun e => (e.1.map k.nameOf, e.2))) := by
  obtain ⟨fs, build, hrecord⟩ | hfields := k.isRecord_or
  · rw [hrecord.decode, hrecord.decode]
    exact hrecord.decode_aliased
  · have haliases : k.aliases = [] := by cases k <;> first | rfl | contradiction
    have hname : k.nameOf = id := funext fun key => by rw [nameOf, haliases]; rfl
    simp [hname]

theorem decodeAt_positional (k : Kind) {items : List Json} (hleast : k.least ≤ items.length)
    (hmost : items.length ≤ k.fields.length) (level : Nat) :
    k.decodeAt level (.arr items) = k.decodeAt level (.obj (labelled k.fields items)) := by
  obtain ⟨fs, build, hrecord⟩ | hfields := k.isRecord_or
  · rw [hrecord.decode, hrecord.decode]
    exact hrecord.decode_positional hleast hmost
  · rw [hfields, List.length_nil, Nat.le_zero, List.length_eq_zero_iff] at hmost
    subst hmost
    rw [labelled_nil]
    cases k with
    | matrix =>
      have hnone {v : Json} (hv : Payload.tagged v = none) : Payload.decode level v = none := by
        rw [Payload.decode_eq, hv]
        exact Option.bind_fun_none _
      exact (hnone rfl).trans (hnone rfl).symm
    | _ => first | rfl | contradiction

theorem decode_name {k : Kind} {name : String} (h : name ∈ k.names) (level : Nat) :
    k.decodeAt level (.text name) = k.decodeAt level (.obj [(some name, .null)]) := by
  cases k with
  | innerStatus =>
    simp only [names, InnerStatus.plain, List.map_cons, List.map_nil, List.mem_cons,
      List.not_mem_nil, or_false] at h
    obtain rfl | rfl | rfl | rfl := h <;> rfl
  | _ => first | rfl | contradiction

theorem decode_step {entries : List (Text × Json)} {before after : List Json} {v v' : Json}
    (hv : Record.decode v = Record.decode v') :
    Stats.decode (.obj ((some "trace", .arr (before ++ v :: after)) :: entries)) =
      Stats.decode (.obj ((some "trace", .arr (before ++ v' :: after)) :: entries)) := by
  have htrace : asList Record.decode (.arr (before ++ v :: after)) =
      asList Record.decode (.arr (before ++ v' :: after)) := by
    simp only [asList, List.mapM_append, List.mapM_cons, hv]
  exact Stats.hasMembers.decode_value (f := Stats.members[11]) (List.getElem_mem _) htrace

theorem Respelled.alike {k : Kind} {v v' : Json} (h : k.Respelled v v') : k.Alike v v' := by
  induction h with
  | order h => exact ⟨nofun, nofun, decodeAt_perm _ h⟩
  | aliased => exact ⟨nofun, nofun, decodeAt_aliased _ _⟩
  | @omitted k entries name v h hothers =>
    refine ⟨nofun, nofun, fun level => ?_⟩
    obtain ⟨fs, build, hrecord⟩ | hfields := k.isRecord_or
    · rw [hrecord.decode, hrecord.decode]
      exact hrecord.decode_omitted h hothers
    · cases k <;> contradiction
  | positional hleast hmost => exact ⟨nofun, nofun, decodeAt_positional _ hleast hmost⟩
  | format h hlength => exact ⟨nofun, nofun, decode_matrix_positional h hlength⟩
  | name h => exact ⟨nofun, nofun, decode_name h⟩
  | @part k k' name entries v v' h hv ih =>
    refine ⟨nofun, nofun, fun level => ?_⟩
    obtain ⟨fs, build, hrecord⟩ | hfields := k.isRecord_or
    · rw [hrecord.decode, hrecord.decode]
      exact hrecord.decode_part h ih
    · cases k <;> contradiction
  | step _ ih => exact ⟨nofun, nofun, fun _ => decode_step (ih.same 0)⟩
  | failed _ ih =>
    exact ⟨nofun, nofun, fun _ => congrArg (Option.map InnerStatus.failed) (ih.option 0)⟩

/-- Respellings in sequence, there and back, make no difference to what is read. -/
theorem decode_respelled {k : Kind} {v v' : Json} (h : Relation.EqvGen k.Respelled v v') :
    k.codec.decode v = k.codec.decode v' := by
  have hread : k.decodeAt 0 = k.codec.decode := by cases k <;> rfl
  have hequiv : Equivalence fun v v' => k.decodeAt 0 v = k.decodeAt 0 v' :=
    ⟨fun _ => rfl, Eq.symm, Eq.trans⟩
  rw [← hread]
  exact hequiv.eqvGen_iff.mp (h.mono fun _ _ h => h.alike.same 0)

/-- Whatever is read, through any keys, in any form and with anything left out, its written form is
read as the same value, and is its own written form. All floats that are read are finite. All other
spellings of the text are read as the same value, and have the same written form. -/
theorem rewriting_keeps_value (k : Kind) {s : String} {a : k.Value} (h : k.read s = some a) :
    ((∀ x ∈ k.codec.floats a, x.isFinite = true) ∧ k.read (k.write a) = some a ∧
      k.normal s = some (k.write a) ∧
      k.normal (k.write a) = some (k.write a)) ∧
    ∀ s' v v', Json.parse? s = some v → Json.parse? s' = some v' →
      Relation.EqvGen k.Respelled v v' →
      k.read s' = some a ∧ k.normal s' = some (k.write a) := by
  obtain ⟨v, hparse, hdecode⟩ := Option.bind_eq_some_iff.mp h
  have hkept := k.stable v a (proper_of_parse? hparse) hdecode
  have hread : k.read (k.write a) = some a :=
    Option.bind_eq_some_iff.mpr ⟨k.codec.encode a, parse?_render hkept.proper, hkept.reads⟩
  have hnormal {s' : String} (hs' : k.read s' = some a) : k.normal s' = some (k.write a) := by
    rw [normal, hs', Option.map_some]
  refine ⟨⟨hkept.finite, hread, hnormal h, hnormal hread⟩, fun s' v₁ v' hv hv' hspelled => ?_⟩
  obtain rfl : v = v₁ := Option.some.inj (hparse.symm.trans hv)
  have hread' : k.read s' = some a :=
    Option.bind_eq_some_iff.mpr ⟨v', hv', (decode_respelled hspelled).symm.trans hdecode⟩
  exact ⟨hread', hnormal hread'⟩

/-- A problem with short keys, arrays for matrices, numbers in several spellings and an absent
bound. -/
def sample : String :=
  "\x7b\"Q\": [\"dense\", 1, 1, [20e-1]],\n\"g\": [-2.50], \"S1\": [\"dense\", 1, 1, [1]], " ++
  "\"R\": [\"dense\", 1, 1, [0]], \"A\": [\"csc\", 1, 1, [0, 1], [0], [3]], " ++
  "\"lbA\": [null], \"ubA\": [4]\x7d"

/-- The same problem with the names of the fields, a field that is null and the format of a matrix
beside its fields. -/
def plain : String :=
  "\x7b\"x0\": null, \"hessian\": \x7b\"format\": \"dense\", \"rows\": 1, \"cols\": 1, " ++
  "\"values\": [20e-1]\x7d, " ++
  "\"gradient\": [-2.50], \"left\": [\"dense\", 1, 1, [1]], \"right\": [\"dense\", 1, 1, [0]], " ++
  "\"constraints\": [\"csc\", 1, 1, [0, 1], [0], [3]], \"lb_a\": [null], \"ub_a\": [4]\x7d"

/-- The same problem without keys. -/
def keyless : String :=
  "[[\"dense\", 1, 1, [20e-1]], [-2.50], [\"dense\", 1, 1, [1]], [\"dense\", 1, 1, [0]], " ++
  "[\"csc\", 1, 1, [0, 1], [0], [3]], [null], [4]]"

def sampleItems : List Json :=
  let dense (l : Numeral) : Json := .arr [.text "dense", .nat 1, .nat 1, .arr [.num l]]
  [dense ⟨false, 20, -1, false⟩, .arr [.num ⟨true, 250, -2, false⟩], dense (.ofNat 1),
    dense (.ofNat 0),
    .arr [.text "csc", .nat 1, .nat 1, .arr [.nat 0, .nat 1], .arr [.nat 0], .arr [.nat 3]],
    .arr [.null], .arr [.nat 4]]

set_option maxRecDepth 4000 in
theorem parse_sample :
    Json.parse? sample =
      some (.obj (labelled ["Q", "g", "S1", "R", "A", "lbA", "ubA"] sampleItems)) := by rfl

set_option maxRecDepth 4000 in
theorem parse_keyless : Json.parse? keyless = some (.arr sampleItems) := by rfl

def plainEntries : List (Text × Json) :=
  (some "hessian", .obj ((some "format", .text "dense") ::
      labelled ["rows", "cols", "values"] [.nat 1, .nat 1, .arr [.num ⟨false, 20, -1, false⟩]])) ::
    labelled ["gradient", "left", "right", "constraints", "lb_a", "ub_a"] sampleItems.tail

set_option maxRecDepth 4000 in
theorem parse_plain : Json.parse? plain = some (.obj ((some "x0", .null) :: plainEntries)) := by rfl

theorem sample_aliased :
    problem.Respelled (.obj (labelled ["Q", "g", "S1", "R", "A", "lbA", "ubA"] sampleItems))
      (.obj (labelled problem.fields sampleItems)) := .aliased

theorem keyless_positional :
    problem.Respelled (.arr sampleItems) (.obj (labelled problem.fields sampleItems)) :=
  .positional (by decide) (by decide)

theorem plain_omitted :
    problem.Respelled (.obj ((some "x0", .null) :: plainEntries)) (.obj plainEntries) :=
  .omitted (List.mem_map.mpr ⟨"x0", by decide, rfl⟩) (by decide)

theorem plain_part :
    problem.Respelled (.obj (labelled problem.fields sampleItems)) (.obj plainEntries) :=
  .part List.mem_cons_self (.format List.mem_cons_self rfl)

theorem rewriting_keeps_value_sample : ∃ a, problem.read sample = some a ∧
    ((∀ x ∈ problem.codec.floats a, x.isFinite = true) ∧ problem.read (problem.write a) = some a ∧
      problem.normal sample = some (problem.write a) ∧
        problem.normal (problem.write a) = some (problem.write a)) ∧
    (problem.read plain = some a ∧ problem.normal plain = some (problem.write a)) ∧
    (problem.read keyless = some a ∧ problem.normal keyless = some (problem.write a)) := by
  have hread : (problem.read sample).isSome = true := by decide +kernel
  obtain ⟨a, ha⟩ := Option.isSome_iff_exists.mp hread
  obtain ⟨hkept, hspelled⟩ := rewriting_keeps_value problem ha
  have hsample := Relation.EqvGen.rel _ _ sample_aliased
  have hplain :=
    (Relation.EqvGen.rel _ _ plain_part).trans _ _ _ (.symm _ _ (.rel _ _ plain_omitted))
  have hkeyless := Relation.EqvGen.symm _ _ (.rel _ _ keyless_positional)
  exact ⟨a, ha, hkept, hspelled plain _ _ parse_sample parse_plain (hsample.trans _ _ _ hplain),
    hspelled keyless _ _ parse_sample parse_keyless (hsample.trans _ _ _ hkeyless)⟩

end Kind

end ComplementarityQP
