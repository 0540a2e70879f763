import ComplementarityQP.Problem.Document
import ComplementarityQP.Proofs.Codecs
import ComplementarityQP.Qp
import ComplementarityQP.Solution

/-! The documents of the library, each with its fields. -/
namespace ComplementarityQP
open Json

/-! Named values. -/

def QpStatus.codec : Codec QpStatus := ⟨decode, encode, fun _ => []⟩

def RunStatus.codec : Codec RunStatus := ⟨decode, encode, fun _ => []⟩

def Stationarity.codec : Codec Stationarity := ⟨decode, encode, fun _ => []⟩

def Phase.codec : Codec Phase := ⟨decode, encode, fun _ => []⟩

def Verbosity.codec : Codec Verbosity := ⟨decode, encode, fun _ => []⟩

def QpMethod.codec : Codec QpMethod := ⟨decode, encode, fun _ => []⟩

def InnerStatus.codec : Codec InnerStatus := ⟨decode, encode, fun _ => []⟩

theorem QpStatus.stable : codec.Stable :=
  show (Codec.enum names name).Stable from Codec.stable_enum fun s => by cases s <;> decide

theorem RunStatus.stable : codec.Stable :=
  show (Codec.enum (all.map fun s => (s.name, s)) name).Stable from Codec.stable_enum
    fun s => by cases s <;> decide

theorem Stationarity.stable : codec.Stable :=
  show (Codec.enum (all.map fun s => (s.name, s)) name).Stable from Codec.stable_enum
    fun s => by cases s <;> decide

theorem Phase.stable : codec.Stable :=
  show (Codec.enum (all.map fun p => (p.name, p)) name).Stable from Codec.stable_enum
    fun p => by cases p <;> decide

theorem Verbosity.stable : codec.Stable :=
  show (Codec.enum (all.map fun v => (v.name, v)) name).Stable from Codec.stable_enum
    fun v => by cases v <;> decide

theorem QpMethod.stable : codec.Stable :=
  show (Codec.enum (all.map fun q => (q.name, q)) name).Stable from Codec.stable_enum
    fun q => by cases q <;> decide

/-- The status inside of a failure is null or a name. -/
theorem InnerStatus.stable : codec.Stable := by
  intro _ a _ _
  cases a with
  | failed s =>
    refine ⟨?_, .obj fun f hf => ?_, by simp [codec]⟩
    · cases s with
      | none => rfl
      | some q => cases q <;> rfl
    · obtain rfl := List.mem_singleton.mp hf
      cases s with
      | none => exact .null
      | some q => exact .str _
  | _ => exact ⟨rfl, .str _, by simp [codec]⟩

/-! Records. -/

namespace QpSettings

def members : List (Member (QpSettings Float)) :=
  [.required "max_iterations" (.nat UInt32.size) maxIterations,
    .required "tolerance" .float tolerance, .required "verbose" .bool verbose]

def codec : Codec (QpSettings Float) := .record decode (encode Json.float) members

theorem hasMembers : codec.HasMembers members mk where
  keys := by decide
  decode := fun v => Option.bind_congr fun ss hss => by
    match ss, length_of_slots hss with
    | [_, _, _], _ => rfl
  encode := fun _ => rfl
  floats := fun _ => rfl
  faithful := by simp [members, Faithful, rebuild, Member.required]

theorem stable : codec.Stable := hasMembers.stable <| by
  simp only [members, List.forall_mem_cons, List.not_mem_nil, false_imp_iff, implies_true, and_true]
  exact ⟨.required (Codec.stable_nat _), .required Codec.stable_float, .required Codec.stable_bool⟩

end QpSettings

namespace Record

def members : List (Member (Record Float)) :=
  [.required "phase" Phase.codec phase, .required "outer_iteration" .size outer,
   .required "inner_iteration" .size inner, .required "total_iteration" .size total,
   .required "penalty" .float penalty, .required "complementarity" .float complementarity,
   .required "stationarity" .float stationarity, .required "objective" .float objective,
   .required "merit" .float merit, .required "step_length" .float stepLength,
   .required "step_norm" .float stepNorm, .required "qp_iterations" .size qpIterations]

def codec : Codec (Record Float) := .record decode (encode Json.float) members

theorem hasMembers : codec.HasMembers members mk where
  keys := by decide
  decode := fun v => Option.bind_congr fun ss hss => by
    match ss, length_of_slots hss with
    | [_, _, _, _, _, _, _, _, _, _, _, _], _ => rfl
  encode := fun _ => rfl
  floats := fun _ => rfl
  faithful := by simp [members, Faithful, rebuild, Member.required]

theorem stable : codec.Stable := hasMembers.stable <| by
  simp only [members, List.forall_mem_cons, List.not_mem_nil, false_imp_iff, implies_true, and_true]
  exact ⟨.required Phase.stable, .required Codec.stable_size, .required Codec.stable_size,
    .required Codec.stable_size, .required Codec.stable_float, .required Codec.stable_float,
    .required Codec.stable_float, .required Codec.stable_float, .required Codec.stable_float,
    .required Codec.stable_float, .required Codec.stable_float, .required Codec.stable_size⟩

end Record

namespace Stats

def members : List (Member (Stats Float)) :=
  [.required "outer_iterations" .size outer, .required "inner_iterations" .size inner,
   .required "qp_iterations" .size qpIterations, .required "final_penalty" .float finalPenalty,
   .required "penalty_history" (.list .float) history,
   .required "complementarity" .float complementarity, .required "stationarity" .float stationarity,
   .required "objective" .float objective, .required "regularization" .float shift,
   .optional "last_qp_status" QpStatus.codec lastQp, .required "elapsed_seconds" .float elapsed,
   .required "trace" (.list Record.codec) trace]

def codec : Codec (Stats Float) := .record decode (encode Json.float) members

theorem hasMembers : codec.HasMembers members mk where
  keys := by decide
  decode := fun v => Option.bind_congr fun ss hss => by
    match ss, length_of_slots hss with
    | [_, _, _, _, _, _, _, _, _, _, _, _], _ => rfl
  encode := fun _ => rfl
  floats := fun _ => rfl
  faithful := by simp [members, Faithful, rebuild, Member.required, Member.optional]

theorem stable : codec.Stable := hasMembers.stable <| by
  simp only [members, List.forall_mem_cons, List.not_mem_nil, false_imp_iff, implies_true, and_true]
  exact ⟨.required Codec.stable_size, .required Codec.stable_size, .required Codec.stable_size,
    .required Codec.stable_float, .required (Codec.stable_list Codec.stable_float),
    .required Codec.stable_float, .required Codec.stable_float, .required Codec.stable_float,
    .required Codec.stable_float, .optional rfl QpStatus.stable, .required Codec.stable_float,
    .required (Codec.stable_list Record.stable)⟩

end Stats

namespace WarmStart

def members : List (Member (WarmStart Float)) :=
  [.optional "x" (.array .float) x, .optional "y" (.array .float) y,
    .optional "penalty" .float penalty]

def codec : Codec (WarmStart Float) := .record decode (encode Json.float) members

theorem hasMembers : codec.HasMembers members mk where
  keys := by decide
  decode := fun v => Option.bind_congr fun ss hss => by
    match ss, length_of_slots hss with
    | [_, _, _], _ => rfl
  encode := fun _ => rfl
  floats := fun _ => rfl
  faithful := by simp [members, Faithful, rebuild, Member.optional]

theorem stable : codec.Stable := hasMembers.stable <| by
  simp only [members, List.forall_mem_cons, List.not_mem_nil, false_imp_iff, implies_true, and_true]
  exact ⟨.optional rfl (Codec.stable_array Codec.stable_float),
    .optional rfl (Codec.stable_array Codec.stable_float), .optional rfl Codec.stable_float⟩

theorem read_absent : ∀ f ∈ members, f.read .absent = f.codec.decode .null := by
  simp only [members, List.forall_mem_cons, List.not_mem_nil, false_imp_iff, implies_true, and_true]
  exact ⟨rfl, rfl, rfl⟩

end WarmStart

namespace Answer

def build (x y : Array Float) (status : QpStatus) (objective : Float) (iterations : Nat) :
    (n m : Nat) × Answer Float n m :=
  ⟨x.size, y.size, x.toVector, y.toVector, status, objective, iterations⟩

def members : List (Member ((n m : Nat) × Answer Float n m)) :=
  [.required "x" (.array .float) fun a => a.2.2.x.toArray,
    .required "y" (.array .float) fun a => a.2.2.y.toArray,
    .required "status" QpStatus.codec fun a => a.2.2.status,
    .required "objective" .float fun a => a.2.2.objective,
    .required "iterations" .size fun a => a.2.2.iterations]

def codec : Codec ((n m : Nat) × Answer Float n m) :=
  .record decode (fun a => a.2.2.encode Json.float) members

theorem hasMembers : codec.HasMembers members build where
  keys := by decide
  decode := fun v => Option.bind_congr fun ss hss => by
    match ss, length_of_slots hss with
    | [_, _, _, _, _], _ => rfl
  encode := fun _ => rfl
  floats := fun _ => rfl
  faithful := by simp [members, Faithful, rebuild, Member.required, build]

theorem stable : codec.Stable := hasMembers.stable <| by
  simp only [members, List.forall_mem_cons, List.not_mem_nil, false_imp_iff, implies_true, and_true]
  exact ⟨.required (Codec.stable_array Codec.stable_float),
    .required (Codec.stable_array Codec.stable_float), .required QpStatus.stable,
    .required Codec.stable_float, .required Codec.stable_size⟩

end Answer

namespace Solution

def build (x y : Array Float) (status : RunStatus) (stationarity : Stationarity)
    (stats : Stats Float) :
    (n m : Nat) × Solution Float n m :=
  ⟨x.size, y.size, x.toVector, y.toVector, status, stationarity, stats⟩

def members : List (Member ((n m : Nat) × Solution Float n m)) :=
  [.required "x" (.array .float) fun s => s.2.2.x.toArray,
    .required "y" (.array .float) fun s => s.2.2.y.toArray,
    .required "status" RunStatus.codec fun s => s.2.2.status,
    .required "stationarity_type" Stationarity.codec fun s => s.2.2.stationarity,
    .required "stats" Stats.codec fun s => s.2.2.stats]

def codec : Codec ((n m : Nat) × Solution Float n m) :=
  .record decode (fun s => s.2.2.encode Json.float) members

theorem hasMembers : codec.HasMembers members build where
  keys := by decide
  decode := fun v => Option.bind_congr fun ss hss => by
    match ss, length_of_slots hss with
    | [_, _, _, _, _], _ => rfl
  encode := fun _ => rfl
  floats := fun _ => rfl
  faithful := by simp [members, Faithful, rebuild, Member.required, build]

theorem stable : codec.Stable := hasMembers.stable <| by
  simp only [members, List.forall_mem_cons, List.not_mem_nil, false_imp_iff, implies_true, and_true]
  exact ⟨.required (Codec.stable_array Codec.stable_float),
    .required (Codec.stable_array Codec.stable_float), .required RunStatus.stable,
    .required Stationarity.stable, .required Stats.stable⟩

end Solution

namespace Options

def members : List (Member (Options Float)) :=
  let z : Options Float := default
  [.orElse "stationarity_tolerance" z.stationarityTol .float stationarityTol,
   .orElse "complementarity_tolerance" z.complementarityTol .float complementarityTol,
   .orElse "initial_penalty" z.initialPenalty .float initialPenalty,
   .orElse "penalty_growth_factor" z.penaltyGrowth .float penaltyGrowth,
   .orElse "max_penalty" z.maxPenalty .float maxPenalty,
   .orElse "max_outer_iterations" z.maxOuter .size maxOuter,
   .orElse "max_inner_iterations" z.maxInner .size maxInner,
   .orElse "solve_zero_penalty_first" z.zeroPenaltyFirst .bool zeroPenaltyFirst,
   .orElse "dynamic_penalty_window" z.window .size window,
   .orElse "dynamic_penalty_eta" z.eta .float eta,
   .orElse "perturb_step" z.nudge .bool nudge,
   .orElse "step_tolerance" z.stepTol .float stepTol,
   .orElse "merit_tolerance" z.meritTol .float meritTol,
   .orElse "regularization_initial" z.shiftInitial .float shiftInitial,
   .orElse "regularization_growth" z.shiftGrowth .float shiftGrowth,
   .orElse "regularization_max_attempts" z.shiftAttempts .size shiftAttempts,
   .orElse "qp_backend" z.method QpMethod.codec method,
   .orElse "qp_max_iterations" z.qpMaxIterations (.nat UInt32.size) qpMaxIterations,
   .orElse "qp_tolerance" z.qpTol .float qpTol,
   .orElse "verbosity" z.verbosity Verbosity.codec verbosity,
   .orElse "time_limit_seconds" z.timeLimit (.option .float) timeLimit,
   .orElse "store_steps" z.storeSteps .bool storeSteps]

def codec : Codec (Options Float) := .record decode (encode Json.float) members

theorem hasMembers : codec.HasMembers members mk where
  keys := by decide
  decode := fun v => Option.bind_congr fun ss hss => by
    match ss, length_of_slots hss with
    | [_, _, _, _, _, _, _, _, _, _, _, _, _, _, _, _, _, _, _, _, _, _], _ => rfl
  encode := fun _ => rfl
  floats := fun _ => rfl
  faithful := by simp [members, Faithful, rebuild, Member.orElse]

theorem stable_float {name : String} {x : Float} {get : Options Float → Float}
    (hx : x.isFinite = true) :
    (Member.orElse name x .float get).Stable := .orElse Codec.stable_float (Codec.keeps_float hx)

theorem stable_size {name : String} {n : Nat} {get : Options Float → Nat} (hn : n < UInt64.size) :
    (Member.orElse name n .size get).Stable := .orElse Codec.stable_size (Codec.keeps_nat hn)

theorem stable_bool {name : String} {b : Bool} {get : Options Float → Bool} :
    (Member.orElse name b .bool get).Stable := .orElse Codec.stable_bool (Codec.keeps_bool b)

/-- The defaults are such as could have been read. -/
theorem stable_members : ∀ f ∈ members, f.Stable := by
  have hmethod := QpMethod.stable (.text "DenseActiveSet") .denseActiveSet (.str _) rfl
  have hverbosity := Verbosity.stable (.text "OuterLoopIterates") .outer (.str _) rfl
  have hword : (Codec.nat UInt32.size).Keeps 10000 := Codec.keeps_nat (by decide)
  simp only [members, List.forall_mem_cons, List.not_mem_nil, false_imp_iff, implies_true, and_true]
  exact ⟨stable_float (by decide +kernel), stable_float (by decide +kernel),
    stable_float (by decide +kernel), stable_float (by decide +kernel),
    stable_float (by decide +kernel), stable_size (by decide), stable_size (by decide), stable_bool,
    stable_size (by decide), stable_float (by decide +kernel), stable_bool,
    stable_float (by decide +kernel), stable_float (by decide +kernel),
    stable_float (by decide +kernel), stable_float (by decide +kernel), stable_size (by decide),
    .orElse QpMethod.stable hmethod, .orElse (Codec.stable_nat _) hword,
    stable_float (by decide +kernel), .orElse Verbosity.stable hverbosity,
    .orElse (Codec.stable_option rfl Codec.stable_float) (Codec.keeps_none _), stable_bool⟩

theorem stable : codec.Stable := hasMembers.stable stable_members

theorem read_absent : ∀ f ∈ members, f.read .absent = some (f.get default) := by
  simp only [members, List.forall_mem_cons, List.not_mem_nil, false_imp_iff, implies_true, and_true]
  exact ⟨rfl, rfl, rfl, rfl, rfl, rfl, rfl, rfl, rfl, rfl, rfl, rfl, rfl, rfl, rfl, rfl, rfl, rfl,
    rfl, rfl, rfl, rfl⟩

theorem read_cut : ∀ f ∈ members, f.read .cut = f.read .absent := by
  simp only [members, List.forall_mem_cons, List.not_mem_nil, false_imp_iff, implies_true, and_true]
  exact ⟨rfl, rfl, rfl, rfl, rfl, rfl, rfl, rfl, rfl, rfl, rfl, rfl, rfl, rfl, rfl, rfl, rfl, rfl,
    rfl, rfl, rfl, rfl⟩

end Options

/-! Matrices. -/

namespace Payload

def word : Codec UInt64 := ⟨asWord, fun w => .nat w.toNat, fun _ => []⟩

theorem stable_word : word.Stable := by
  intro v w _ _
  have hkept : (Codec.nat UInt64.size).Keeps w.toNat := Codec.keeps_nat w.toNat_lt
  refine ⟨?_, hkept.proper, by simp [word]⟩
  have hread : asSize (.nat w.toNat) = some w.toNat := hkept.reads
  simp [word, asWord, hread]

def rows : Payload Float → UInt64
  | .dense r _ _ | .csc r _ _ _ _ => r

def cols : Payload Float → UInt64
  | .dense _ c _ | .csc _ c _ _ _ => c

def values : Payload Float → Array Float
  | .dense _ _ x => x
  | .csc .. => #[]

def colptr : Payload Float → List Nat
  | .dense .. => []
  | .csc _ _ p _ _ => p

def rowval : Payload Float → List Nat
  | .dense .. => []
  | .csc _ _ _ i _ => i

def nzval : Payload Float → List Float
  | .dense .. => []
  | .csc _ _ _ _ x => x

def denseMembers : List (Member (Payload Float)) :=
  [.required "rows" word rows, .required "cols" word cols,
    .required "values" (.array .float) values]

def cscMembers : List (Member (Payload Float)) :=
  [.required "rows" word rows, .required "cols" word cols, .required "colptr" (.list .size) colptr,
   .required "rowval" (.list .size) rowval, .required "nzval" (.list .float) nzval]

def body (fs : List (Member (Payload Float))) (build : Build (Payload Float) fs) :
    Codec (Payload Float) :=
  .record (fun v => slots (fs.map Member.keys) v >>= collect fs build)
    (fun p => .record (entries fs p)) fs

theorem dense_hasMembers : (body denseMembers dense).HasMembers denseMembers dense where
  keys := by decide
  decode := fun _ => rfl
  encode := fun _ => rfl
  floats := fun _ => rfl
  faithful := by simp [denseMembers, Faithful, rebuild, Member.required, rows, cols, values]

theorem csc_hasMembers : (body cscMembers csc).HasMembers cscMembers csc where
  keys := by decide
  decode := fun _ => rfl
  encode := fun _ => rfl
  floats := fun _ => rfl
  faithful := by simp [cscMembers, Faithful, rebuild, Member.required, rows, cols, colptr,
    rowval, nzval]

theorem stable_denseMembers : ∀ f ∈ denseMembers, f.Stable := by
  simp only [denseMembers, List.forall_mem_cons, List.not_mem_nil, false_imp_iff, implies_true,
    and_true]
  exact ⟨.required stable_word, .required stable_word,
    .required (Codec.stable_array Codec.stable_float)⟩

theorem stable_cscMembers : ∀ f ∈ cscMembers, f.Stable := by
  simp only [cscMembers, List.forall_mem_cons, List.not_mem_nil, false_imp_iff, implies_true,
    and_true]
  exact ⟨.required stable_word, .required stable_word,
    .required (Codec.stable_list Codec.stable_size),
    .required (Codec.stable_list Codec.stable_size),
    .required (Codec.stable_list Codec.stable_float)⟩

def codec (level : Nat) : Codec (Payload Float) :=
  ⟨decode level, encode Json.float, fun p => p.values.toList ++ p.nzval⟩

def decodeBody (tag : String) (v : Json) : Option (Payload Float) :=
  if tag = "dense" then (body denseMembers dense).decode v
  else if tag = "csc" then (body cscMembers csc).decode v
  else none

theorem decode_eq (level : Nat) (v : Json) : decode level v =
    (guard (v.storable (127 - level)) : Option Unit) >>= fun _ => tagged v >>=
      fun t => decodeBody t.1 t.2 := by
  refine Option.bind_congr fun _ _ => Option.bind_congr fun ⟨tag, v⟩ _ => ?_
  dsimp only
  split
  case h_1 =>
    rw [decodeBody, if_pos rfl]
    refine Option.bind_congr fun ss hss => ?_
    match ss, length_of_slots hss with
    | [_, _, _], _ => rfl
  case h_2 =>
    rw [decodeBody, if_neg (by decide), if_pos rfl]
    refine Option.bind_congr fun ss hss => ?_
    match ss, length_of_slots hss with
    | [_, _, _, _, _], _ => rfl
  case h_3 hdense hcsc => rw [decodeBody, if_neg hdense, if_neg hcsc]

theorem tagged_dense (r c : UInt64) (x : Array Float) :
    tagged ((dense r c x).encode Json.float) =
      some ("dense", (body denseMembers dense).encode (.dense r c x)) := rfl

theorem tagged_csc (r c : UInt64) (p i : List Nat) (x : List Float) :
    tagged ((csc r c p i x).encode Json.float) =
      some ("csc", (body cscMembers csc).encode (.csc r c p i x)) := rfl

/-! What is written for a matrix can be stored: it nests two deep, and its numbers fit floats. -/

theorem storable_nat {n : Nat} (hn : n < UInt64.size) (depth : Nat) :
    (Json.nat n).storable depth = true := by
  rw [Json.nat, Json.storable]
  exact Numeral.isSome_toFloat?_ofNat hn

theorem storable_float {x : Float} (hx : x.isFinite = true) (depth : Nat) :
    (Json.float x).storable depth = true := by
  rw [Json.float, if_pos hx, Json.storable, Numeral.toFloat?_ofFloat hx]
  rfl

theorem storable_text (s : String) (depth : Nat) : (Json.text s).storable depth = true := by
  rw [Json.text, Json.storable]
  rfl

theorem storable_arr {α : Type} {f : α → Json} {xs : List α} {depth : Nat}
    (h : ∀ a ∈ xs, (f a).storable depth = true) :
    (Json.list f xs).storable (depth + 1) = true := by
  rw [Json.list, Json.storable, List.all_eq_true]
  intro v hv
  obtain ⟨a, ha, rfl⟩ := List.mem_map.mp hv
  exact h a ha

theorem storable_record {fields : List (String × Json)} {depth : Nat}
    (h : ∀ f ∈ fields, f.2.storable depth = true) :
    (Json.record fields).storable (depth + 1) = true := by
  rw [Json.record, Json.storable, List.all_eq_true]
  intro f hf
  obtain ⟨e, he, rfl⟩ := List.mem_map.mp hf
  simpa using h e he

theorem lt_of_read {n : Nat} (h : asSize (.nat n) = some n) : n < UInt64.size :=
  (Codec.asNat_eq_some (.num fun _ => rfl) h).2

theorem storable_sizes {ns : List Nat} (h : Codec.size.list.Keeps ns) {depth : Nat} :
    (Json.list Json.nat ns).storable (depth + 1) = true :=
  storable_arr fun _ hn => storable_nat (lt_of_read (h.reads_mem hn)) depth

theorem proper_of_tagged {v v' : Json} {tag : String} (hv : v.Proper)
    (h : tagged v = some (tag, v')) : v'.Proper := by
  unfold tagged at h
  split at h
  case h_1 fields =>
    split at h
    case h_1 heq =>
      cases h
      rw [List.partition_eq_filter_filter, Prod.mk.injEq] at heq
      obtain ⟨-, rfl⟩ := heq
      exact .obj fun f hf => hv.of_children (List.mem_map_of_mem (List.mem_of_mem_filter hf))
    case h_2 => cases h
  case h_2 rest =>
    cases h
    exact .arr fun u hu => hv.of_children (List.mem_cons_of_mem _ hu)
  case h_3 => cases h

/-- A matrix is kept if its fields are, beside the format. -/
theorem keeps_of_body {level : Nat} {fs : List (Member (Payload Float))}
    {build : Build (Payload Float) fs} {tag : String} {p : Payload Float}
    (hp : (body fs build).Keeps p)
    (hencode : p.encode Json.float = .record (("format", .text tag) :: entries fs p))
    (htagged : tagged (p.encode Json.float) = some (tag, (body fs build).encode p))
    (hdecode : decodeBody tag = (body fs build).decode)
    (hstorable : (p.encode Json.float).storable (127 - level) = true)
    (hfinite : ∀ x ∈ (codec level).floats p, x.isFinite = true) : (codec level).Keeps p where
  reads := by
    change decode level (p.encode Json.float) = some p
    rw [decode_eq, hstorable, htagged]
    exact (congrFun hdecode _).trans hp.reads
  proper := by
    change (p.encode Json.float).Proper
    rw [hencode]
    refine .obj fun f hf => ?_
    obtain rfl | hf := List.mem_cons.mp hf
    · exact .str _
    · exact hp.proper.of_children (List.mem_map_of_mem hf)
  finite := hfinite

theorem keeps_dense {level : Nat} (hlevel : level ≤ 1) {v : Json} (hv : v.Proper)
    {p : Payload Float} (h : (body denseMembers dense).decode v = some p) :
    (codec level).Keeps p := by
  obtain ⟨hbuilt, hkept⟩ := dense_hasMembers.of_read stable_denseMembers hv h
  have hbody := dense_hasMembers.keeps hbuilt hkept
  cases p with
  | csc => cases hbuilt
  | dense r c x =>
    simp only [denseMembers, List.forall_mem_cons] at hkept
    have hfinite : ∀ y ∈ x.toList, y.isFinite = true :=
      Codec.isFinite_of_keeps (Codec.Keeps.toList hkept.2.2.1)
    refine keeps_of_body hbody rfl (tagged_dense r c x) rfl ?_
      (by simpa [codec, values, nzval] using hfinite)
    have hdepth : 127 - level = 125 - level + 1 + 1 := by omega
    rw [hdepth]
    refine storable_record ?_
    simp only [List.forall_mem_cons, List.not_mem_nil, false_imp_iff, implies_true, and_true]
    exact ⟨storable_text _ _, storable_nat r.toNat_lt _, storable_nat c.toNat_lt _,
      storable_arr fun y hy => storable_float (hfinite y hy) _⟩

theorem keeps_csc {level : Nat} (hlevel : level ≤ 1) {v : Json} (hv : v.Proper) {p : Payload Float}
    (h : (body cscMembers csc).decode v = some p) : (codec level).Keeps p := by
  obtain ⟨hbuilt, hkept⟩ := csc_hasMembers.of_read stable_cscMembers hv h
  have hbody := csc_hasMembers.keeps hbuilt hkept
  cases p with
  | dense => cases hbuilt
  | csc r c p i x =>
    simp only [cscMembers, List.forall_mem_cons] at hkept
    obtain ⟨-, -, hcolptr, hrowval, hnzval, -⟩ := hkept
    have hfinite : ∀ y ∈ x, y.isFinite = true := Codec.isFinite_of_keeps hnzval
    refine keeps_of_body hbody rfl (tagged_csc r c p i x) rfl ?_
      (by simpa [codec, values, nzval] using hfinite)
    have hdepth : 127 - level = 125 - level + 1 + 1 := by omega
    rw [hdepth]
    refine storable_record ?_
    simp only [List.forall_mem_cons, List.not_mem_nil, false_imp_iff, implies_true, and_true]
    exact ⟨storable_text _ _, storable_nat r.toNat_lt _, storable_nat c.toNat_lt _,
      storable_sizes hcolptr, storable_sizes hrowval,
      storable_arr fun y hy => storable_float (hfinite y hy) _⟩

theorem stable {level : Nat} (hlevel : level ≤ 1) : (codec level).Stable := by
  intro v p hv h
  change decode level v = some p at h
  rw [decode_eq] at h
  obtain ⟨_, -, h⟩ := Option.bind_eq_some_iff.mp h
  obtain ⟨⟨tag, v'⟩, htag, h⟩ := Option.bind_eq_some_iff.mp h
  have hv' := proper_of_tagged hv htag
  dsimp only [decodeBody] at h
  split_ifs at h
  · exact keeps_dense hlevel hv' h
  · exact keeps_csc hlevel hv' h

end Payload

/-! Problems. -/

namespace Document

def members : List (Member (Document Float)) :=
  let matrix := (Payload.codec 1).option
  let bounds := Codec.float.option.list.option
  let closed := Codec.float.list.option
  let vector := Codec.float.array.option
  [.aliased ["Q"] (.required "hessian" (Payload.codec 1) hessian),
   .aliased ["g"] (.required "gradient" (.array .float) gradient),
   .aliased ["L", "S1"] (.orElse "left" none matrix left),
   .aliased ["R", "S2"] (.orElse "right" none matrix right),
   .aliased ["A"] (.orElse "constraints" none matrix general),
   .aliased ["lbA"] (.orElse "lb_a" none bounds lbA),
   .aliased ["ubA"] (.orElse "ub_a" none bounds ubA), .orElse "lb" none bounds lb,
   .orElse "ub" none bounds ub, .aliased ["lbL"] (.orElse "lb_left" none closed lbL),
   .aliased ["ubL"] (.orElse "ub_left" none bounds ubL),
   .aliased ["lbR"] (.orElse "lb_right" none closed lbR),
   .aliased ["ubR"] (.orElse "ub_right" none bounds ubR), .orElse "x0" none vector x0,
   .orElse "y0" none vector y0]

def codec : Codec (Document Float) := .record decode (encode Json.float) members

theorem hasMembers : codec.HasMembers members mk where
  keys := by decide
  decode := fun v => Option.bind_congr fun ss hss => by
    match ss, length_of_slots hss with
    | [_, _, _, _, _, _, _, _, _, _, _, _, _, _, _], _ => rfl
  encode := fun _ => rfl
  floats := fun _ => rfl
  faithful := by simp [members, Faithful, rebuild, Member.required, Member.orElse, Member.aliased]

theorem stable_option {α : Type} {name : String} {c : Codec α} {get : Document Float → Option α}
    (hnull : c.decode .null = none) (hc : c.Stable) :
    (Member.orElse name none c.option get).Stable :=
  .orElse (Codec.stable_option hnull hc) (Codec.keeps_none c)

theorem stable : codec.Stable := hasMembers.stable <| by
  have hpayload := Payload.stable le_rfl
  have hlist := Codec.stable_list Codec.stable_float
  have harray := Codec.stable_array Codec.stable_float
  have hbounds := Codec.stable_list (Codec.stable_option rfl Codec.stable_float)
  simp only [members, List.forall_mem_cons, List.not_mem_nil, false_imp_iff, implies_true, and_true]
  exact ⟨.aliased (.required hpayload), .aliased (.required harray),
    .aliased (stable_option rfl hpayload), .aliased (stable_option rfl hpayload),
    .aliased (stable_option rfl hpayload), .aliased (stable_option rfl hbounds),
    .aliased (stable_option rfl hbounds), stable_option rfl hbounds, stable_option rfl hbounds,
    .aliased (stable_option rfl hlist), .aliased (stable_option rfl hbounds),
    .aliased (stable_option rfl hlist), .aliased (stable_option rfl hbounds),
    stable_option rfl harray, stable_option rfl harray⟩

/-- Only the Hessian and the gradient must be given. -/
theorem read_absent : ∀ f ∈ members.drop 2, f.read .absent = f.codec.decode .null := by
  simp only [members, List.drop_succ_cons, List.drop_zero, List.forall_mem_cons, List.not_mem_nil,
    false_imp_iff, implies_true, and_true]
  exact ⟨rfl, rfl, rfl, rfl, rfl, rfl, rfl, rfl, rfl, rfl, rfl, rfl, rfl⟩

theorem read_cut : ∀ f ∈ members.drop 2, f.read .cut = f.read .absent := by
  simp only [members, List.drop_succ_cons, List.drop_zero, List.forall_mem_cons, List.not_mem_nil,
    false_imp_iff, implies_true, and_true]
  exact ⟨rfl, rfl, rfl, rfl, rfl, rfl, rfl, rfl, rfl, rfl, rfl, rfl, rfl⟩

end Document

end ComplementarityQP
