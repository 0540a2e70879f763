import ComplementarityQP.Proofs.FloatOrder
import ComplementarityQP.Proofs.Options
import ComplementarityQP.Proofs.Texts

/-! Valid options as documents. Main statement: valid options read back from the text that is
written for them exactly if the factor of the stagnation test, which is checked only where the test
is on, and the growth of the shift are finite. -/
namespace ComplementarityQP
open Json

/-- Where something is read from what is written for a record, every field is read. -/
theorem Json.Codec.HasMembers.reads_written {ρ : Type} {fs : List (Member ρ)} {build : Build ρ fs}
    {c : Codec ρ} (h : c.HasMembers fs build) {r r' : ρ} (hread : c.decode (c.encode r) = some r')
    {f : Member ρ} (hf : f ∈ fs) :
    f.Reads r' (.given (f.value r)) := by
  rw [h.encode, h.decode, slots_entries h.keys] at hread
  have hall := (reads_of_collect (by simpa using hread) h.faithful).1
  exact List.forall₂_same.mp (List.forall₂_map_right_iff.mp hall) f hf

theorem Json.Codec.HasMembers.proper {ρ : Type} {fs : List (Member ρ)} {build : Build ρ fs}
    {c : Codec ρ} (h : c.HasMembers fs build) {r : ρ} (hr : ∀ f ∈ fs, (f.value r).Proper) :
    (c.encode r).Proper := by
  rw [h.encode]
  refine .obj fun e he => ?_
  obtain ⟨e', he', rfl⟩ := List.mem_map.mp he
  obtain ⟨f, hf, rfl⟩ := List.mem_map.mp he'
  exact hr f hf

theorem Json.asFloat_float_of_not_finite {x : Float} (hx : x.isFinite = false) :
    asFloat (Json.float x) = none := by
  simp [Json.float, hx, asFloat]

namespace Options

structure Fits {K : Type} (o : Options K) : Prop where
  maxOuter : o.maxOuter < UInt64.size
  maxInner : o.maxInner < UInt64.size
  window : o.window < UInt64.size
  shiftAttempts : o.shiftAttempts < UInt64.size
  qpMaxIterations : o.qpMaxIterations < UInt32.size

theorem eta_mem : Member.orElse "dynamic_penalty_eta" default.eta .float eta ∈ members :=
  List.mem_iff_getElem.mpr ⟨9, by decide, rfl⟩

theorem shiftGrowth_mem :
    Member.orElse "regularization_growth" default.shiftGrowth .float shiftGrowth ∈ members :=
  List.mem_iff_getElem.mpr ⟨14, by decide, rfl⟩

variable {o : Options Float}

theorem Valid.eta_finite (h : o.Valid) (hwindow : o.window ≠ 0) : o.eta.isFinite = true := by
  obtain ⟨hlow, hhigh⟩ := h.eta.resolve_left hwindow
  exact Decimal.isFinite_of_between hlow hhigh

theorem Valid.keeps_timeLimit (h : o.Valid) : Codec.float.option.Keeps o.timeLimit := by
  cases hlimit : o.timeLimit with
  | none => exact Codec.keeps_none _
  | some limit => exact Codec.keeps_some rfl (Codec.keeps_float (h.timeLimit limit hlimit).2)

/-- What the checks leave can be read back, with a finite factor of the stagnation test and a finite
growth of the shift. -/
theorem Valid.keeps (h : o.Valid) (hfits : o.Fits) :
    ∀ f ∈ members, (f.name = "dynamic_penalty_eta" → o.eta.isFinite = true) →
      (f.name = "regularization_growth" → o.shiftGrowth.isFinite = true) →
        f.codec.Keeps (f.get o) := by
  have hmethod : QpMethod.codec.Keeps o.method :=
    QpMethod.stable o.method.encode _ (.str _) (by cases o.method <;> rfl)
  have hverbosity : Verbosity.codec.Keeps o.verbosity :=
    Verbosity.stable o.verbosity.encode _ (.str _) (by cases o.verbosity <;> rfl)
  simp only [members, List.forall_mem_cons, List.not_mem_nil, false_imp_iff, implies_true, and_true]
  exact ⟨fun _ _ => Codec.keeps_float h.stationarityTol.2,
    fun _ _ => Codec.keeps_float h.complementarityTol.2,
    fun _ _ => Codec.keeps_float h.initialPenalty.2,
    fun _ _ => Codec.keeps_float h.penaltyGrowth.2,
    fun _ _ => Codec.keeps_float h.maxPenalty.2,
    fun _ _ => Codec.keeps_nat hfits.maxOuter, fun _ _ => Codec.keeps_nat hfits.maxInner,
    fun _ _ => Codec.keeps_bool _, fun _ _ => Codec.keeps_nat hfits.window,
    fun heta _ => Codec.keeps_float (heta rfl), fun _ _ => Codec.keeps_bool _,
    fun _ _ => Codec.keeps_float h.stepTol.2, fun _ _ => Codec.keeps_float h.meritTol.2,
    fun _ _ => Codec.keeps_float h.shiftInitial.2,
    fun _ hgrowth => Codec.keeps_float (hgrowth rfl),
    fun _ _ => Codec.keeps_nat hfits.shiftAttempts, fun _ _ => hmethod,
    fun _ _ => Codec.keeps_nat hfits.qpMaxIterations, fun _ _ => Codec.keeps_float h.qpTol.2,
    fun _ _ => hverbosity, fun _ _ => h.keeps_timeLimit, fun _ _ => Codec.keeps_bool _⟩

/-- The document that is written is legible, special values included. -/
theorem proper_encode (o : Options Float) : (codec.encode o).Proper := by
  have hfloat (x : Float) : (Json.float x).Proper := by
    by_cases hx : x.isFinite = true
    · exact (Codec.keeps_float hx).proper
    · simp only [Json.float, hx, Bool.false_eq_true, if_false]
      exact .null
  have hlimit : (Json.opt Json.float o.timeLimit).Proper := by
    cases o.timeLimit with
    | none => exact .null
    | some limit => exact hfloat limit
  have hnat (n : Nat) : (Json.nat n).Proper := .num fun _ => rfl
  have hmembers : ∀ f ∈ members, (f.value o).Proper := by
    simp only [members, List.forall_mem_cons, List.not_mem_nil, false_imp_iff, implies_true,
      and_true]
    exact ⟨hfloat _, hfloat _, hfloat _, hfloat _, hfloat _, hnat _, hnat _, .bool _, hnat _,
      hfloat _, .bool _, hfloat _, hfloat _, hfloat _, hfloat _, hnat _, .str _, hnat _, hfloat _,
      .str _, hlimit, .bool _⟩
  exact hasMembers.proper hmembers

theorem ofText_write (o : Options Float) :
    ofText (Kind.options.write o) = ofJson (codec.encode o) := by
  have hparse : Json.parse? (Kind.options.write o) = some (codec.encode o) :=
    parse?_render o.proper_encode
  rw [ofText, hparse]

theorem ofJson_of_keeps (h : codec.Keeps o) (hvalid : o.validate = .ok ()) :
    ofJson (codec.encode o) = .ok o := by
  have hread : decode (codec.encode o) = some o := h.reads
  rw [ofJson, hread]
  exact check_bind_eq_ok.mpr ⟨hvalid, rfl⟩

theorem ofJson_of_unread {f : Member (Options Float)} (hf : f ∈ members)
    (hread : f.read (.given (f.value o)) = none) :
    ofJson (codec.encode o) = .error .malformedText := by
  have hnone : decode (codec.encode o) = none := by
    rw [Option.eq_none_iff_forall_ne_some]
    intro o' ho'
    cases hread.symm.trans (hasMembers.reads_written ho' hf)
  rw [ofJson, hnone]

/-- Valid options have finite floats, but for the factor of a stagnation test that is off, and for
the growth of the shift, which is compared with 1 and, unlike the growth of the penalty, not tested
for infinity. They read back as they are exactly if these two are finite as well. -/
theorem reload_succeeds_iff (hfits : o.Fits) (hvalid : o.validate = .ok ()) :
    (∀ f ∈ members, f.name ≠ "dynamic_penalty_eta" →
      (f.name = "regularization_growth" → o.shiftGrowth.isFinite = true) →
      ∀ x ∈ f.codec.floats (f.get o), x.isFinite = true) ∧
    ((∀ x ∈ codec.floats o, x.isFinite = true) ↔
      (o.window ≠ 0 ∨ o.eta.isFinite = true) ∧ o.shiftGrowth.isFinite = true) ∧
    ((o.window ≠ 0 ∨ o.eta.isFinite = true) → o.shiftGrowth.isFinite = true →
      ofText (Kind.options.write o) = .ok o) ∧
    (o.window = 0 ∧ o.eta.isFinite = false ∨ o.shiftGrowth.isFinite = false →
      ofText (Kind.options.write o) = .error .malformedText) := by
  have h : o.Valid := validate_eq_ok_iff.mp hvalid
  have heta : o.window ≠ 0 ∨ o.eta.isFinite = true → o.eta.isFinite = true :=
    fun hor => hor.elim h.eta_finite id
  have hall (hor : o.window ≠ 0 ∨ o.eta.isFinite = true) (hgrowth : o.shiftGrowth.isFinite = true) :
      codec.Keeps o :=
    hasMembers.keeps rfl fun f hf => h.keeps hfits f hf (fun _ => heta hor) fun _ => hgrowth
  refine ⟨fun f hf hname hgrowth => ?_, ⟨fun hfinite => ⟨.inr ?_, ?_⟩, fun ⟨hor, hgrowth⟩ => ?_⟩,
    fun hor hgrowth => ?_, ?_⟩
  · exact (h.keeps hfits f hf (fun heq => absurd heq hname) hgrowth).finite
  · exact hfinite _ (List.mem_flatMap.mpr ⟨_, eta_mem, List.mem_singleton_self o.eta⟩)
  · exact hfinite _
      (List.mem_flatMap.mpr ⟨_, shiftGrowth_mem, List.mem_singleton_self o.shiftGrowth⟩)
  · exact (hall hor hgrowth).finite
  · rw [ofText_write]
    exact ofJson_of_keeps (hall hor hgrowth) hvalid
  · rw [ofText_write]
    rintro (⟨-, hinfinite⟩ | hinfinite)
    · exact ofJson_of_unread eta_mem (asFloat_float_of_not_finite hinfinite)
    · exact ofJson_of_unread shiftGrowth_mem (asFloat_float_of_not_finite hinfinite)

/-- No stagnation test, a step of minus zero, a large penalty, and a time limit that is no binary
fraction. -/
def sparing : Options Float :=
  { default with
    window := 0, eta := 2.0, stepTol := -0.0, maxPenalty := 1e300, timeLimit := some 0.1 }

theorem valid_sparing : sparing.Valid where
  stationarityTol := by decide +kernel
  complementarityTol := by decide +kernel
  initialPenalty := by decide +kernel
  shiftInitial := by decide +kernel
  qpTol := by decide +kernel
  stepTol := by decide +kernel
  meritTol := by decide +kernel
  penaltyGrowth := by decide +kernel
  maxPenalty := by decide +kernel
  limits := by decide +kernel
  eta := .inl rfl
  shift := by decide +kernel
  qpMaxIterations := by decide +kernel
  timeLimit := by
    rintro _ ⟨⟩
    decide +kernel

theorem fits_sparing : sparing.Fits := ⟨by decide, by decide, by decide, by decide, by decide⟩

theorem reload_succeeds_iff_sparing : sparing.Fits ∧ sparing.validate = .ok () ∧
    sparing.shiftGrowth.isFinite = true ∧
    (∀ x ∈ codec.floats sparing, x.isFinite = true) ∧
      ofText (Kind.options.write sparing) = .ok sparing := by
  have hvalid : sparing.validate = .ok () := validate_eq_ok_iff.mpr valid_sparing
  have hgrowth : sparing.shiftGrowth.isFinite = true := by decide +kernel
  have heta : sparing.eta.isFinite = true := by decide +kernel
  obtain ⟨-, hfloats, hreads, -⟩ := reload_succeeds_iff fits_sparing hvalid
  exact ⟨fits_sparing, hvalid, hgrowth, hfloats.mpr ⟨.inr heta, hgrowth⟩,
    hreads (.inr heta) hgrowth⟩

/-- The stagnation test is off, and its factor infinite. -/
def unwatched : Options Float := { sparing with eta := 1.0 / 0.0 }

/-- The shift grows to infinity at once. -/
def leaping : Options Float := { sparing with shiftGrowth := 1.0 / 0.0 }

/-- Options that pass all checks hold infinite floats, and do not read back. -/
theorem unread_after_validation :
    (unwatched.Fits ∧ unwatched.validate = .ok () ∧ unwatched.eta.isFinite = false ∧
      ofText (Kind.options.write unwatched) = .error .malformedText) ∧
    (leaping.Fits ∧ leaping.validate = .ok () ∧ leaping.shiftGrowth.isFinite = false ∧
      ofText (Kind.options.write leaping) = .error .malformedText) := by
  have heta : unwatched.eta.isFinite = false := by decide +kernel
  have hgrowth : leaping.shiftGrowth.isFinite = false := by decide +kernel
  have hunwatched : unwatched.Valid := { valid_sparing with eta := .inl rfl }
  have hleaping : leaping.Valid := { valid_sparing with shift := by decide +kernel }
  refine ⟨⟨{ fits_sparing with }, validate_eq_ok_iff.mpr hunwatched, heta, ?_⟩,
    { fits_sparing with }, validate_eq_ok_iff.mpr hleaping, hgrowth, ?_⟩
  · rw [ofText_write]
    exact ofJson_of_unread eta_mem (asFloat_float_of_not_finite heta)
  · rw [ofText_write]
    exact ofJson_of_unread shiftGrowth_mem (asFloat_float_of_not_finite hgrowth)

end Options

end ComplementarityQP
