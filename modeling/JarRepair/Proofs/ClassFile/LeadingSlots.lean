import JarRepair.Proofs.ClassFile.Repaired

/-! # Which slots realigning drops

A channel with a slot for every parameter of its constructor loses the slots of the leading
parameters, each channel for itself; a channel of any other length is right and stays. All that can
stop a class from being realigned is a constructor whose descriptor cannot be split. -/

namespace JarRepair.ClassFile

open JarRepair.Outcome
open JarRepair.Task

/-! ## Channels -/

namespace ParameterChannel

variable {p p' : ParameterChannel} {n k : Nat}

def slots (p : ParameterChannel) : Nat := p.sets.elim 0 List.length

/-- What becomes of a channel of a constructor with `n` parameters, the first `k` of which were
added. -/
structure Cut (n k : Nat) (p p' : ParameterChannel) : Prop where
  full : ∀ sets, p.sets = some sets → sets.length = n →
    ∃ lost kept, sets = lost ++ kept ∧ lost.length = k ∧ p'.sets = some kept
  other : (∀ sets, p.sets = some sets → sets.length ≠ n) → p' = p
  count : ∀ sets, p'.sets = some sets → p'.count = sets.length

theorem cut_realign {pool : Pool} (hp : p.WellFormed pool) (hk : k ≤ n) :
    p.Cut n k (p.realign n k) := by
  refine ⟨fun sets hsets hn => ⟨sets.take k, sets.drop k, (sets.take_append_drop k).symm, ?_, ?_⟩,
    fun hother => ?_, fun sets hsets => ?_⟩
  · rw [List.length_take, hn, Nat.min_eq_left hk]
  · simp only [realign, hsets, hn, if_true]
  · rcases Method.parameters_realign hp n k with hsame | ⟨sets, hn, rfl, -⟩
    · exact hsame
    · exact absurd hn (hother sets rfl)
  · rw [(hp.realign n k).count_eq, hsets, Option.getD_some]

/-- A channel that changes has become shorter. -/
theorem realign_ne_iff {pool : Pool} (hp : p.WellFormed pool) (hk : 0 < k) (hkn : k ≤ n) :
    p.realign n k ≠ p ↔ (p.realign n k).slots < p.slots := by
  rcases Method.parameters_realign hp n k with hsame | ⟨sets, rfl, rfl, hnew⟩
  · rw [hsame]
    exact iff_of_false (fun h => h rfl) (Nat.lt_irrefl _)
  · have hshorter : (sets.drop k).length < sets.length := by
      rw [List.length_drop]
      omega
    rw [hnew]
    refine iff_of_true (fun h => ?_) hshorter
    exact Nat.ne_of_lt hshorter (congrArg slots h)

end ParameterChannel

/-! ## Methods -/

namespace Method

variable {m m' : Method} {leading : List Bytes}

/-- A constructor with these parameters, which start with the leading ones. -/
def Leads (leading parameters : List Bytes) (m : Method) : Prop :=
  m.isConstructor = true ∧ leading <+: parameters ∧
    ∃ result, Descriptor.parse m.descriptor = .ok { parameters, result }

/-- What becomes of a method: the channels of a constructor that starts with the leading parameters
are cut, and nothing else changes. -/
structure Cut (leading : List Bytes) (m m' : Method) : Prop where
  rest : m' = { m with
    visibleParameters := m'.visibleParameters
    invisibleParameters := m'.invisibleParameters }
  channel : ∀ parameters, m.Leads leading parameters →
    ∀ v, (m.parameters v).Cut parameters.length leading.length (m'.parameters v)
  other : (∀ parameters, ¬ m.Leads leading parameters) → m' = m

/-- Whether a channel of a constructor has fewer slots than it had. -/
def isShortened (m m' : Method) : Bool :=
  m.isConstructor && (m'.visibleParameters.slots < m.visibleParameters.slots ||
    m'.invisibleParameters.slots < m.invisibleParameters.slots)

/-- A method cannot be realigned only because it is a constructor whose descriptor cannot be
split. -/
theorem realign_eq_error_iff {fault : Fault} : m.realign leading = .error fault ↔
    m.isConstructor = true ∧ ∃ f, Descriptor.parse m.descriptor = .error f ∧
      Fault.descriptor m.descriptor f = fault := by
  rw [realign]
  cases hctor : m.isConstructor with
  | false => simp [pure, Except.pure]
  | true =>
    cases hparse : Descriptor.parse m.descriptor with
    | error f => simp [Except.mapError, bind, Except.bind]
    | ok d =>
      simp only [Except.mapError, bind, Except.bind, if_true]
      split <;> simp [pure, Except.pure]

theorem exists_parse_of_realign (h : m.realign leading = .ok m') (hctor : m.isConstructor = true) :
    ∃ d, Descriptor.parse m.descriptor = .ok d := by
  rcases realign_eq_ok_iff.mp h with ⟨hno, -⟩ | ⟨-, d, hd, -⟩
  · rw [hctor] at hno
    exact nomatch hno
  · exact ⟨d, hd⟩

/-- A method that was realigned is no constructor with the leading parameters, or both channels of
it are realigned. -/
theorem leads_or_of_realign (h : m.realign leading = .ok m') :
    ((∀ parameters, ¬ m.Leads leading parameters) ∧ m' = m) ∨
      ∃ parameters, m.Leads leading parameters ∧ m' = { m with
        visibleParameters := m.visibleParameters.realign parameters.length leading.length
        invisibleParameters :=
          m.invisibleParameters.realign parameters.length leading.length } := by
  rcases realign_eq_ok_iff.mp h with ⟨hno, rfl⟩ | ⟨hctor, d, hd, rfl⟩
  · refine .inl ⟨fun parameters hleads => ?_, rfl⟩
    exact Bool.false_ne_true (hno.symm.trans hleads.1)
  · by_cases hstart : Descriptor.startsWith d.parameters leading
    · exact .inr ⟨d.parameters, ⟨hctor, List.isPrefixOf_iff_prefix.mp hstart, d.result, hd⟩,
        if_pos hstart⟩
    · refine .inl ⟨?_, if_neg hstart⟩
      rintro parameters ⟨-, hprefix, result, hparse⟩
      obtain rfl := Except.ok.inj (hd.symm.trans hparse)
      exact hstart (List.isPrefixOf_iff_prefix.mpr hprefix)

theorem Leads.unique {parameters parameters' : List Bytes} (h : m.Leads leading parameters)
    (h' : m.Leads leading parameters') : parameters = parameters' := by
  obtain ⟨-, -, result, hparse⟩ := h
  obtain ⟨-, -, result', hparse'⟩ := h'
  exact congrArg Descriptor.parameters (Except.ok.inj (hparse.symm.trans hparse'))

theorem WellFormed.cut {pool : Pool} (hm : m.WellFormed pool) (h : m.realign leading = .ok m') :
    m.Cut leading m' := by
  rcases leads_or_of_realign h with ⟨hno, rfl⟩ | ⟨parameters, hleads, rfl⟩
  · exact ⟨rfl, fun parameters hleads => absurd hleads (hno parameters), fun _ => rfl⟩
  · refine ⟨rfl, fun parameters' hleads' v => ?_, fun hno => absurd hleads (hno parameters)⟩
    obtain rfl := hleads.unique hleads'
    cases v with
    | visible =>
      exact ParameterChannel.cut_realign (hm.good (.parameter .visible)) hleads.2.1.length_le
    | invisible =>
      exact ParameterChannel.cut_realign (hm.good (.parameter .invisible)) hleads.2.1.length_le

/-- A method that changes has a channel that has become shorter. -/
theorem WellFormed.ne_iff_isShortened {pool : Pool} (hm : m.WellFormed pool)
    (hleading : 0 < leading.length) (h : m.realign leading = .ok m') :
    m' ≠ m ↔ m.isShortened m' = true := by
  rcases leads_or_of_realign h with ⟨-, rfl⟩ | ⟨parameters, ⟨hctor, hprefix, -⟩, rfl⟩
  · simp [isShortened]
  · have hchanged (p : ParameterChannel) (hp : p.WellFormed pool) :=
      ParameterChannel.realign_ne_iff hp hleading hprefix.length_le
    simp only [isShortened, hctor, Bool.true_and, Bool.or_eq_true, decide_eq_true_eq]
    rw [← hchanged m.visibleParameters (hm.good (.parameter .visible)),
      ← hchanged m.invisibleParameters (hm.good (.parameter .invisible)), ← not_and_or]
    refine not_congr ⟨fun heq => ?_, fun heq => ?_⟩
    · exact ⟨congrArg visibleParameters heq, congrArg invisibleParameters heq⟩
    · rw [show m.visibleParameters.realign _ _ = _ from heq.1,
        show m.invisibleParameters.realign _ _ = _ from heq.2]

end Method

/-! ## Classes -/

/-- The methods that count are those that have changed. -/
theorem Realigned.length_changed {leading : List Bytes} {ms ms' : List Method}
    (h : List.Forall₂ (fun m m' => m.realign leading = .ok m') ms ms') {r : Realigned}
    (hr : r.fault = none) :
    (ms.foldl (Realigned.step leading) r).changed.length =
      r.changed.length + (ms.zip ms').countP fun x => x.2 ≠ x.1 := by
  induction h generalizing r with
  | nil => rfl
  | @cons m m' ms ms' hm _ ih =>
    have hstep : r.step leading m = { r with
        methods := m' :: r.methods
        changed := if m' = m then r.changed else m :: r.changed } := by
      rw [Realigned.step, hr]
      simp only [hm]
    rw [List.foldl_cons, hstep, ih (by exact hr), List.zip_cons_cons, List.countP_cons]
    by_cases hsame : m' = m
    · simp [hsame]
    · simp [hsame]
      omega

/-- The methods that realigning changes are those with a channel that has become shorter. -/
theorem WellFormed.length_changed {c : ClassFile} (hc : c.WellFormed) {leading : List Bytes}
    (hleading : c.leadingParameters = some leading) {ms : List Method}
    (hms : c.methods.mapM (Method.realign leading) = .ok ms) :
    (realignMethods leading c.methods).changed.length =
      (c.methods.zip ms).countP fun x => x.1.isShortened x.2 := by
  have hall := mapM_eq_ok_iff.mp hms
  have hwell := (List.forall₂_and_left _ _).mpr ⟨hc.methods, hall⟩
  have hpos : 0 < leading.length := by
    rcases length_leadingParameters hleading with h | h <;> omega
  rw [realignMethods, Realigned.length_changed hall rfl, List.length_nil, Nat.zero_add]
  refine List.countP_congr fun x hx => ?_
  have hx' := (List.forall₂_iff_zip.mp hwell).2 hx
  rw [decide_eq_true_iff]
  exact hx'.1.ne_iff_isShortened hpos hx'.2

/-- Realigning a class fails if and only if a constructor's descriptor cannot be split. If it
succeeds, every method is cut as it should be, the methods with a channel that has become shorter
are counted, and realigning again changes nothing. -/
theorem realign_exact {data : Bytes} {c : ClassFile} (h : decode data = .ok c) :
    realign.Ensures c
      (fun n c' =>
        match c.leadingParameters with
        | none => n = 0 ∧ c' = c
        | some leading =>
          (∀ m ∈ c.methods, m.isConstructor = true → ∃ d, Descriptor.parse m.descriptor = .ok d) ∧
          (∃ ms, c' = { c with methods := ms } ∧ List.Forall₂ (Method.Cut leading) c.methods ms ∧
            n = (c.methods.zip ms).countP fun x => x.1.isShortened x.2) ∧
          realign.Ensures c' (fun n' c'' => n' = 0 ∧ c'' = c') fun _ _ => False)
      (fun _ _ => c.leadingParameters ≠ none ∧
        ∃ m ∈ c.methods, m.isConstructor = true ∧
          ∃ f, Descriptor.parse m.descriptor = .error f) := by
  have hc : c.WellFormed := (decode_eq_ok_iff.mp h).1
  refine ensures_realign (fun hnone => ?_) (fun leading ms hleading hms => ?_) ?_
  · rw [hnone]
    exact ⟨rfl, rfl⟩
  · have hall := mapM_eq_ok_iff.mp hms
    have hwell := (List.forall₂_and_left _ _).mpr ⟨hc.methods, hall⟩
    rw [hleading]
    refine ⟨?_, ⟨ms, rfl, hwell.imp fun m m' h => h.1.cut h.2, hc.length_changed hleading hms⟩, ?_⟩
    · intro m hm hctor
      obtain ⟨k, hk⟩ := List.getElem?_of_mem hm
      obtain ⟨m', -, hm'⟩ := exists_of_forall₂ hall hk
      exact Method.exists_parse_of_realign hm' hctor
    · refine Aligned.ensures_realign (fun leading' hleading' m' hm' => ?_) ⟨rfl, rfl⟩
      obtain rfl := Option.some.inj (hleading.symm.trans hleading')
      exact forall_of_forall₂ hall (fun _ _ => trivial)
        (fun _ _ hm _ => Method.realign_self hm) m' hm'
  · intro leading ms hleading _ m hm fault herror
    obtain ⟨hctor, f, hf, -⟩ := Method.realign_eq_error_iff.mp herror
    exact ⟨by simp [hleading], m, hm, hctor, f, hf⟩

namespace Sample

/-- A constructor with a visible slot for each parameter and an invisible one for the last. -/
def constructor : Method where
  access := 2
  nameIndex := 3
  descriptorIndex := 4
  name := "<init>"
  descriptor := "(Ljava/lang/String;IZ)V"
  attributes := [.channel 5 (.parameter .visible), .channel 6 (.parameter .invisible)]
  visibleParameters :=
    { sets := some [[], [], [{ type := "LF;", raw := [0, 7, 0, 0] }]], count := 3 }
  invisibleParameters := { sets := some [[]], count := 1 }

def enum : ClassFile where
  major := 52
  pool := ⟨#[.unusable, Pool.textSlot "A", .entry Tag.classRef [0, 1], Pool.textSlot "<init>",
    Pool.textSlot "(Ljava/lang/String;IZ)V", Pool.textSlot "RuntimeVisibleParameterAnnotations",
    Pool.textSlot "RuntimeInvisibleParameterAnnotations", Pool.textSlot "LF;"]⟩
  access := 0x4031
  thisClass := 2
  name := "A"
  fields := [0, 0]
  methods := [constructor]

def enumBytes : Bytes :=
  Bytes.dword magic ++ [0, 0, 0, 52] ++ enum.pool.encode ++ [64, 49, 0, 2, 0, 0, 0, 0, 0, 0] ++
    [0, 1, 0, 2, 0, 3, 0, 4, 0, 2, 0, 5, 0, 0, 0, 11, 3, 0, 0, 0, 0, 0, 1, 0, 7, 0, 0,
      0, 6, 0, 0, 0, 3, 1, 0, 0] ++ [0, 0]

theorem decode_enumBytes : decode enumBytes = .ok enum := by decide +kernel

end Sample

/-- The visible channel loses the slots of the name and the ordinal, the invisible one stays. -/
theorem realign_exact_enum : decode Sample.enumBytes = .ok Sample.enum ∧
    realign.Ensures Sample.enum
      (fun n c' => n = 1 ∧ c' = { Sample.enum with methods := [{ Sample.constructor with
        visibleParameters :=
          { sets := some [[{ type := "LF;", raw := [0, 7, 0, 0] }]], count := 1 } }] })
      fun _ _ => False := by
  refine ⟨Sample.decode_enumBytes, (realign_exact Sample.decode_enumBytes).mono ?_ ?_⟩
  · rintro n c' ⟨-, ⟨ms, rfl, hall, rfl⟩, -⟩
    obtain ⟨m, _, hcut, hnil, rfl⟩ := List.forall₂_cons_left_iff.mp hall
    obtain rfl := List.forall₂_nil_left_iff.mp hnil
    have hleads : Sample.constructor.Leads [objectType "java/lang/String", "I"]
        ["Ljava/lang/String;", "I", "Z"] := ⟨rfl, ⟨["Z"], rfl⟩, "V", rfl⟩
    obtain ⟨lost, kept, hsplit, hlength, hkept⟩ := (hcut.channel _ hleads .visible).full _ rfl rfl
    obtain rfl : kept = [[{ type := "LF;", raw := [0, 7, 0, 0] }]] := by
      have hdrop : (lost ++ kept).drop lost.length = kept := List.drop_left
      rw [← hdrop, ← hsplit, hlength]
      rfl
    have hcount := (hcut.channel _ hleads .visible).count _ hkept
    have hvisible : m.visibleParameters =
        { sets := some [[{ type := "LF;", raw := [0, 7, 0, 0] }]], count := 1 } := by
      show ParameterChannel.mk (m.parameters .visible).sets (m.parameters .visible).count = _
      rw [hkept, hcount]
      rfl
    have hinvisible : m.invisibleParameters = Sample.constructor.invisibleParameters :=
      (hcut.channel _ hleads .invisible).other (by decide)
    have hm := hcut.rest
    rw [hvisible, hinvisible] at hm
    subst hm
    exact ⟨rfl, rfl⟩
  · rintro _ _ ⟨-, m, hm, -, f, hf⟩
    obtain rfl := List.mem_singleton.mp hm
    exact nomatch hf

end JarRepair.ClassFile
