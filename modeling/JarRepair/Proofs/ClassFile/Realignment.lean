import JarRepair.ClassFile.ParameterSlots
import JarRepair.Proofs.ClassFile.Codec
import JarRepair.Proofs.Task

/-! # What realigning does

Realigning a channel twice is realigning it once: a channel that has lost its leading sets is too
short to lose them again. A class is realigned method by method, up to the first descriptor that
cannot be split, and stays well-formed. -/

namespace JarRepair.ClassFile

open JarRepair.Outcome
open JarRepair.Task

/-! ## Channels -/

namespace ParameterChannel

theorem realign_realign (parameters leading : Nat) (p : ParameterChannel) :
    (p.realign parameters leading).realign parameters leading = p.realign parameters leading := by
  obtain ⟨sets, count⟩ := p
  cases sets with
  | none => rfl
  | some sets =>
    simp only [realign]
    by_cases hall : sets.length = parameters
    · rw [if_pos hall]
      split
      · rename_i hagain
        -- No set is dropped, or there is none.
        have hdrop : (sets.drop leading).drop leading = sets.drop leading := by
          rw [List.drop_drop]
          rw [List.length_drop] at hagain
          rcases Nat.eq_zero_or_pos leading with rfl | hpos
          · rfl
          · rw [List.drop_eq_nil_of_le (by omega), List.drop_eq_nil_of_le (by omega)]
        rw [hdrop]
      · rfl
    · rw [if_neg hall, if_neg hall]

@[simp] theorem isSome_sets_realign (parameters leading : Nat) (p : ParameterChannel) :
    (p.realign parameters leading).sets.isSome = p.sets.isSome := by
  obtain ⟨sets, count⟩ := p
  cases sets <;> rfl

theorem WellFormed.realign {pool : Pool} {p : ParameterChannel} (hp : p.WellFormed pool)
    (parameters leading : Nat) : WellFormed pool (p.realign parameters leading) := by
  obtain ⟨sets, count⟩ := p
  cases sets with
  | none => exact hp
  | some sets =>
    refine ⟨rfl, fun set hset => hp.2 set ?_⟩
    split at hset
    · exact List.mem_of_mem_drop hset
    · exact hset

end ParameterChannel

/-! ## Methods -/

namespace Method

variable {leading : List Bytes} {m m' : Method}

/-- A method that is no constructor with the leading parameters stays; the channels of one that is
are realigned. -/
theorem realign_eq_ok_iff : m.realign leading = .ok m' ↔
    (m.isConstructor = false ∧ m' = m) ∨
      (m.isConstructor = true ∧ ∃ d, Descriptor.parse m.descriptor = .ok d ∧
        m' = if Descriptor.startsWith d.parameters leading then
          { m with
            visibleParameters := m.visibleParameters.realign d.parameters.length leading.length
            invisibleParameters :=
              m.invisibleParameters.realign d.parameters.length leading.length }
          else m) := by
  rw [realign]
  cases hctor : m.isConstructor with
  | false => simp [pure_eq_ok_iff]
  | true =>
    simp only [if_true, bind_eq_ok_iff, mapError_eq_ok_iff, Bool.true_eq_false, false_and, true_and,
      false_or]
    refine exists_congr fun d => and_congr_right fun _ => ?_
    by_cases hstart : Descriptor.startsWith d.parameters leading <;> simp [hstart, pure_eq_ok_iff]

/-- Realigning again changes nothing, also if other parts of the method have changed. -/
theorem realign_again {m₁ : Method} (h : m.realign leading = .ok m₁) (hname : m'.name = m.name)
    (hdescriptor : m'.descriptor = m.descriptor)
    (hparameters : ∀ v, m'.parameters v = m₁.parameters v) :
    m'.realign leading = .ok m' := by
  have hctor : m'.isConstructor = m.isConstructor := by rw [isConstructor, hname, isConstructor]
  have hvisible : m'.visibleParameters = m₁.visibleParameters := hparameters .visible
  have hinvisible : m'.invisibleParameters = m₁.invisibleParameters := hparameters .invisible
  rw [realign_eq_ok_iff]
  rcases realign_eq_ok_iff.mp h with ⟨hno, -⟩ | ⟨hyes, d, hd, rfl⟩
  · exact .inl ⟨hctor.trans hno, rfl⟩
  · refine .inr ⟨hctor.trans hyes, d, hdescriptor ▸ hd, ?_⟩
    by_cases hstart : Descriptor.startsWith d.parameters leading
    · simp only [hstart, if_true] at hvisible hinvisible ⊢
      rw [hvisible, hinvisible, ParameterChannel.realign_realign, ParameterChannel.realign_realign,
        ← hvisible, ← hinvisible]
    · rw [if_neg hstart]

theorem realign_self (h : m.realign leading = .ok m') : m'.realign leading = .ok m' := by
  refine realign_again h ?_ ?_ fun _ => rfl
  all_goals
    rcases realign_eq_ok_iff.mp h with ⟨-, rfl⟩ | ⟨-, d, -, rfl⟩
    · rfl
    · split <;> rfl

theorem WellFormed.realign {pool : Pool} (hm : m.WellFormed pool) (h : m.realign leading = .ok m') :
    m'.WellFormed pool := by
  rcases realign_eq_ok_iff.mp h with ⟨-, rfl⟩ | ⟨-, d, -, rfl⟩
  · exact hm
  · split
    · refine { hm with has_iff := fun c => ?_, good := fun c => ?_ }
      · rw [← hm.has_iff c]
        rcases c with v | v <;> cases v <;> simp [has, declared, parameters]
      · rcases c with v | v
        · exact hm.good (.declaration v)
        · cases v with
          | visible => exact (hm.good (.parameter .visible)).realign _ _
          | invisible => exact (hm.good (.parameter .invisible)).realign _ _
    · exact hm

end Method

/-! ## Classes -/

variable {leading : List Bytes}

/-- A fold leaves each method as it is or realigned. Without a fault all are realigned; a fault is
that of a method or was there before. -/
theorem Realigned.exists_foldl_step (leading : List Bytes) (ms : List Method) (r : Realigned) :
    ∃ ms', (ms.foldl (Realigned.step leading) r).methods = ms'.reverse ++ r.methods ∧
      List.Forall₂ (fun m m' => m' = m ∨ m.realign leading = .ok m') ms ms' ∧
      match (ms.foldl (Realigned.step leading) r).fault with
      | none => r.fault = none ∧ List.Forall₂ (fun m m' => m.realign leading = .ok m') ms ms'
      | some fault => r.fault = some fault ∨ ∃ m ∈ ms, m.realign leading = .error fault := by
  induction ms generalizing r with
  | nil =>
    refine ⟨[], rfl, .nil, ?_⟩
    rw [List.foldl_nil]
    split
    · exact ⟨‹_›, .nil⟩
    · exact .inl ‹_›
  | cons m ms ih =>
    obtain ⟨ms', hmethods, hall, hfault⟩ := ih (r.step leading m)
    rw [List.foldl_cons]
    have hstep : ∃ m', (r.step leading m).methods = m' :: r.methods ∧
        (m' = m ∨ m.realign leading = .ok m') ∧
        match (r.step leading m).fault with
        | none => r.fault = none ∧ m.realign leading = .ok m'
        | some fault => r.fault = some fault ∨ m.realign leading = .error fault := by
      rw [Realigned.step]
      cases hr : r.fault with
      | some fault => exact ⟨m, rfl, .inl rfl, by simp⟩
      | none =>
        cases hm : m.realign leading with
        | error fault => exact ⟨m, rfl, .inl rfl, .inr rfl⟩
        | ok m' => exact ⟨m', rfl, .inr rfl, by simp⟩
    obtain ⟨m', hm', hor, hfirst⟩ := hstep
    refine ⟨m' :: ms', ?_, .cons hor hall, ?_⟩
    · rw [hmethods, hm', List.reverse_cons, List.append_assoc, List.singleton_append]
    · split at hfault
      · obtain ⟨hnone, hrest⟩ := hfault
        rw [hnone] at hfirst
        exact ⟨hfirst.1, .cons hfirst.2 hrest⟩
      · rcases hfault with hsome | ⟨x, hx, herror⟩
        · rw [hsome] at hfirst
          exact hfirst.imp_right fun h => ⟨m, List.mem_cons_self, h⟩
        · exact .inr ⟨x, List.mem_cons_of_mem m hx, herror⟩

theorem Realigned.foldl_step_of_forall {ms : List Method} (h : ∀ m ∈ ms, m.realign leading = .ok m)
    {r : Realigned} (hr : r.fault = none) :
    ms.foldl (Realigned.step leading) r = { r with methods := ms.reverse ++ r.methods } := by
  induction ms generalizing r with
  | nil => rfl
  | cons m ms ih =>
    have hstep : r.step leading m = { r with methods := m :: r.methods } := by
      rw [Realigned.step, hr]
      simp only [h m List.mem_cons_self, if_true]
    rw [List.foldl_cons, hstep, ih (fun m hm => h m (List.mem_cons_of_mem _ hm)) (by exact hr),
      List.reverse_cons, List.append_assoc, List.singleton_append]

/-- A class whose methods are all aligned. -/
def Aligned (c : ClassFile) : Prop :=
  ∀ leading, c.leadingParameters = some leading → ∀ m ∈ c.methods, m.realign leading = .ok m

/-- Realigning ends with all methods realigned, or with the fault of a method after some are. -/
theorem ensures_realign {c : ClassFile} {Q : Nat → ClassFile → Prop} {E : Error → ClassFile → Prop}
    (hnone : c.leadingParameters = none → Q 0 c)
    (hok : ∀ leading ms, c.leadingParameters = some leading →
      c.methods.mapM (Method.realign leading) = .ok ms →
        Q (realignMethods leading c.methods).changed.length { c with methods := ms })
    (herror : ∀ leading ms, c.leadingParameters = some leading →
      List.Forall₂ (fun m m' => m' = m ∨ m.realign leading = .ok m') c.methods ms →
        ∀ m ∈ c.methods, ∀ fault, m.realign leading = .error fault →
          E (fault.error.withClass c.name) { c with methods := ms }) :
    realign.Ensures c Q E := by
  unfold realign
  refine Ensures.bind (ensures_state.mpr ?_)
  split
  · rename_i hleading
    exact ensures_pure.mpr (hnone hleading)
  · rename_i leading hleading
    obtain ⟨ms, hms, hall, hfault⟩ := Realigned.exists_foldl_step leading c.methods {}
    change match (realignMethods leading c.methods).fault with
      | none => _
      | some fault => _ at hfault
    have hmethods : (realignMethods leading c.methods).methods.reverse = ms := by
      rw [realignMethods, hms, List.append_nil, List.reverse_reverse]
    refine Ensures.bind (ensures_setState.mpr ?_)
    rw [hmethods]
    refine Ensures.bind ((ensures_forIn fun m => ?_).mono ?_ fun _ _ => id)
    · exact Ensures.bind (ensures_note.mpr (ensures_pure.mpr ⟨rfl, rfl⟩))
    · rintro _ _ rfl
      split at hfault
      · rename_i hclean
        rw [hclean]
        exact ensures_pure.mpr (hok leading ms hleading (mapM_eq_ok_iff.mpr hfault.2))
      · rename_i fault hstop
        rw [hstop]
        rcases hfault with h | ⟨m, hm, herr⟩
        · simp at h
        · exact ensures_throw.mpr (herror leading ms hleading hall m hm fault herr)

/-- An aligned class stays as it is. -/
theorem Aligned.ensures_realign {c : ClassFile} (hc : c.Aligned) {Q : Nat → ClassFile → Prop}
    {E : Error → ClassFile → Prop} (h : Q 0 c) : realign.Ensures c Q E := by
  refine ClassFile.ensures_realign (fun _ => h) ?_ ?_
  · intro leading ms hleading hall
    have hsame : c.methods.mapM (Method.realign leading) = .ok c.methods :=
      mapM_eq_ok_iff.mpr (List.forall₂_same.mpr (hc leading hleading))
    obtain rfl := Except.ok.inj (hall.symm.trans hsame)
    rw [realignMethods, Realigned.foldl_step_of_forall (hc leading hleading) rfl]
    exact h
  · intro leading _ hleading _ m hm fault herror
    rw [hc leading hleading m hm] at herror
    simp at herror

/-- Realigning keeps a class well-formed, whether or not it fails. -/
theorem WellFormed.ensures_realign {c : ClassFile} (hc : c.WellFormed) :
    realign.Ensures c (fun _ c' => c'.WellFormed) (fun _ c' => c'.WellFormed) := by
  refine ClassFile.ensures_realign (fun _ => hc) ?_ ?_
  · intro leading ms _ hms
    exact hc.withMethods
      (forall_of_forall₂ (mapM_eq_ok_iff.mp hms) hc.methods fun m m' h hm => hm.realign h)
  · intro leading ms _ hms _ _ _ _
    refine hc.withMethods (forall_of_forall₂ hms hc.methods fun m m' h hm => ?_)
    rcases h with rfl | h
    · exact hm
    · exact hm.realign h

end JarRepair.ClassFile
