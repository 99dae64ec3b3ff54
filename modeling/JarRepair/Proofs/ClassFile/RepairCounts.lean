import JarRepair.Proofs.ClassFile.LeadingSlots
import JarRepair.Proofs.Repair.Frame

/-! # What the repairs of a class count

A repair counts while it goes: a constructor when a channel of it changes, a marker when one is
added, also if several methods send theirs to one target. What it has counted can be told from the
class before and the class after, since each step leaves alone what the other counts. -/

namespace JarRepair.ClassFile

open JarRepair.Outcome
open JarRepair.Task

variable {c c' c₁ : ClassFile}

/-! ## Differences -/

/-- How many constructors have a channel with fewer slots than in the class before. -/
def shortenedSince (c c' : ClassFile) : Nat :=
  (c.methods.zip c'.methods).countP fun x => x.1.isShortened x.2

/-- How many methods are marked that were not in the class before. -/
def markedSince (c c' : ClassFile) : Nat :=
  (c.methods.zip c'.methods).countP fun x => !x.1.isMarked overrideType && x.2.isMarked overrideType

/-- How many methods are marked. -/
def markerCount (c : ClassFile) : Nat := c.methods.countP (·.isMarked overrideType)

/-- The parameter channels of each method. -/
def channels (c : ClassFile) : List (ParameterChannel × ParameterChannel) :=
  c.methods.map fun m => (m.visibleParameters, m.invisibleParameters)

theorem shortenedSince_self (c : ClassFile) : c.shortenedSince c = 0 := by
  rw [shortenedSince, List.countP_eq_zero]
  rintro ⟨m, m'⟩ hx
  obtain rfl : m = m' := by
    obtain ⟨k, hk⟩ := List.mem_iff_getElem?.mp hx
    obtain ⟨hm, hm'⟩ := List.getElem?_zip_eq_some.mp hk
    exact Option.some.inj (hm.symm.trans hm')
  simp [Method.isShortened]

/-- Which constructors are shortened depends on the channels alone. -/
theorem shortenedSince_congr (h : c₁.channels = c'.channels) :
    c.shortenedSince c₁ = c.shortenedSince c' := by
  have hzip (d : ClassFile) : c.shortenedSince d = (c.methods.zip d.channels).countP fun x =>
      x.1.isConstructor && (decide (x.2.1.slots < x.1.visibleParameters.slots) ||
        decide (x.2.2.slots < x.1.invisibleParameters.slots)) := by
    rw [shortenedSince, channels, List.zip_map_right, List.countP_map]
    rfl
  rw [hzip, hzip, h]

/-- Markers stay, so those that are new make the difference. -/
theorem Repaired.markerCount_add_markedSince (h : c.Repaired c') :
    c.markerCount + c.markedSince c' = c'.markerCount := by
  rw [markerCount, markerCount, markedSince]
  generalize c.methods = ms, c'.methods = ms', h.methods = hall
  induction hall with
  | nil => rfl
  | @cons m m' ms ms' hm _ ih =>
    have hstays := hm.remarked.isMarked
    simp only [List.zip_cons_cons, List.countP_cons, ← ih]
    cases hmarked : m.isMarked overrideType with
    | true =>
      simp only [hstays hmarked, Bool.not_true, Bool.false_and, if_true,
        Bool.false_eq_true, if_false]
      omega
    | false =>
      simp only [Bool.not_false, Bool.true_and, Bool.false_eq_true, if_false]
      omega

/-! ## Realigning -/

theorem Method.isMarked_of_realign {m m' : Method} {leading : List Bytes} {type : Bytes}
    (h : m.realign leading = .ok m') : m'.isMarked type = m.isMarked type := by
  rcases Method.leads_or_of_realign h with ⟨-, rfl⟩ | ⟨parameters, -, rfl⟩
  · rfl
  · rfl

/-- Realigning counts the constructors that it shortens, and marks nothing. -/
theorem WellFormed.ensures_realign_counts (hc : c.WellFormed) :
    realign.Ensures c (fun n c' => n = c.shortenedSince c' ∧ c'.markerCount = c.markerCount)
      (fun _ _ => True) := by
  refine ClassFile.ensures_realign (fun _ => ⟨c.shortenedSince_self.symm, rfl⟩) ?_
    fun _ _ _ _ _ _ _ _ => trivial
  intro leading ms hleading hms
  have hall := mapM_eq_ok_iff.mp hms
  constructor
  · exact hc.length_changed hleading hms
  · show ms.countP _ = c.methods.countP _
    clear hms
    generalize c.methods = ms₀ at hall ⊢
    induction hall with
    | nil => rfl
    | cons hm _ ih => rw [List.countP_cons, List.countP_cons, ih, Method.isMarked_of_realign hm]

/-! ## Marking -/

theorem Method.Marks.channels_eq {m m' : Method} {pool pool' : Pool} {type : Bytes}
    (h : m.Marks type pool pool' m') :
    (m'.visibleParameters, m'.invisibleParameters) =
      (m.visibleParameters, m.invisibleParameters) := by
  cases h with
  | annotate => rfl
  | openInvisible => rfl

/-- One marker is added or none, and no channel changes. -/
theorem counts_of_mark {k : Nat} {added : Bool} (h : mark k overrideType c = (.ok added, c')) :
    c'.markerCount = c.markerCount + added.toNat ∧ c'.channels = c.channels := by
  rcases mark_eq_ok_cases h with ⟨rfl, rfl, -⟩ | ⟨rfl, m, pool', m', hm, hmarked, hmarks, rfl⟩
  · exact ⟨rfl, rfl⟩
  · obtain ⟨hk, hget⟩ := List.getElem?_eq_some_iff.mp hm
    constructor
    · rw [markerCount, markerCount, List.countP_set hk, hget, hmarked, hmarks.isMarked]
      rfl
    · rw [channels, channels, List.map_set, hmarks.channels_eq]
      rw [← hget, ← List.getElem_map fun m : Method => (m.visibleParameters, m.invisibleParameters)]
      · exact List.set_getElem_self _
      · rwa [List.length_map]

/-- Marking counts the markers that it adds, and changes no channel. -/
theorem ensures_markOverrides_counts (r : Resolver) (inherited : Std.TreeSet Bytes)
    (c : ClassFile) :
    (markOverrides r inherited).Ensures c
      (fun k c' => c'.markerCount = c.markerCount + k ∧ c'.channels = c.channels)
        (fun _ _ => True) := by
  refine Ensures.bind (ensures_state.mpr ?_)
  refine Ensures.foldlM (I := fun _ n (c' : ClassFile) => c'.markerCount = c.markerCount + n ∧
    c'.channels = c.channels) ?_
    ⟨rfl, rfl⟩
  rintro _ ⟨m, k⟩ _ n c₁ - ⟨hmarked, hchannels⟩
  refine Ensures.bind (ensures_markOverride (fun _ => ensures_pure.mpr ⟨hmarked, hchannels⟩) ?_
    (fun _ _ _ => trivial) fun _ _ _ _ _ _ => trivial)
  intro key added c₂ _ _ hrun
  obtain ⟨hadded, hkept⟩ := counts_of_mark hrun
  exact ensures_pure.mpr ⟨by rw [hadded, hmarked, Nat.add_assoc], hkept.trans hchannels⟩

end JarRepair.ClassFile
