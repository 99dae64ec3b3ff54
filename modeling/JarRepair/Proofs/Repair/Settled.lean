import JarRepair.Proofs.ClassFile.Repaired
import JarRepair.Proofs.Repair.Ancestors
import JarRepair.Proofs.Repair.Overriding

/-! # Classes with nothing left to repair

A class is settled if its constructors are aligned and the target of each overriding method has its
marker. Repairing leaves a settled class, and a settled class is left as it is. -/

namespace JarRepair.ClassFile

open JarRepair.Outcome
open JarRepair.Task

variable {r : Resolver} {c c' : ClassFile} {m m' : Method} {k : Nat} {inherits : Bytes → Prop}
  {inherited : Std.TreeSet Bytes}

/-! ## What repairs leave alone -/

namespace Method

theorem Repaired.signature_eq (h : m.Repaired m') : m'.signature = m.signature := by
  rw [signature, h.name_eq, h.descriptor_eq, signature]

theorem Repaired.key_eq (h : m.Repaired m') : m'.key = m.key := by
  rw [key, h.name_eq, h.descriptor_eq, key]

theorem Repaired.isEligible_eq (h : m.Repaired m') : m'.isEligible = m.isEligible := by
  simp only [isEligible, isInitializer, isConstructor, h.access_eq, h.name_eq]

theorem Repaired.forwards?_eq (h : m.Repaired m') : m'.forwards? = m.forwards? := by
  rw [forwards?, h.access_eq, h.attribute?_eq codeName (by decide), forwards?]

end Method

namespace Repaired

theorem name_eq (h : c.Repaired c') : c'.name = c.name := by rw [h.rest]

theorem kin_eq (h : c.Repaired c') : c'.kin = c.kin := by
  have hsignatures : (c'.methods.filter (·.isEligible)).map (·.signature) =
      (c.methods.filter (·.isEligible)).map (·.signature) := by
    generalize c.methods = ms, c'.methods = ms', h.methods = hall
    induction hall with
    | nil => rfl
    | cons hm _ ih =>
      simp only [List.filter_cons, hm.isEligible_eq]
      split
      · rw [List.map_cons, List.map_cons, hm.signature_eq, ih]
      · exact ih
  have hparents : c'.parents = c.parents := by rw [h.rest]; rfl
  rw [kin, kin, hparents, hsignatures]

theorem methodIndex?_eq (h : c.Repaired c') (name descriptor : Bytes) :
    c'.methodIndex? name descriptor = c.methodIndex? name descriptor := by
  rw [methodIndex?, methodIndex?]
  generalize c.methods = ms, c'.methods = ms', h.methods = hall
  induction hall with
  | nil => rfl
  | cons hm _ ih =>
    rw [List.findIdx?_cons, List.findIdx?_cons, hm.name_eq, hm.descriptor_eq, ih]

theorem exists_before (h : c.Repaired c') (hm' : c'.methods[k]? = some m') :
    ∃ m, c.methods[k]? = some m ∧ m.Repaired m' :=
  exists_of_forall₂ (R := fun m' m : Method => m.Repaired m') h.methods.flip hm'

theorem markTarget_eq (h : c.Repaired c') (key : MethodKey) (k : Nat) :
    c'.markTarget key k = c.markTarget key k := by
  rw [markTarget, h.methodIndex?_eq, markTarget]

end Repaired

/-! ## Resolvers -/

/-- What a resolver answers for a method it answers also after repairs. -/
def Resolver.Stable (r : Resolver) : Prop :=
  ∀ {c c' : ClassFile} {m m' : Method} {key : MethodKey}, c.Repaired c' → m.Repaired m' →
    r.target c m = .ok key → r.target c' m' = .ok key

theorem Resolver.stable_identity : identity.Stable := by
  intro c c' m m' key _ hm hkey
  show Except.ok m'.key = _
  rw [hm.key_eq]
  exact hkey

/-- A bridge forwards through its code and through constants that a larger pool has too. -/
theorem bridgeTarget_mono (hpool : c.pool ≤ c'.pool) (hname : c'.name = c.name)
    (hforwards : m'.forwards? = m.forwards?) (hkey : m'.key = m.key) {key : MethodKey}
    (h : c.bridgeTarget m = .ok key) : c'.bridgeTarget m' = .ok key := by
  have hdescriptor : m'.descriptor = m.descriptor := (MethodKey.mk.inj hkey).2
  rw [bridgeTarget] at h ⊢
  rw [hforwards, hkey, hdescriptor, hname]
  split at h
  · exact h
  · rename_i index _
    simp only [bind_eq_ok_iff, mapError_eq_ok_iff] at h ⊢
    obtain ⟨member, hmember, h⟩ := h
    exact ⟨member, Pool.member_mono hpool hmember, h⟩

theorem Resolver.stable_bridge : bridge.Stable := by
  intro c c' m m' key hc hm hkey
  simp only [bridge, mapError_eq_ok_iff] at hkey ⊢
  exact bridgeTarget_mono hc.pool.le hc.name_eq hm.forwards?_eq hm.key_eq hkey

/-! ## Settled classes -/

/-- The target of method `k` has its marker. -/
def SettledAt (r : Resolver) (c : ClassFile) (k : Nat) (m : Method) : Prop :=
  ∃ key m₁, r.target c m = .ok key ∧ c.methods[c.markTarget key k]? = some m₁ ∧
    m₁.isMarked overrideType = true

/-- Constructors are aligned, and the targets of all methods that override have their markers. -/
structure Settled (r : Resolver) (inherits : Bytes → Prop) (c : ClassFile) : Prop where
  aligned : c.Aligned
  marked : ∀ k m, c.methods[k]? = some m → m.isEligible = true → inherits m.signature →
    c.SettledAt r k m

theorem SettledAt.mono (hr : r.Stable) (h : c.SettledAt r k m) (hc : c.Repaired c')
    (hm : m.Repaired m') : c'.SettledAt r k m' := by
  obtain ⟨key, m₁, hkey, hm₁, hmarked⟩ := h
  obtain ⟨m₁', hm₁', hrepaired⟩ := exists_of_forall₂ hc.methods hm₁
  refine ⟨key, m₁', hr hc hm hkey, ?_, hrepaired.remarked.isMarked hmarked⟩
  rw [hc.markTarget_eq]
  exact hm₁'

theorem exists_markTarget (hm : c.methods[k]? = some m) (key : MethodKey) :
    ∃ m₁, c.methods[c.markTarget key k]? = some m₁ := by
  rw [markTarget]
  cases hindex : c.methodIndex? key.name key.descriptor with
  | none => exact ⟨m, hm⟩
  | some t =>
    obtain ⟨hlt, -, -⟩ := List.findIdx?_eq_some_iff_getElem.mp hindex
    exact ⟨_, List.getElem?_eq_getElem hlt⟩

theorem isMarked_of_mark {type : Bytes} {added : Bool} (hm : ∃ m, c.methods[k]? = some m)
    (h : mark k type c = (.ok added, c')) :
    ∃ m₁, c'.methods[k]? = some m₁ ∧ m₁.isMarked type = true := by
  rcases mark_eq_ok_cases h with ⟨-, rfl, hmarked⟩ | ⟨-, m, pool, m', hm, -, hmarks, rfl⟩
  · obtain ⟨m, hm⟩ := hm
    exact ⟨m, hm, hmarked m hm⟩
  · obtain ⟨hlt, -⟩ := List.getElem?_eq_some_iff.mp hm
    exact ⟨m', List.getElem?_set_self hlt, hmarks.isMarked⟩

theorem mark_of_isMarked {type : Bytes} (hm : c.methods[k]? = some m) (h : m.isMarked type = true) :
    mark k type c = (.ok false, c) := by
  rw [mark, hm]
  exact if_pos h

/-- Marking changes nothing that realigning looks at. -/
theorem Aligned.mark (hc : c.Aligned) {added : Bool} {type : Bytes}
    (h : ClassFile.mark k type c = (.ok added, c')) : c'.Aligned := by
  rcases mark_eq_ok_cases h with ⟨-, rfl, -⟩ | ⟨-, m, pool, m', hm, -, hmarks, rfl⟩
  · exact hc
  · intro leading hleading x hx
    have hold : ∀ m ∈ c.methods, m.realign leading = .ok m := hc leading hleading
    rcases List.mem_or_eq_of_mem_set hx with hx | rfl
    · exact hold x hx
    · have hrealign := hold m (List.mem_of_getElem? hm)
      cases hmarks with
      | annotate => exact Method.realign_again hrealign rfl rfl fun v => by cases v <;> rfl
      | openInvisible => exact Method.realign_again hrealign rfl rfl fun v => by cases v <;> rfl

theorem ensures_realign_aligned : realign.Ensures c (fun _ c' => c'.Aligned) (fun _ _ => True) := by
  refine ensures_realign ?_ ?_ fun _ _ _ _ _ _ _ _ => trivial
  · intro hnone leading hleading
    rw [hnone] at hleading
    simp at hleading
  · intro leading ms hleading hms leading' hleading' m' hm'
    obtain rfl : leading = leading' := Option.some.inj (hleading.symm.trans hleading')
    exact forall_of_forall₂ (P := fun _ => True) (Q := fun m => m.realign leading = .ok m)
      (mapM_eq_ok_iff.mp hms) (fun _ _ => trivial) (fun _ _ h _ => Method.realign_self h) m' hm'

/-- A method whose target has just been marked is settled. -/
theorem settledAt_of_mark (hr : r.Stable) (hc : c.WellFormed) (hm : c.methods[k]? = some m)
    {key : MethodKey} (hkey : r.target c m = .ok key) {added : Bool}
    (h : mark (c.markTarget key k) overrideType c = (.ok added, c'))
    (hm' : c'.methods[k]? = some m') :
    c'.SettledAt r k m' := by
  have hrepaired : c.Repaired c' := .of_mark hc h
  obtain ⟨m₀, hm₀, hmm'⟩ := hrepaired.exists_before hm'
  obtain rfl := Option.some.inj (hm.symm.trans hm₀)
  obtain ⟨m₁, hm₁, hmarked⟩ := isMarked_of_mark (exists_markTarget hm key) h
  refine ⟨key, m₁, hr hrepaired hmm' hkey, ?_, hmarked⟩
  rw [hrepaired.markTarget_eq]
  exact hm₁

/-- Marking the overriding methods of an aligned class settles it. -/
theorem Aligned.ensures_markOverrides (hr : r.Stable) (hc : c.WellFormed) (ha : c.Aligned)
    (hin : ∀ signature, signature ∈ inherited ↔ inherits signature) :
    (markOverrides r inherited).Ensures c
      (fun _ c' => c'.WellFormed ∧ c.Repaired c' ∧ c'.Settled r inherits) (fun _ _ => True) := by
  refine Ensures.bind (ensures_state.mpr ?_)
  refine (Ensures.foldlM (I := fun done _ c' => c'.WellFormed ∧ c.Repaired c' ∧ c'.Aligned ∧
    ∀ x ∈ done, ∀ m', c'.methods[x.2]? = some m' → m'.isEligible = true → inherits m'.signature →
      c'.SettledAt r x.2 m') ?_ ⟨hc, .refl c, ha, by simp⟩).mono ?_ fun _ _ => id
  · rintro done ⟨m, k⟩ rest n c₁ hitems ⟨hc₁, hrepaired, ha₁, hdone⟩
    have hm : c.methods[k]? = some m :=
      List.mem_zipIdx_iff_getElem?.mp (hitems ▸ List.mem_append_right done List.mem_cons_self)
    obtain ⟨m₁, hm₁, hmm₁⟩ := exists_of_forall₂ hrepaired.methods hm
    refine Ensures.bind
      (ensures_markOverride ?_ ?_ (fun _ _ _ => trivial) fun _ _ _ _ _ _ => trivial)
    · intro hskip
      refine ensures_pure.mpr ⟨hc₁, hrepaired, ha₁, fun x hx m' hm' heligible hinherits => ?_⟩
      rcases List.mem_append.mp hx with hx | hx
      · exact hdone x hx m' hm' heligible hinherits
      · obtain rfl := List.mem_singleton.mp hx
        obtain rfl := Option.some.inj (hm₁.symm.trans hm')
        rw [Method.overrides, ← hmm₁.isEligible_eq, ← hmm₁.signature_eq, heligible, Bool.true_and,
          ← Bool.not_eq_true, ← Std.TreeSet.mem_iff_contains, hin] at hskip
        exact absurd hinherits hskip
    · intro key added c₂ _ hkey hrun
      rw [hm₁, Option.getD_some] at hkey
      have hstep : c₁.Repaired c₂ := .of_mark hc₁ hrun
      refine ensures_pure.mpr
        ⟨hc₁.of_mark hrun, hrepaired.trans hstep, ha₁.mark hrun, fun x hx m' hm' => ?_⟩
      rcases List.mem_append.mp hx with hx | hx
      · obtain ⟨m₀, hm₀, hm₀m'⟩ := hstep.exists_before hm'
        rw [hm₀m'.isEligible_eq, hm₀m'.signature_eq]
        exact fun heligible hinherits => (hdone x hx m₀ hm₀ heligible hinherits).mono hr hstep hm₀m'
      · obtain rfl := List.mem_singleton.mp hx
        exact fun _ _ => settledAt_of_mark hr hc₁ hm₁ hkey hrun hm'
  · rintro _ c' ⟨hc', hrepaired, ha', hall⟩
    refine ⟨hc', hrepaired, ha', fun k m' hm' => ?_⟩
    obtain ⟨m, hm, -⟩ := hrepaired.exists_before hm'
    exact hall (m, k) (List.mem_zipIdx_iff_getElem?.mpr hm) m' hm'

/-- A settled class is left as it is. -/
theorem Settled.ensures_markOverrides (h : c.Settled r inherits)
    (hin : ∀ signature, signature ∈ inherited ↔ inherits signature) :
    (markOverrides r inherited).Ensures c (fun n c' => n = 0 ∧ c' = c) (fun _ _ => False) := by
  refine Ensures.bind (ensures_state.mpr ?_)
  refine Ensures.foldlM (I := fun _ n c' => n = 0 ∧ c' = c) ?_ ⟨rfl, rfl⟩
  rintro done ⟨m, k⟩ rest n c₁ hitems ⟨hn, hc₁⟩
  rw [hn, hc₁]
  have hm : c.methods[k]? = some m :=
    List.mem_zipIdx_iff_getElem?.mp (hitems ▸ List.mem_append_right done List.mem_cons_self)
  have hsettled (hover : m.overrides inherited = true) : c.SettledAt r k m := by
    rw [Method.overrides, Bool.and_eq_true, ← Std.TreeSet.mem_iff_contains, hin] at hover
    exact h.marked k m hm hover.1 hover.2
  have hmark {key : MethodKey} {x : Except Error Bool × ClassFile}
      (hover : m.overrides inherited = true)
      (hkey : r.target c (c.methods[k]?.getD m) = .ok key)
      (hrun : mark (c.markTarget key k) overrideType c = x) : x = (.ok false, c) := by
    obtain ⟨key', m₁, hkey', hm₁, hmarked⟩ := hsettled hover
    rw [hm, Option.getD_some] at hkey
    obtain rfl := Except.ok.inj (hkey'.symm.trans hkey)
    rw [← hrun, mark_of_isMarked hm₁ hmarked]
  refine Ensures.bind (ensures_markOverride ?_ ?_ ?_ ?_)
  · exact fun _ => ensures_pure.mpr ⟨rfl, rfl⟩
  · intro key added c' hover hkey hrun
    obtain ⟨hadded, rfl⟩ := Prod.mk.inj (hmark hover hkey hrun)
    obtain rfl := Except.ok.inj hadded
    exact ensures_pure.mpr ⟨rfl, rfl⟩
  · intro e hover herror
    obtain ⟨key, m₁, hkey, -, -⟩ := hsettled hover
    rw [hm, Option.getD_some, hkey] at herror
    simp at herror
  · intro key e c' hover hkey hrun
    obtain ⟨herror, -⟩ := Prod.mk.inj (hmark hover hkey hrun)
    simp at herror

end JarRepair.ClassFile
