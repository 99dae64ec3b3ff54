import JarRepair.Proofs.ClassFile.Markers
import JarRepair.Repair.Override

/-! # Marking the overriding methods of a class

The methods of a class are gone through in order. One that overrides has its target resolved and
marked; resolving and marking may fail, and then the methods after it are not looked at. -/

namespace JarRepair.ClassFile

open JarRepair.Task

variable {r : Resolver} {inherited : Std.TreeSet Bytes} {c : ClassFile} {k : Nat}

theorem ensures_addMarker {type : Bytes} {Q : Bool → ClassFile → Prop}
    {E : Error → ClassFile → Prop} (hok : ∀ added c', mark k type c = (.ok added, c') → Q added c')
    (herror : ∀ e c', mark k type c = (.error e, c') → E e c') :
    (addMarker k type).Ensures c Q E := by
  refine Ensures.bind (ensures_ofStep.mpr ?_)
  rcases hrun : mark k type c with ⟨e | added, c'⟩
  · exact herror e c' hrun
  · have hQ := hok added c' hrun
    cases added with
    | false => exact ensures_pure.mpr hQ
    | true =>
      exact Ensures.bind (ensures_state.mpr (Ensures.bind (ensures_note.mpr (ensures_pure.mpr hQ))))

theorem ensures_resolve {σ : Type} {s : σ} {m : Method} {Q : MethodKey → σ → Prop}
    {E : Error → σ → Prop} (hok : ∀ key, r.target c m = .ok key → Q key s)
    (herror : ∀ e, r.target c m = .error e → E e s) : (r.resolve c m).Ensures s Q E := by
  refine Ensures.bind (ensures_ofExcept.mpr ?_)
  cases hkey : r.target c m with
  | error e => exact herror e hkey
  | ok key =>
    have hQ := hok key hkey
    dsimp only
    split
    · exact Ensures.bind (ensures_note.mpr (ensures_pure.mpr hQ))
    · exact ensures_pure.mpr hQ

/-- The method that gets the marker of method `k`: the first one with the key, or `k` itself. -/
def markTarget (c : ClassFile) (key : MethodKey) (k : Nat) : Nat :=
  (c.methodIndex? key.name key.descriptor).getD k

/-- Whether a method overrides one with an inherited signature. -/
def Method.overrides (m : Method) (inherited : Std.TreeSet Bytes) : Bool :=
  m.isEligible && inherited.contains m.signature

/-- A method that does not override is passed over; any other has its target marked. -/
theorem ensures_markOverride {m : Method} {Q : Nat → ClassFile → Prop}
    {E : Error → ClassFile → Prop} (hskip : m.overrides inherited = false → Q 0 c)
    (hok : ∀ key added c', m.overrides inherited = true →
      r.target c (c.methods[k]?.getD m) = .ok key →
      mark (c.markTarget key k) overrideType c = (.ok added, c') → Q added.toNat c')
    (hresolve : ∀ e, m.overrides inherited = true → r.target c (c.methods[k]?.getD m) = .error e →
      E (e.withClass c.name) c)
    (hmark : ∀ key e c', m.overrides inherited = true →
      r.target c (c.methods[k]?.getD m) = .ok key →
      mark (c.markTarget key k) overrideType c = (.error e, c') → E (e.withClass c.name) c') :
    (markOverride r inherited k m).Ensures c Q E := by
  rw [markOverride]
  split
  · rename_i hover
    refine Ensures.bind (ensures_state.mpr (ensures_mapError.mpr (Ensures.bind ?_)))
    refine ensures_resolve (fun key hkey => Ensures.bind (ensures_addMarker ?_ ?_))
      (hresolve · hover)
    · intro added c' hrun
      have hQ := hok key added c' hover hkey hrun
      cases added with
      | false => exact ensures_pure.mpr hQ
      | true => exact Ensures.bind (ensures_note.mpr (ensures_pure.mpr hQ))
    · exact fun e c' hrun => hmark key e c' hover hkey hrun
  · rename_i hover
    exact ensures_pure.mpr (hskip (eq_false_of_ne_true hover))

/-- What every marking of a method keeps, marking all overriding methods keeps. -/
theorem ensures_markOverrides {I : ClassFile → Prop} {E : Error → ClassFile → Prop} (hc : I c)
    (hok : ∀ c k added c', I c → mark k overrideType c = (.ok added, c') → I c')
    (hresolve : ∀ c e, I c → E e c)
    (hmark : ∀ c k e e' c', I c → mark k overrideType c = (.error e, c') → E e' c') :
    (markOverrides r inherited).Ensures c (fun _ => I) E := by
  refine Ensures.bind (ensures_state.mpr ?_)
  refine Ensures.foldlM (I := fun _ _ => I) (fun _ x _ n c _ hc => ?_) hc
  obtain ⟨m, k⟩ := x
  refine Ensures.bind (ensures_markOverride (fun _ => ensures_pure.mpr hc) ?_ ?_ ?_)
  · exact fun key added c' _ _ hrun => ensures_pure.mpr (hok c _ added c' hc hrun)
  · exact fun e _ _ => hresolve c _ hc
  · exact fun key e c' _ _ hrun => hmark c _ e _ c' hc hrun

end JarRepair.ClassFile
