import JarRepair.Proofs.Repair.Entries

/-! # What a repair keeps

A repair works on the world only through its readers and its writer. What these keep, the repair
keeps, and what they leave when they fail is left when the repair fails. -/

namespace JarRepair

namespace Task

variable {σ τ α β : Type} {I J : σ → Prop} {t : Task σ α}

/-- The task keeps `I`, unless it fails; then it leaves `J`. -/
def Keeps (I J : σ → Prop) (t : Task σ α) : Prop :=
  ∀ s, I s → t.Ensures s (fun _ s' => I s') fun _ s' => J s'

/-- However it ends, the task leaves the state as it is. -/
def Leaves (t : Task σ α) (s : σ) : Prop := t.Ensures s (fun _ s' => s' = s) fun _ s' => s' = s

theorem keeps_pure {a : α} : Keeps I J (pure a : Task σ α) := fun _ h => ensures_pure.mpr h

theorem keeps_state : Keeps I J (state : Task σ σ) := fun _ h => ensures_state.mpr h

theorem keeps_note {level : Log.Level} {module message : Bytes} :
    Keeps I J (note level module message : Task σ Unit) := fun _ h => ensures_note.mpr h

theorem keeps_throw (hJ : ∀ s, I s → J s) {e : Error} : Keeps I J (throw e : Task σ α) :=
  fun s h => ensures_throw.mpr (hJ s h)

theorem Keeps.bind (h : t.Keeps I J) {f : α → Task σ β} (hf : ∀ a, (f a).Keeps I J) :
    (t >>= f).Keeps I J := fun s hs =>
  Ensures.bind ((h s hs).mono (fun a s' hs' => hf a s' hs') fun _ _ => id)

theorem Keeps.mapError (h : t.Keeps I J) {f : Error → Error} : (Task.mapError f t).Keeps I J :=
  fun s hs => ensures_mapError.mpr (h s hs)

theorem Keeps.foldlM {ι : Type} {f : β → ι → Task σ β} (hf : ∀ b x, (f b x).Keeps I J)
    (items : List ι) (b : β) : (items.foldlM f b).Keeps I J := by
  induction items generalizing b with
  | nil => exact keeps_pure
  | cons x items ih => exact (hf b x).bind ih

/-- A part of the state on which nothing depends can be changed in any way. -/
theorem keeps_focus (hJ : ∀ s, I s → J s) {part : σ → τ} {put : τ → σ → σ}
    (hput : ∀ x s, I s → I (put x s)) (t : Task τ α) : Keeps I J (t.focus part put) := by
  intro s hs
  rw [ensures_focus]
  exact (ensures_any t (part s)).mono (fun _ x _ => hput x s hs) fun _ x _ => hJ _ (hput x s hs)

end Task

open JarRepair.Task

namespace Repair

open Archive (Reader Writer Entry)

variable {σ α : Type} {I J : σ → Prop} {src : Sources σ} {output : Writer σ}

/-- What holds of the world of a bench. -/
abbrev InWorld (I : σ → Prop) (b : Bench σ) : Prop := I b.world

theorem keeps_inWorld {t : Task σ α} (h : t.Keeps I J) :
    (Bench.inWorld t).Keeps (InWorld I) (InWorld J) :=
  fun b hb => Bench.ensures_inWorld (h b.world hb)

theorem keeps_modifyCache {f : Cache → Cache} :
    (Bench.modifyCache f).Keeps (InWorld I) (InWorld J) :=
  fun _ hb => Bench.ensures_modifyCache hb

section

variable (hJ : ∀ s, I s → J s)

include hJ

theorem keeps_edit {name : Bytes} (t : Task ClassFile α) :
    (Bench.edit name t : Task (Bench σ) α).Keeps (InWorld I) (InWorld J) := by
  rw [Bench.edit]
  refine keeps_focus (fun (b : Bench σ) => hJ b.world) ?_ t
  exact fun _ _ hb => hb

theorem keeps_load (data : Bytes) : (ClassFile.load data : Task σ ClassFile).Keeps I J :=
  fun s hs => ClassFile.ensures_load (fun _ _ => hs) fun _ _ => hJ s hs

theorem keeps_store (c : ClassFile) : (ClassFile.store c : Task σ Bytes).Keeps I J :=
  fun s hs => ClassFile.ensures_store (fun _ _ => hs) fun _ _ => hJ s hs

end

/-- The containers of the sources keep `I`. -/
def Sources.Keep (src : Sources σ) (I J : σ → Prop) : Prop :=
  ∀ reader, reader = src.primary ∨ src.fallback = some reader → ∀ p, (reader.read p).Keeps I J

theorem Sources.eq_of_holder? {p : Archive.Path} {reader : Reader σ}
    (h : src.holder? p = some reader) :
    reader = src.primary ∨ src.fallback = some reader := by
  rw [holder?] at h
  split at h
  · exact .inl (Option.some.inj h).symm
  · exact .inr (Option.filter_eq_some_iff.mp h).1

theorem keeps_loadClass (hJ : ∀ s, I s → J s) (hsrc : src.Keep I J) (name : Bytes) :
    (src.load name).Keeps (InWorld I) (InWorld J) := by
  rw [Sources.load]
  cases hholder : src.holder? (Archive.Path.ofClass name) with
  | none => exact keeps_pure
  | some reader =>
    have hreader := Sources.eq_of_holder? hholder
    refine Keeps.bind (Keeps.mapError ?_) fun c => keeps_modifyCache.bind fun _ => ?_
    · exact (keeps_inWorld (hsrc reader hreader _)).bind fun data =>
        keeps_load (fun (b : Bench σ) => hJ b.world) data
    · dsimp only
      split
      · exact keeps_note.bind fun _ => keeps_note.bind fun _ => keeps_pure
      · exact keeps_note.bind fun _ => keeps_pure

theorem keeps_find (hJ : ∀ s, I s → J s) (hsrc : src.Keep I J) (name : Bytes) :
    (src.find name).Keeps (InWorld I) (InWorld J) := by
  refine keeps_state.bind fun b => ?_
  split
  · exact keeps_modifyCache.bind fun _ => keeps_pure
  · refine keeps_modifyCache.bind fun _ => (keeps_loadClass hJ hsrc name).bind fun found => ?_
    dsimp only
    split
    · exact keeps_modifyCache.bind fun _ => keeps_note.bind fun _ => keeps_modifyCache.bind fun _ =>
        keeps_pure
    · exact keeps_modifyCache.bind fun _ => keeps_pure

/-! ## Climbs -/

theorem keeps_visit {find : Bytes → Task σ (Option ClassFile)}
    (hfind : ∀ name, (find name).Keeps I J) (node : ClassFile) (s : Survey) (name : Bytes) :
    (Survey.visit find node s name).Keeps I J := fun w hw =>
  Survey.ensures_visit (fun _ => hw) fun _ => hfind name w hw

theorem keeps_climb {find : Bytes → Task σ (Option ClassFile)}
    (hfind : ∀ name, (find name).Keeps I J) (fuel : Nat) (nodes : List ClassFile) (s : Survey) :
    (Survey.climb find fuel nodes s).Keeps I J := by
  intro w hw
  refine (Survey.ensures_climb (J := fun _ _ _ => I) (fun fuel node nodes s w hw => ?_) hw).mono ?_
    fun _ _ => id
  · exact Keeps.foldlM (keeps_visit hfind node) node.parents _ w hw
  · rintro s' w' (⟨-, hw'⟩ | ⟨-, hw'⟩) <;> exact hw'

/-! ## Entries -/

section

variable (hJ : ∀ s, I s → J s) (hsrc : src.Keep I J)

include hJ hsrc

theorem keeps_markClass (r : ClassFile.Resolver) (name : Bytes) (c : ClassFile) :
    (markClass src r name c).Keeps (InWorld I) (InWorld J) := by
  refine Keeps.bind (Keeps.mapError ?_) fun inherited => keeps_edit hJ _
  exact (keeps_climb (keeps_find hJ hsrc) _ _ _).bind fun _ => keeps_pure

theorem keeps_repairClass (r : ClassFile.Resolver) (name : Bytes) (s : Summary) :
    (repairClass src r name s).Keeps (InWorld I) (InWorld J) := by
  have hworld : ∀ b : Bench σ, InWorld I b → InWorld J b := fun b => hJ b.world
  refine (keeps_find hJ hsrc name).bind fun found => ?_
  cases found with
  | none => exact keeps_throw hworld
  | some c =>
    refine (keeps_edit hJ _).bind fun _ => keeps_state.bind fun _ => ?_
    refine (keeps_markClass hJ hsrc r name _).bind fun _ => keeps_state.bind fun _ => ?_
    exact (keeps_store hworld _).bind fun _ => keeps_pure

variable (hdirectory : ∀ p, (output.addDirectory p).Keeps I J)
  (hfile : ∀ p data, (output.addFile p data).Keeps I J)

include hdirectory hfile

theorem keeps_repairEntry (r : ClassFile.Resolver) (s : Summary) (e : Entry) :
    (repairEntry src r output s e).Keeps (InWorld I) (InWorld J) := by
  rw [repairEntry]
  split
  · exact (keeps_inWorld (hdirectory e.path)).bind fun _ => keeps_pure
  · split
    · refine (keeps_repairClass hJ hsrc r e.path.className s).bind fun x => ?_
      exact (keeps_inWorld (hfile e.path x.1)).bind fun _ => keeps_note.bind fun _ => keeps_pure
    · refine (keeps_inWorld (hsrc src.primary (.inl rfl) e.path)).bind fun data => ?_
      exact (keeps_inWorld (hfile e.path data)).bind fun _ => keeps_pure

/-- A repair keeps what its readers and its writer keep. -/
theorem keeps_repair (r : ClassFile.Resolver) :
    (repair src r output).Keeps (InWorld I) (InWorld J) := by
  refine Keeps.bind (Keeps.foldlM (fun s e => ?_) src.primary.entries ({} : Summary)) fun summary =>
    ?_
  · exact (keeps_repairEntry hJ hsrc hdirectory hfile r s e).mapError
  · exact keeps_state.bind fun _ => keeps_note.bind fun _ => keeps_pure

end

end Repair

end JarRepair
