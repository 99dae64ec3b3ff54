import JarRepair.Proofs.Repair.Entries
import JarRepair.Proofs.Repair.Reachability

/-! # Repairs on a larger world

A world may hold more than its containers need: a record of what they were asked, say. If readers
and writer on the larger world do to a part of it what others do to all of theirs, then so do
lookups and the whole repair. What is proved with a record thus holds of the run without it. -/

namespace JarRepair

open JarRepair.Task

namespace ClassFile

variable {σ τ : Type} {part : τ → σ}

theorem mirrors_load (data : Bytes) : Mirrors part (load data) (load data) := by
  intro w notes
  rw [load, load]
  cases decode data <;> rfl

theorem mirrors_store (c : ClassFile) : Mirrors part (store c) (store c) :=
  mirrors_ofExcept.bind fun _ => mirrors_note.bind fun _ => mirrors_pure

end ClassFile

namespace Archive

variable {σ τ : Type}

/-- A reader lists the same, and its fetches do to a part of the world what the other's do. -/
structure Reader.Mirrors (part : τ → σ) (r : Reader τ) (r' : Reader σ) : Prop where
  location : r.location = r'.location
  entries : r.entries = r'.entries
  files : r.files = r'.files
  read : ∀ p, Task.Mirrors part (r.read p) (r'.read p)

structure Writer.Mirrors (part : τ → σ) (output : Writer τ) (output' : Writer σ) : Prop where
  addDirectory : ∀ p, Task.Mirrors part (output.addDirectory p) (output'.addDirectory p)
  addFile : ∀ p data, Task.Mirrors part (output.addFile p data) (output'.addFile p data)

end Archive

namespace Repair

open Archive (Entry Path Reader Writer)

variable {σ τ α : Type} {part : τ → σ}

/-- A bench with only a part of its world. -/
def Bench.map (part : τ → σ) (b : Bench τ) : Bench σ where
  world := part b.world
  cache := b.cache

/-- The sources have containers that mirror those of the others. -/
structure Sources.Mirrors (part : τ → σ) (src : Sources τ) (src' : Sources σ) : Prop where
  primary : Reader.Mirrors part src.primary src'.primary
  fallback : Option.Rel (Reader.Mirrors part) src.fallback src'.fallback

/-! ## Steps on a bench -/

theorem mirrors_inWorld {t : Task τ α} {u : Task σ α} (h : Mirrors part t u) :
    Mirrors (Bench.map part) (Bench.inWorld t) (Bench.inWorld u) := by
  intro b notes
  show Task.focus _ _ u _ = _
  rw [Task.focus, Bench.map, h b.world notes]
  rfl

theorem mirrors_modifyCache {f : Cache → Cache} :
    Mirrors (Bench.map part) (Bench.modifyCache f) (Bench.modifyCache f) := fun _ _ => rfl

theorem mirrors_edit {name : Bytes} {t : Task ClassFile α} :
    Mirrors (Bench.map part) (Bench.edit name t) (Bench.edit name t) := fun _ _ => rfl

/-! ## Lookups -/

variable {src : Sources τ} {src' : Sources σ}

namespace Sources.Mirrors

theorem bound_eq (h : src.Mirrors part src') : src.bound = src'.bound := by
  obtain ⟨primary, fallback⟩ := src
  obtain ⟨primary', fallback'⟩ := src'
  rw [bound, bound, h.primary.files]
  cases h.fallback with
  | none => rfl
  | some hreader => rw [Option.map_some, Option.map_some, hreader.files]

theorem holder? (h : src.Mirrors part src') (p : Path) :
    Option.Rel (Reader.Mirrors part) (src.holder? p) (src'.holder? p) := by
  obtain ⟨primary, fallback⟩ := src
  obtain ⟨primary', fallback'⟩ := src'
  have hcontains {r : Reader τ} {r' : Reader σ} (hreader : Reader.Mirrors part r r') :
      r.contains p = r'.contains p := by
    rw [Archive.Reader.contains, Archive.Reader.contains, hreader.files]
  rw [Sources.holder?, Sources.holder?, hcontains h.primary]
  split
  · exact .some h.primary
  · cases h.fallback with
    | none => exact .none
    | @some reader reader' hreader =>
      rw [Option.filter_some, Option.filter_some, hcontains hreader]
      split
      · exact .some hreader
      · exact .none

theorem load (h : src.Mirrors part src') (name : Bytes) :
    Task.Mirrors (Bench.map part) (src.load name) (src'.load name) := by
  rw [Sources.load, Sources.load]
  generalize src.holder? (Path.ofClass name) = holder, src'.holder? (Path.ofClass name) = holder',
    h.holder? (Path.ofClass name) = hholder
  cases hholder with
  | none => exact mirrors_pure
  | some hreader =>
    dsimp only
    rw [hreader.location]
    refine Task.Mirrors.bind (Task.Mirrors.mapError ?_) fun c => mirrors_modifyCache.bind fun _ =>
      ?_
    · exact (mirrors_inWorld (hreader.read _)).bind fun data => ClassFile.mirrors_load data
    · split
      · exact mirrors_note.bind fun _ => mirrors_note.bind fun _ => mirrors_pure
      · exact mirrors_note.bind fun _ => mirrors_pure

theorem find (h : src.Mirrors part src') (name : Bytes) :
    Task.Mirrors (Bench.map part) (src.find name) (src'.find name) := by
  refine mirrors_state_bind fun b => ?_
  dsimp only [Bench.map]
  split
  · exact mirrors_modifyCache.bind fun _ => mirrors_pure
  · refine mirrors_modifyCache.bind fun _ => (h.load name).bind fun found => ?_
    split
    · exact mirrors_modifyCache.bind fun _ => mirrors_note.bind fun _ =>
        mirrors_modifyCache.bind fun _ => mirrors_pure
    · exact mirrors_modifyCache.bind fun _ => mirrors_pure

end Sources.Mirrors

/-! ## Entries -/

section

variable (h : src.Mirrors part src')

include h

theorem mirrors_markClass (r : ClassFile.Resolver) (name : Bytes) (c : ClassFile) :
    Mirrors (Bench.map part) (markClass src r name c) (markClass src' r name c) := by
  refine Task.Mirrors.bind (Task.Mirrors.mapError ?_) fun inherited => mirrors_edit
  rw [inheritedSignatures, inheritedSignatures, h.bound_eq]
  exact Survey.mirrors_signaturesAbove h.find _ c

theorem mirrors_repairClass (r : ClassFile.Resolver) (name : Bytes) (s : Summary) :
    Mirrors (Bench.map part) (repairClass src r name s) (repairClass src' r name s) := by
  refine (h.find name).bind fun found => ?_
  cases found with
  | none => exact mirrors_throw
  | some c =>
    refine mirrors_edit.bind fun _ => mirrors_state_bind fun b => ?_
    refine (mirrors_markClass h r name _).bind fun _ => mirrors_state_bind fun b => ?_
    exact (ClassFile.mirrors_store _).bind fun _ => mirrors_pure

variable {output : Writer τ} {output' : Writer σ} (houtput : Writer.Mirrors part output output')

include houtput

theorem mirrors_repairEntry (r : ClassFile.Resolver) (s : Summary) (e : Entry) :
    Mirrors (Bench.map part) (repairEntry src r output s e) (repairEntry src' r output' s e) := by
  rw [repairEntry, repairEntry]
  split
  · exact (mirrors_inWorld (houtput.addDirectory e.path)).bind fun _ => mirrors_pure
  · split
    · refine (mirrors_repairClass h r e.path.className s).bind fun x => ?_
      exact (mirrors_inWorld (houtput.addFile e.path x.1)).bind fun _ => mirrors_note.bind fun _ =>
        mirrors_pure
    · refine (mirrors_inWorld (h.primary.read e.path)).bind fun data => ?_
      exact (mirrors_inWorld (houtput.addFile e.path data)).bind fun _ => mirrors_pure

/-- A repair on the larger world does to the part what the other repair does. -/
theorem mirrors_repair (r : ClassFile.Resolver) :
    Mirrors (Bench.map part) (repair src r output) (repair src' r output') := by
  refine Task.Mirrors.bind ?_ fun summary => mirrors_state_bind fun b => ?_
  · rw [repairEntries, repairEntries, h.primary.entries]
    exact mirrors_foldlM (fun s e => (mirrors_repairEntry h houtput r s e).mapError) _ _
  · exact mirrors_note.bind fun _ => mirrors_pure

end

end Repair

end JarRepair
