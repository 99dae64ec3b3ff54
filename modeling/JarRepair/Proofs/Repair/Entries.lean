import JarRepair.Proofs.Repair.Lookup
import JarRepair.Repair.Entries

/-! # What repairing an entry does

A class is loaded from the first container that has its file. A class entry is repaired in four
steps, each on what the step before has left: the class is looked up, realigned, marked with what
its ancestors declare, and written. -/

namespace JarRepair

open JarRepair.Task

theorem ClassFile.ensures_load {σ : Type} {s : σ} {data : Bytes} {Q : ClassFile → σ → Prop}
    {E : Error → σ → Prop} (hok : ∀ c, decode data = .ok c → Q c s)
    (herror : ∀ failure, decode data = .error failure → E failure.error s) :
    (load data).Ensures s Q E := by
  rw [load]
  cases hread : decode data with
  | ok c =>
    refine Ensures.bind (ensures_modify fun _ => ?_)
    exact Ensures.bind (ensures_note.mpr (ensures_pure.mpr (hok c hread)))
  | error failure =>
    exact Ensures.bind (ensures_modify fun _ => ensures_throw.mpr (herror failure hread))

theorem ClassFile.ensures_store {σ : Type} {s : σ} {c : ClassFile} {Q : Bytes → σ → Prop}
    {E : Error → σ → Prop} (hok : ∀ data, c.encode = .ok data → Q data s)
    (herror : ∀ e, c.encode = .error e → E e s) : (store c).Ensures s Q E := by
  refine Ensures.bind (ensures_ofExcept.mpr ?_)
  cases hwrite : c.encode with
  | ok data => exact Ensures.bind (ensures_note.mpr (ensures_pure.mpr (hok data hwrite)))
  | error e => exact herror e hwrite

/-! ## Names and paths -/

namespace Archive.Path

theorem dropTail?_append (name tail : Bytes) : Bytes.dropTail? (name ++ tail) tail = some name := by
  rw [Bytes.dropTail?, List.reverse_append, Bytes.dropStart?_append, Option.map_some,
    List.reverse_reverse]

theorem eq_append_of_dropTail? {p tail name : Bytes} (h : Bytes.dropTail? p tail = some name) :
    p = name ++ tail := by
  rw [Bytes.dropTail?, Option.map_eq_some_iff] at h
  obtain ⟨rest, hrest, rfl⟩ := h
  rw [← List.reverse_inj, Bytes.eq_append_of_dropStart? hrest]
  simp

theorem ofClass_className {p : Path} (h : isClass p = true) : ofClass (className p) = p := by
  obtain ⟨name, hname⟩ := Option.isSome_iff_exists.mp h
  rw [className, hname, Option.getD_some, ofClass]
  rw [className?] at hname
  split at hname
  · rename_i name' hdrop
    split at hname
    · simp at hname
    · obtain rfl := Option.some.inj hname
      exact (eq_append_of_dropTail? hdrop).symm
  · simp at hname

theorem ofClass_injective {name name' : Bytes} (h : ofClass name = ofClass name') : name = name' :=
  List.append_cancel_right h

end Archive.Path

namespace Repair

/-! ## Classes -/

variable {σ : Type} {src : Sources σ} {r : ClassFile.Resolver} {name : Bytes} {b : Bench σ}

/-- A name is loaded from the file that its holder has for it. -/
theorem Sources.ensures_load {Q : Option ClassFile → Bench σ → Prop} {E : Error → Bench σ → Prop}
    (hnone : src.holder? (Archive.Path.ofClass name) = none → Q none b)
    (hread : ∀ reader, src.holder? (Archive.Path.ofClass name) = some reader →
      (reader.read (Archive.Path.ofClass name)).Ensures b.world
        (fun data w =>
          match ClassFile.decode data with
          | .ok c =>
            Q (some c) { world := w, cache := { b.cache with decoded := b.cache.decoded + 1 } }
          | .error failure =>
            E ((failure.error.withEntry (Archive.Path.ofClass name)).withClass name)
            { b with world := w })
        (fun e w => E ((e.withEntry (Archive.Path.ofClass name)).withClass name)
          { b with world := w })) :
    (src.load name).Ensures b Q E := by
  rw [load]
  split
  · rename_i hholder
    exact ensures_pure.mpr (hnone hholder)
  · rename_i reader hholder
    refine Ensures.bind (ensures_mapError.mpr (Ensures.bind (Bench.ensures_inWorld ?_)))
    refine (hread reader hholder).mono ?_ fun _ _ => id
    intro data w h
    refine ClassFile.ensures_load ?_ ?_
    · intro c hc
      rw [hc] at h
      refine Ensures.bind (Bench.ensures_modifyCache ?_)
      split
      · exact Ensures.bind (ensures_note.mpr (Ensures.bind (ensures_note.mpr (ensures_pure.mpr h))))
      · exact Ensures.bind (ensures_note.mpr (ensures_pure.mpr h))
    · intro failure hfailure
      rw [hfailure] at h
      exact h

/-- The steps of repairing a class. -/
theorem ensures_repairClass {s : Summary} {Q : Bytes × Summary → Bench σ → Prop}
    {E : Error → Bench σ → Prop}
    (h : (src.find name).Ensures b
      (fun found b₁ =>
        match found with
        | none => E ((Error.internal "no class model found for known entry").withClass name) b₁
        | some c => b₁.class? name = some c ∧ ClassFile.realign.Ensures c
          (fun n c₁ => (inheritedSignatures src c₁).Ensures (b₁.remember name c₁)
            (fun inherited b₂ => b₂.class? name = some c₁ ∧
              (ClassFile.markOverrides r inherited).Ensures c₁
                (fun k c₂ =>
                  match c₂.encode with
                  | .ok data =>
                    Q (data, { s with realigned := s.realigned + n, marked := s.marked + k })
                      (b₂.remember name c₂)
                  | .error e => E e (b₂.remember name c₂))
                (fun e c₂ => E e (b₂.remember name c₂)))
            (fun e b₂ => E (e.withClass c₁.name) b₂))
          (fun e c₁ => E e (b₁.remember name c₁))) E) :
    (repairClass src r name s).Ensures b Q E := by
  refine Ensures.bind (h.mono ?_ fun _ _ => id)
  intro found b₁ h₁
  cases found with
  | none => exact ensures_throw.mpr h₁
  | some c =>
    obtain ⟨hc, hrealign⟩ := h₁
    refine Ensures.bind (Bench.ensures_edit hc (hrealign.mono ?_ fun _ _ => id))
    intro n c₁ hclimb
    refine Ensures.bind (ensures_state.mpr ?_)
    rw [Bench.class?_remember, Option.getD_some]
    refine Ensures.bind (Ensures.bind (ensures_mapError.mpr (hclimb.mono ?_ fun _ _ => id)))
    rintro inherited b₂ ⟨hc₁, hmarks⟩
    refine Bench.ensures_edit hc₁ (hmarks.mono ?_ fun _ _ => id)
    intro k c₂ hwrite
    refine Ensures.bind (ensures_state.mpr ?_)
    rw [Bench.class?_remember, Option.getD_some]
    refine Ensures.bind (ClassFile.ensures_store ?_ ?_)
    · intro data hdata
      rw [hdata] at hwrite
      exact ensures_pure.mpr hwrite
    · intro e he
      rw [he] at hwrite
      exact hwrite

/-! ## Entries -/

open Archive (Writer Entry)

variable {output : Writer σ}

/-- A directory is added, a class is repaired and added, any other file is fetched and added. -/
theorem ensures_repairEntry {e : Entry} {s : Summary} {Q : Summary → Bench σ → Prop}
    {E : Error → Bench σ → Prop}
    (hdirectory : e.kind = .directory → (output.addDirectory e.path).Ensures b.world
      (fun _ w => Q { s with directories := s.directories + 1 } { b with world := w })
      (fun err w => E err { b with world := w }))
    (hclass : e.kind = .file → e.path.isClass = true →
      (repairClass src r e.path.className s).Ensures b
        (fun x b' => (output.addFile e.path x.1).Ensures b'.world
          (fun _ w => Q { x.2 with classes := x.2.classes + 1 } { b' with world := w })
          (fun err w => E err { b' with world := w })) E)
    (hresource : e.kind = .file → e.path.isClass = false →
      (src.primary.read e.path).Ensures b.world
        (fun data w => (output.addFile e.path data).Ensures w
          (fun _ w => Q { s with resources := s.resources + 1 } { b with world := w })
          (fun err w => E err { b with world := w }))
        (fun err w => E err { b with world := w })) :
    (repairEntry src r output s e).Ensures b Q E := by
  rw [repairEntry]
  split
  · rename_i hkind
    refine Ensures.bind (Bench.ensures_inWorld ((hdirectory hkind).mono ?_ fun _ _ => id))
    exact fun _ _ hQ => ensures_pure.mpr hQ
  · rename_i hkind
    split
    · rename_i hpath
      refine Ensures.bind ((hclass hkind hpath).mono ?_ fun _ _ => id)
      rintro ⟨data, s'⟩ b' hadd
      refine Ensures.bind (Bench.ensures_inWorld (hadd.mono ?_ fun _ _ => id))
      exact fun _ _ hQ => Ensures.bind (ensures_note.mpr (ensures_pure.mpr hQ))
    · rename_i hpath
      refine Ensures.bind (Bench.ensures_inWorld ?_)
      refine (hresource hkind (eq_false_of_ne_true hpath)).mono ?_ fun _ _ => id
      intro data w hadd
      refine Ensures.bind (Bench.ensures_inWorld (hadd.mono ?_ fun _ _ => id))
      exact fun _ _ hQ => ensures_pure.mpr hQ

/-- What each entry keeps holds after the run, which reports the counts of its cache. -/
theorem ensures_repair_report {I : List Entry → Summary → Bench σ → Prop}
    {E : Error → Bench σ → Prop}
    (hstep : ∀ done e rest s b, src.primary.entries = done ++ e :: rest → I done s b →
      (repairEntry src r output s e).Ensures b (I (done ++ [e])) fun err =>
        E (err.withEntry e.path))
    (h : I [] {} b) :
    (repair src r output).Ensures b
      (fun report b' => ∃ summary, I src.primary.entries summary b' ∧
        report = { summary, cache := b'.cache.stats }) E := by
  refine Ensures.bind ((Ensures.foldlM (I := I) ?_ h).mono ?_ fun _ _ => id)
  · intro done e rest s b hentries hI
    exact ensures_mapError.mpr (hstep done e rest s b hentries hI)
  · intro summary b' hI
    refine Ensures.bind (ensures_state.mpr (Ensures.bind (ensures_note.mpr (ensures_pure.mpr ?_))))
    exact ⟨summary, hI, rfl⟩

/-- What each entry keeps holds after the run. -/
theorem ensures_repair {I : List Entry → Summary → Bench σ → Prop} {E : Error → Bench σ → Prop}
    (hstep : ∀ done e rest s b, src.primary.entries = done ++ e :: rest → I done s b →
      (repairEntry src r output s e).Ensures b (I (done ++ [e])) fun err =>
        E (err.withEntry e.path))
    (h : I [] {} b) :
    (repair src r output).Ensures b (fun report => I src.primary.entries report.summary) E := by
  refine (ensures_repair_report hstep h).mono ?_ fun _ _ => id
  rintro _ b' ⟨summary, hI, rfl⟩
  exact hI

end Repair

end JarRepair
