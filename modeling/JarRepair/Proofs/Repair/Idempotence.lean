import JarRepair.Proofs.Repair.Answers
import JarRepair.Proofs.Repair.Frame

/-! # Repairing once is enough

A first run writes settled classes. They are repairs of the classes that were read, so in a second
run every name is answered as before as far as its heirs can see; each class then inherits what it
did, and is written as it is. -/

namespace JarRepair.Repair

open JarRepair.Task
open Archive (Collected Entry Memory Path Reader Writer)
open ClassFile (Resolver Settled decode decode_eq_ok_iff)

variable {look look' : Path → Option (Option Bytes)} {r : Resolver} {name : Bytes}
  {c c' : ClassFile}

/-! ## What a first run writes -/

theorem Inherits.of_repaired {kin : Bytes → Option ClassFile.Kin} {signature : Bytes}
    (h : c.Repaired c') (hinherits : Inherits kin c' signature) : Inherits kin c signature := by
  obtain ⟨name, k, hname, hk, hmem⟩ := hinherits
  exact ⟨name, k, hname.congr h.kin_eq.symm h.name_eq.symm, hk, hmem⟩

theorem Told.of_repaired (h : c.Repaired c') (htold : Told look c) : Told look c' :=
  fun name hname => htold name (hname.congr h.kin_eq.symm h.name_eq.symm)

/-- A class is settled, and what it inherits can be told. -/
structure Done (look : Path → Option (Option Bytes)) (r : Resolver) (c : ClassFile) : Prop where
  settled : c.Settled r (Inherits (kinOf look) c)
  told : Told look c

/-- What a run writes for a file: of a class a repair that is done, of any other file the
content. -/
def Written (look : Path → Option (Option Bytes)) (r : Resolver) (p : Path) (data : Bytes) : Prop :=
  if p.isClass then
    ∃ c₀ c, answer look p.className = some (some c₀) ∧ c₀.Repaired c ∧ decode data = .ok c ∧
      Done look r c
  else look p = some (some data)

section

variable {σ : Type} {src : Sources σ}

/-- A slot holds a repair of what is answered for its name. -/
theorem Mended.exists_answer {slot : Option ClassFile} (h : Mended (Answered look) name slot) :
    ∃ found, answer look name = some found ∧ Option.Rel ClassFile.Repaired found slot := by
  obtain ⟨found, hfound, hrel⟩ := h.exists_rel
  exact ⟨found, hfound.symm, hrel⟩

theorem Mended.map_kin_eq {slot : Option ClassFile} (h : Mended (Answered look) name slot) :
    slot.map ClassFile.kin = kinOf look name := by
  obtain ⟨found, hanswer, hrel⟩ := h.exists_answer
  exact map_kin_eq_kinOf hanswer hrel

theorem Mended.mem_names {slot : Option ClassFile} (h : Mended (Answered look) name slot)
    (hshows : src.Shows look) (hsome : slot.isSome = true) : name ∈ src.names := by
  obtain ⟨found, hanswer, hrel⟩ := h.exists_answer
  exact hshows.mem_names_of_rel hanswer hrel hsome

theorem ensures_repairClass_done (hr : r.Stable) (h : src.Shows look) {b : Bench σ}
    (hb : b.cache.Holds (Mended (Answered look))) (name : Bytes) (s : Summary) :
    (repairClass src r name s).Ensures b
      (fun x b' => b'.cache.Holds (Mended (Answered look)) ∧ b'.world = b.world ∧
        ∃ c₀ c, answer look name = some (some c₀) ∧ c₀.Repaired c ∧ decode x.1 = .ok c ∧
        Done look r c)
      (fun _ _ => True) := by
  refine (ensures_repairClass_mended (h.loads b.world) (fun _ _ => Answered.wellFormed)
    (H := fun c inherited =>
      (∀ signature, signature ∈ inherited ↔ Inherits (kinOf look) c signature) ∧
      Told look c) (G := Done look r) ?_ ?_ ⟨rfl, hb⟩ name s).mono ?_ fun _ _ => id
  · rintro c b₁ ⟨hworld, hcache⟩
    rw [← hworld]
    exact (h.ensures_inheritedSignatures (mended_of_answer fun _ _ => Answered.wellFormed)
      (fun _ _ => Mended.exists_answer) ⟨rfl, hcache⟩ c).mono (fun _ _ => id) fun _ _ _ => trivial
  · rintro c inherited hc haligned ⟨hinherited, htold⟩
    refine (haligned.ensures_markOverrides hr hc hinherited).mono ?_ fun _ _ => id
    rintro n c' ⟨-, hrepaired, hsettled⟩
    exact ⟨⟨hsettled.aligned, fun k m hm heligible hinherits =>
      hsettled.marked k m hm heligible (hinherits.of_repaired hrepaired)⟩,
      htold.of_repaired hrepaired⟩
  · rintro x b' ⟨hb', c₀, c, hanswer, hrepaired, hc, hwrite, hdone⟩
    exact ⟨hb'.cache, hb'.world, c₀, c, hanswer.symm, hrepaired, decode_eq_ok_iff.mpr ⟨hc, hwrite⟩,
      hdone⟩

/-- A run adds each entry, repaired if it is a class. What the output keeps at such steps holds
after it. -/
theorem ensures_repair_written {output : Writer σ} {first : Path → Option (Option Bytes)}
    (hr : r.Stable) (h : src.Shows look) (hprimary : src.primary.Shows first)
    (hlook : ∀ p x, first p = some x → look p = some x)
    (hlisted : ∀ e ∈ src.primary.entries, e.kind = .file → src.primary.contains e.path = true)
    {I : List Entry → σ → Prop}
    (hdirectory : ∀ done p w, I done w → (output.addDirectory p).Ensures w
      (fun _ => I (done ++ [{ path := p, kind := .directory }])) fun _ _ => True)
    (hfile : ∀ done p data w, Written look r p data → I done w → (output.addFile p data).Ensures w
      (fun _ => I (done ++ [{ path := p, kind := .file }])) fun _ _ => True)
    {w : σ} (hw : I [] w) :
    (repair src r output).Ensures { world := w } (fun _ b => I src.primary.entries b.world)
      fun _ _ => True := by
  refine (ensures_repair (I := fun done _ b => b.cache.Holds (Mended (Answered look)) ∧
    I done b.world) ?_
    ⟨Cache.holds_empty, hw⟩).mono (fun _ _ => And.right) fun _ _ => id
  rintro done ⟨p, kind⟩ rest s b hentries ⟨hcache, hI⟩
  have he : ⟨p, kind⟩ ∈ src.primary.entries := by
    rw [hentries]
    exact List.mem_append_right done List.mem_cons_self
  refine ensures_repairEntry ?_ ?_ ?_
  · rintro ⟨⟩
    exact (hdirectory done p b.world hI).mono (fun _ _ h => ⟨hcache, h⟩) fun _ _ => id
  · rintro ⟨⟩ hclass
    refine (ensures_repairClass_done hr h hcache p.className s).mono ?_ fun _ _ => id
    rintro ⟨data, s'⟩ b' ⟨hcache', hworld, hdone⟩
    have hdata : Written look r p data := by
      rw [Written, if_pos hclass]
      exact hdone
    rw [← hworld] at hI
    exact (hfile done p data b'.world hdata hI).mono (fun _ _ h => ⟨hcache', h⟩) fun _ _ => id
  · rintro ⟨⟩ hresource
    have hcontains := hlisted _ he rfl
    rw [hprimary.contains, Option.isSome_iff_exists] at hcontains
    obtain ⟨x, hx⟩ := hcontains
    refine (hprimary.read p x hx b.world).mono ?_ fun _ _ _ => trivial
    rintro data _ ⟨rfl, rfl⟩
    have hdata : Written look r p data := by
      rw [Written, if_neg (by simp [show Path.isClass p = false from hresource])]
      exact hlook p _ hx
    exact (hfile done p data b.world hdata hI).mono (fun _ _ h => ⟨hcache, h⟩) fun _ _ => id

end

/-- A run copies each entry, repaired if it is a class. -/
theorem copies_of_repair {primary : Reader Collected} {fallback : Option (Reader Collected)}
    {content : Path → Option Bytes} (hr : r.Stable) (h : Sources.Shows { primary, fallback } look)
    (hprimary : primary.Shows fun p => (content p).map some)
    (hlook : ∀ p data, content p = some data → look p = some (some data))
    (hlisted : ∀ e ∈ primary.entries, e.kind = .file → primary.contains e.path = true)
    {notes : Array Log.Note} {report : Report} {s' : Traced (Bench Collected)}
    (hrun : repair { primary, fallback } r Collected.writer { state := { world := {} }, notes } =
      (.ok report, s')) :
    s'.state.world.Copies (Written look r) primary.entries := by
  refine (ensures_repair_written hr h hprimary ?_ hlisted
    (I := Collected.Copies (Written look r)) ?_ ?_ Collected.copies_empty).of_ok hrun
  · intro p x hx
    obtain ⟨data, hdata, rfl⟩ := Option.map_eq_some_iff.mp hx
    exact hlook p data hdata
  · exact fun done p w hcopies => hcopies.ensures_addDirectory
  · exact fun done p data w hdata hcopies => hcopies.ensures_addFile hdata fun _ => trivial

/-! ## What a second run reads -/

/-- The files of a container over those of a fallback. -/
def layered (content : Path → Option Bytes) (second : Path → Option (Option Bytes)) (p : Path) :
    Option (Option Bytes) :=
  ((content p).map some).or (second p)

variable {content files : Path → Option Bytes} {second : Path → Option (Option Bytes)}

theorem layered_eq_some {p : Path} {data : Bytes} (h : content p = some data) :
    layered content second p = some (some data) := by
  rw [layered, h, Option.map_some, Option.some_or]

theorem layered_eq_second {p : Path} (h : content p = none) :
    layered content second p = second p := by
  rw [layered, h, Option.map_none, Option.none_or]

theorem answer_congr (h : look' (Path.ofClass name) = look (Path.ofClass name)) :
    Option.Rel (Option.Rel ClassFile.Repaired) (answer look name) (answer look' name) := by
  have heq : answer look' name = answer look name := by rw [answer, h, answer]
  rw [heq]
  rcases answer look name with _ | _ | c
  · exact .none
  · exact .some .none
  · exact .some (.some (.refl c))

theorem answer_of_decode {data : Bytes} (h : look (Path.ofClass name) = some (some data))
    (hread : decode data = .ok c) : answer look name = some (some c) := by
  rw [answer, h]
  simp only [hread, Except.toOption, Option.map_some]

/-- Over the same fallback, names are answered as before by what was written for the same paths. -/
theorem agree_of_written (hfiles : ∀ p, (files p).isSome = (content p).isSome)
    (hwritten : ∀ p data, files p = some data → Written (layered content second) r p data) :
    Agree (layered content second) (layered files second) := by
  intro name
  have hsame := hfiles (Path.ofClass name)
  cases hfile : files (Path.ofClass name) with
  | none =>
    rw [hfile, Option.isSome_none, eq_comm, Option.isSome_eq_false_iff, Option.isNone_iff_eq_none]
      at hsame
    exact answer_congr (by rw [layered_eq_second hfile, layered_eq_second hsame])
  | some data =>
    have hdata := hwritten _ data hfile
    rw [Written] at hdata
    split at hdata
    · rename_i hclass
      obtain ⟨c₀, c, hanswer, hrepaired, hread, -⟩ := hdata
      rw [Path.ofClass_injective (Path.ofClass_className hclass)] at hanswer
      rw [hanswer, answer_of_decode (layered_eq_some hfile) hread]
      exact .some (.some hrepaired)
    · exact answer_congr (by rw [layered_eq_some hfile, hdata])

theorem Done.of_agree (h : Agree look look') (hdone : Done look r c) : Done look' r c where
  settled := h.kinOf_eq ▸ hdone.settled
  told name hname := by
    rw [h.kinOf_eq] at hname
    rw [h.isSome_eq]
    exact hdone.told name hname

/-! ## What a second run writes -/

section

variable {σ : Type} {src : Sources σ}

/-- A slot holds what was loaded for its name, as it was. -/
def Kept (look : Path → Option (Option Bytes)) (name : Bytes) (slot : Option ClassFile) : Prop :=
  answer look name = some slot

/-- A class that is done is written as it is. -/
theorem ensures_repairClass_of_done (h : src.Shows look) {data : Bytes}
    (hfile : look (Path.ofClass name) = some (some data)) (hread : decode data = .ok c)
    (hdone : Done look r c) {b : Bench σ} (hb : b.cache.Holds (Kept look)) (s : Summary) :
    (repairClass src r name s).Ensures b
      (fun x b' => b'.cache.Holds (Kept look) ∧ b'.world = b.world ∧ x = (data, s))
      (fun _ _ => False) := by
  obtain ⟨hc, hwrite⟩ := decode_eq_ok_iff.mp hread
  have hanswer : answer look name = some (some c) := answer_of_decode hfile hread
  have hkept (name : Bytes) (found : Option ClassFile) (hfound : Answered look name (.ok found)) :
      Kept look name found := hfound.symm
  refine ensures_repairClass (((h.loads b.world).ensures_find hkept ⟨rfl, hb⟩ name).mono ?_ ?_)
  · rintro found b₁ ⟨hb₁, hslot⟩
    obtain rfl : found = some c := Option.some.inj ((hb₁.cache name found hslot).symm.trans hanswer)
    refine ⟨Bench.class?_eq_some_iff.mpr hslot, hdone.settled.aligned.ensures_realign ?_⟩
    have hb₂ := hb₁.toSound.remember hanswer
    have hworld : (b₁.remember name c).world = b.world := hb₂.world
    refine (h.ensures_inheritedSignatures hkept ?_ ⟨rfl, hb₂.cache⟩ c).mono ?_ ?_
    · intro name slot hslot
      exact ⟨slot,
        hslot, by cases slot with | none => exact .none | some c => exact .some (.refl c)⟩
    · rintro inherited b₃ ⟨hb₃, hinherited, -⟩
      refine ⟨hb₃.class? Bench.class?_remember, ?_⟩
      refine (hdone.settled.ensures_markOverrides hinherited).mono ?_ fun _ _ => False.elim
      rintro _ _ ⟨rfl, rfl⟩
      rw [hwrite]
      exact ⟨(hb₃.toSound.remember hanswer).cache, hb₃.world.trans hworld, rfl⟩
    · exact fun _ _ hnot => hnot hdone.told
  · rintro e b₁ ⟨-, herror⟩
    rw [Answered, hanswer] at herror
    simp [Except.toOption] at herror

/-- Where all classes are done, a run repairs nothing and adds each entry as it is. What the output
keeps at such steps holds after it. -/
theorem ensures_repair_unchanged {output : Writer σ} {F : Path → Bytes → Prop} (h : src.Shows look)
    (hlook : ∀ p data, F p data → look p = some (some data))
    (hdone : ∀ p data, F p data → p.isClass = true → ∃ c, decode data = .ok c ∧ Done look r c)
    (hgives : ∀ e ∈ src.primary.entries, e.kind = .file →
      ∃ data, F e.path data ∧ src.primary.Gives e.path data)
    {I : List Entry → σ → Prop}
    (hdirectory : ∀ done p rest w,
      src.primary.entries = done ++ { path := p, kind := .directory } :: rest →
      I done w → (output.addDirectory p).Ensures w
        (fun _ => I (done ++ [{ path := p, kind := .directory }])) fun _ _ => False)
    (hfile : ∀ done p rest data w,
      src.primary.entries = done ++ { path := p, kind := .file } :: rest →
      F p data → I done w → (output.addFile p data).Ensures w
        (fun _ => I (done ++ [{ path := p, kind := .file }])) fun _ _ => False)
    {w : σ} (hw : I [] w) :
    (repair src r output).Ensures { world := w }
      (fun report b => report.summary.marked = 0 ∧ report.summary.realigned = 0 ∧
        I src.primary.entries b.world)
      (fun _ _ => False) := by
  refine (ensures_repair (I := fun done s b => b.cache.Holds (Kept look) ∧ s.marked = 0 ∧
    s.realigned = 0 ∧ I done b.world) ?_ ⟨Cache.holds_empty, rfl, rfl, hw⟩).mono (fun _ _ =>
      And.right) fun _ _ => id
  rintro done ⟨p, kind⟩ rest s b hentries ⟨hcache, hmarked, hrealigned, hI⟩
  have he : ⟨p, kind⟩ ∈ src.primary.entries := by
    rw [hentries]
    exact List.mem_append_right done List.mem_cons_self
  refine ensures_repairEntry ?_ ?_ ?_
  · rintro ⟨⟩
    exact (hdirectory done p rest b.world hentries hI).mono
      (fun _ _ h => ⟨hcache, hmarked, hrealigned, h⟩) fun _ _ => id
  · rintro ⟨⟩ hclass
    obtain ⟨data, hdata, -⟩ := hgives _ he rfl
    obtain ⟨c, hread, hc⟩ := hdone p data hdata hclass
    have hname : look (Path.ofClass p.className) = some (some data) := by
      rw [Path.ofClass_className hclass]
      exact hlook p data hdata
    refine (ensures_repairClass_of_done h hname hread hc hcache s).mono ?_ fun _ _ => id
    rintro _ b' ⟨hcache', hworld, rfl⟩
    rw [← hworld] at hI
    exact (hfile done p rest data b'.world hentries hdata hI).mono
      (fun _ _ h => ⟨hcache', hmarked, hrealigned, h⟩) fun _ _ => id
  · rintro ⟨⟩ -
    obtain ⟨data, hdata, hread⟩ := hgives _ he rfl
    refine (hread b.world).mono ?_ fun _ _ => False.elim
    rintro _ _ ⟨rfl, rfl⟩
    exact (hfile done p rest _ b.world hentries hdata hI).mono
      (fun _ _ h => ⟨hcache, hmarked, hrealigned, h⟩) fun _ _ => id

end

/-- Where all classes are done, a run repairs nothing and copies each entry. -/
theorem ensures_repair_of_done {again : Reader Collected} {fallback : Option (Reader Collected)}
    {files : Std.TreeMap Path Bytes} {directories : List Path}
    (hagain : again.MadeOf files directories)
    (h : Sources.Shows { primary := again, fallback } look)
    (hlook : ∀ (p : Path) data, files[p]? = some data → look p = some (some data))
    (hdone : ∀ (p : Path) data, files[p]? = some data → p.isClass = true →
      ∃ c, decode data = .ok c ∧ Done look r c) :
    (repair { primary := again, fallback } r Collected.writer).Ensures { world := {} }
      (fun report b => report.summary.marked = 0 ∧ report.summary.realigned = 0 ∧
        b.world.Copies (fun p data => files[p]? = some data) again.entries)
      (fun _ _ => False) := by
  refine ensures_repair_unchanged (F := fun p data => files[p]? = some data) h hlook hdone ?_ ?_ ?_
    Collected.copies_empty
  · rintro ⟨p, _⟩ he ⟨⟩
    rw [hagain.mem_entries_iff, Std.TreeMap.contains_eq_isSome_getElem?, Option.isSome_iff_exists]
      at he
    obtain ⟨data, hdata⟩ := he
    exact ⟨data, hdata, hagain.gives p data hdata⟩
  · exact fun done p rest w _ hcopies => hcopies.ensures_addDirectory
  · exact fun done p rest data w hentries hdata hcopies =>
      hcopies.ensures_addFile hdata fun htwice => hagain.not_mem_of_entries_eq hentries htwice

/-! ## Two runs -/

theorem exists_fallback {σ : Type} {fallback : Option (Reader σ)}
    (h : ∀ reader ∈ fallback, reader.Steady) :
    ∃ second : Path → Option (Option Bytes), (∀ reader ∈ fallback, reader.Shows second) ∧
      (fallback = none → ∀ p, second p = none) := by
  cases fallback with
  | none => exact ⟨fun _ => none, by simp, fun _ _ => rfl⟩
  | some reader =>
    obtain ⟨second, hsecond⟩ := (h reader rfl).exists_shows
    refine ⟨second, ?_, by simp⟩
    rintro _ ⟨⟩
    exact hsecond

/-- A second run, over what a first one has written, succeeds, repairs nothing and writes the
same. -/
theorem repair_again {primary again : Reader Collected} {fallback : Option (Reader Collected)}
    (hr : r = .bridge ∨ r = .identity) (hprimary : primary.Exact)
    (hfallback : ∀ reader ∈ fallback, reader.Steady) {notes : Array Log.Note} {report : Report}
    {s' : Traced (Bench Collected)}
    (hrun : repair { primary, fallback } r Collected.writer { state := { world := {} }, notes } =
      (.ok report, s'))
    (hagain : again.MadeOf s'.state.world.files s'.state.world.directories.toList)
    (notes' : Array Log.Note) :
    ∃ report' s'', repair { primary := again, fallback } r Collected.writer
        { state := { world := {} }, notes := notes' } = (.ok report', s'') ∧
      report'.summary.marked = 0 ∧ report'.summary.realigned = 0 ∧
      (∀ p : Path, s''.state.world.files[p]? = s'.state.world.files[p]?) ∧
      s''.state.world.directories.toList.Perm s'.state.world.directories.toList := by
  have hstable : r.Stable := by
    rcases hr with rfl | rfl
    · exact Resolver.stable_bridge
    · exact Resolver.stable_identity
  obtain ⟨content, hcontent⟩ := hprimary.exists_shows
  obtain ⟨second, hsecond, hnone⟩ := exists_fallback hfallback
  have hfirst : s'.state.world.Copies (Written (layered content second) r) primary.entries :=
    copies_of_repair hstable (Sources.shows hcontent hsecond hnone) hcontent
      (fun _ _ => layered_eq_some)
      (fun e he hkind => (hprimary.contains_iff e.path).mpr (by rwa [← hkind])) hrun
  have hsame (p : Path) : (s'.state.world.files[p]?).isSome = (content p).isSome := by
    rw [← Std.TreeMap.contains_eq_isSome_getElem?, Bool.eq_iff_iff, hfirst.listed,
      ← hprimary.contains_iff, hcontent.contains, Option.isSome_map]
  have hagree := agree_of_written hsame hfirst.content
  have hdone (p : Path) (data : Bytes) (hdata : s'.state.world.files[p]? = some data)
      (hclass : p.isClass = true) :
      ∃ c, decode data = .ok c ∧ Done (layered (s'.state.world.files[·]?) second) r c := by
    have hwritten := hfirst.content p data hdata
    rw [Written, if_pos hclass] at hwritten
    obtain ⟨_, c, -, -, hread, hc⟩ := hwritten
    exact ⟨c, hread, hc.of_agree hagree⟩
  obtain ⟨report', s'', hrun', hmarked, hrealigned, hcopies⟩ := (ensures_repair_of_done hagain
    (Sources.shows hagain.shows hsecond hnone) (fun _ _ => layered_eq_some) hdone).exists_ok notes'
  exact ⟨report', s'', hrun', hmarked, hrealigned, hcopies.eq_of_madeOf hagain⟩

theorem repair_again_twoClasses : ∃ report s',
    repair { primary := twoClasses.reader [], fallback := some (twoClasses.reader []) } .bridge
      Collected.writer { state := { world := {} } } = (.ok report, s') ∧ report.summary.marked = 2 ∧
    ∃ report' s'', repair
        { primary := s'.state.world.toMemory.reader [], fallback := some (twoClasses.reader []) }
          .bridge
        Collected.writer { state := { world := {} } } = (.ok report', s'') ∧
      report'.summary.marked = 0 ∧ report'.summary.realigned = 0 ∧
      (∀ p : Path, s''.state.world.files[p]? = s'.state.world.files[p]?) ∧
      s''.state.world.directories.toList.Perm s'.state.world.directories.toList := by
  have hfirst : (repair { primary := twoClasses.reader [], fallback := some (twoClasses.reader []) }
        .bridge Collected.writer { state := { world := {} } }).1.toOption.map (·.summary.marked) =
          some 2 ∧
      (repair { primary := twoClasses.reader [], fallback := some (twoClasses.reader []) }
        .bridge Collected.writer { state := { world := {} } }).2.state.world.Complete := by
    rw [reader_twoClasses]
    decide +kernel
  rcases hrun : repair { primary := twoClasses.reader [], fallback := some (twoClasses.reader []) }
    .bridge Collected.writer { state := { world := {} } } with ⟨e | report, s'⟩
  · simp [hrun, Except.toOption] at hfirst
  · rw [hrun] at hfirst
    have hsteady : ∀ reader ∈ some (twoClasses.reader [] : Reader Collected), reader.Steady := by
      rintro _ ⟨⟩
      exact Memory.steady_reader
    exact ⟨report, s', rfl, by simpa [Except.toOption] using hfirst.1,
      repair_again (.inl rfl) Memory.exact_reader hsteady hrun hfirst.2.madeOf_reader #[]⟩

end JarRepair.Repair
