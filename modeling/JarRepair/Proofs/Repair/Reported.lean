import Mathlib.Data.Finset.Card
import Mathlib.Data.Set.Card
import JarRepair.Proofs.ClassFile.RepairCounts
import JarRepair.Proofs.Repair.Shares

/-! # What a run reports

The counts of a run are kept while classes are looked up, repaired and written; a class may be
looked up long before its own entry is repaired, and often after that. All the same they can be told
from outside: the repairs from the class files that were read and written, the lookups from the
names for which the cache has a class in the end, whichever containers these came from. -/

namespace JarRepair.Repair

open JarRepair.Task
open Archive (Collected Entry Memory Path Reader Writer)
open ClassFile (Resolver decode decode_eq_ok_iff)

variable {σ : Type} {src : Sources σ} {name : Bytes} {b : Bench σ}

/-! ## Counts of a cache -/

/-- The counts are those of the slots. -/
structure Cache.Counted (cache : Cache) (names : Finset Bytes) : Prop where
  known : ∀ name : Bytes, name ∈ names ↔ name ∈ cache.slots
  total : cache.slots.size = names.card
  misses : cache.misses = names.card
  decoded : cache.decoded = (names.filter fun name => cache.slots[name]?.join.isSome).card
  unresolved : cache.unresolved = (names.filter fun name => cache.slots[name]?.join.isNone).card

namespace Cache.Counted

variable {cache cache' : Cache} {names : Finset Bytes}

theorem empty : Counted {} ∅ where
  known name := by simp
  total := rfl
  misses := rfl
  decoded := rfl
  unresolved := rfl

theorem hit (h : cache.Counted names) : cache.hit.Counted names :=
  ⟨h.known, h.total, h.misses, h.decoded, h.unresolved⟩

theorem learn (h : cache.Counted names) (hnew : cache.slots[name]? = none)
    (found : Option ClassFile) :
    (cache.learn name found).Counted (insert name names) := by
  have hname : name ∉ names := by
    rw [h.known, Std.TreeMap.mem_iff_isSome_getElem?, hnew]
    simp
  have hcard := Finset.card_insert_of_notMem hname
  -- The slots of the other names are as before, so they are counted as before.
  have hcount (p : Option ClassFile → Bool) :
      ((insert name names).filter fun name' => p (cache.learn name found).slots[name']?.join).card =
        (names.filter fun name' => p cache.slots[name']?.join).card + (p found).toNat := by
    have hsame : (names.filter fun name' => p (cache.learn name found).slots[name']?.join) =
        names.filter fun name' => p cache.slots[name']?.join := by
      refine Finset.filter_congr fun name' hname' => ?_
      rw [Cache.learn, getElem?_insert, if_neg]
      rintro rfl
      exact hname hname'
    rw [Finset.filter_insert, hsame, Cache.learn, getElem?_insert, if_pos rfl, Option.join_some]
    cases p found with
    | false => rfl
    | true => exact Finset.card_insert_of_notMem fun hmem => hname (Finset.mem_filter.mp hmem).1
  refine ⟨fun name' => ?_, ?_, ?_, ?_, ?_⟩
  · rw [Finset.mem_insert, h.known, Cache.learn, Std.TreeMap.mem_insert,
      Std.LawfulEqCmp.compare_eq_iff_eq, eq_comm]
  · rw [Cache.learn, Std.TreeMap.size_insert, Std.TreeMap.contains_eq_isSome_getElem?, hnew,
      h.total, hcard]
    rfl
  · rw [hcard, ← h.misses]
    rfl
  · rw [hcount Option.isSome, ← h.decoded]
    rfl
  · rw [hcount Option.isNone, ← h.unresolved]
    rfl

/-- Edits of a class leave it a class. -/
theorem edit (h : cache.Counted names) {c : ClassFile} (hc : cache.slots[name]? = some (some c))
    (c' : ClassFile) : Counted { cache with slots := cache.slots.insert name (some c') } names := by
  have hname : name ∈ cache.slots := by
    rw [Std.TreeMap.mem_iff_isSome_getElem?, hc, Option.isSome_some]
  have hsize : (cache.slots.insert name (some c')).size = cache.slots.size := by
    rw [Std.TreeMap.size_insert, if_pos (Std.TreeMap.mem_iff_contains.mp hname)]
  have hsome (name' : Bytes) :
      (cache.slots.insert name (some c'))[name']?.join.isSome =
        cache.slots[name']?.join.isSome := by
    rw [getElem?_insert]
    split
    · rename_i heq
      rw [← heq, hc, Option.join_some, Option.join_some, Option.isSome_some, Option.isSome_some]
    · rfl
  refine ⟨fun name' => ?_, hsize.trans h.total, h.misses, ?_, ?_⟩
  · rw [h.known, Std.TreeMap.mem_insert, Std.LawfulEqCmp.compare_eq_iff_eq]
    exact ⟨.inr, fun hname' => hname'.elim (fun heq => heq ▸ hname) id⟩
  · simp only [hsome, h.decoded]
  · simp only [← Option.not_isSome, hsome, h.unresolved]

theorem misses_eq (h : cache.Counted names) : cache.misses = cache.decoded + cache.unresolved := by
  rw [h.misses, h.decoded, h.unresolved]
  simp only [← Option.not_isSome, Bool.not_eq_true']
  simpa using (Finset.card_filter_add_card_filter_not (s := names)
    fun name => cache.slots[name]?.join.isSome = true).symm

end Cache.Counted

/-- The counts of a cache are those of its slots. -/
def Cache.IsCounted (cache : Cache) : Prop := ∃ names, cache.Counted names

/-- Whatever the containers give, a lookup that succeeds is counted. -/
theorem keeps_find_counted (src : Sources σ) (name : Bytes) :
    (src.find name).Keeps (fun b => b.cache.IsCounted) fun _ => True := by
  rintro b ⟨names, hb⟩
  refine Ensures.bind (ensures_state.mpr ?_)
  split
  · exact Ensures.bind (Bench.ensures_modifyCache (ensures_pure.mpr ⟨names, hb.hit⟩))
  · rename_i hnew
    have hlearn := hb.learn hnew
    refine Ensures.bind (Bench.ensures_modifyCache (Ensures.bind (Sources.ensures_load ?_ ?_)))
    · intro _
      refine Ensures.bind (Bench.ensures_modifyCache (Ensures.bind (ensures_note.mpr ?_)))
      exact Ensures.bind (Bench.ensures_modifyCache (ensures_pure.mpr ⟨_, hlearn none⟩))
    · intro reader _
      refine (ensures_any (reader.read _) b.world).mono (fun data w _ => ?_) fun _ _ _ => trivial
      split
      · rename_i c _
        exact Ensures.bind (Bench.ensures_modifyCache (ensures_pure.mpr ⟨_, hlearn (some c)⟩))
      · trivial

theorem keeps_inheritedSignatures_counted (src : Sources σ) (c : ClassFile) :
    (inheritedSignatures src c).Keeps (fun b => b.cache.IsCounted) fun _ => True :=
  (keeps_climb (keeps_find_counted src) _ _ _).bind fun _ => keeps_pure

theorem isCounted_remember (h : b.cache.IsCounted) {c : ClassFile} (hc : b.class? name = some c)
    (c' : ClassFile) : (b.remember name c').cache.IsCounted := by
  obtain ⟨names, hnames⟩ := h
  exact ⟨names, hnames.edit (Bench.class?_eq_some_iff.mp hc) c'⟩

/-! ## Repairs of a class -/

section

variable {content : Path → Bytes} {done : List Entry} {I : σ → Prop}

/-- A slot holds a repair of what was loaded for its name. If the name is listed and its entry is
not done, the slot holds the class in its file. -/
structure Awaited (src : Sources σ) (content : Path → Bytes) (done : List Entry) (name : Bytes)
    (slot : Option ClassFile) : Prop where
  mended : Mended (Listed src content) name slot
  untouched : { path := Path.ofClass name, kind := .file } ∈ src.primary.entries →
    { path := Path.ofClass name, kind := .file } ∉ done →
      ∃ c, decode (content (Path.ofClass name)) = .ok c ∧ slot = some c

theorem awaited_of_listed {found : Option ClassFile} (h : Listed src content name (.ok found)) :
    Awaited src content done name found :=
  ⟨mended_of_answer (fun _ _ => Listed.wellFormed) name found h, fun hlisted _ =>
    (h found rfl).2 hlisted⟩

theorem Awaited.add {slot : Option ClassFile} (h : Awaited src content done name slot) (e : Entry) :
    Awaited src content (done ++ [e]) name slot :=
  ⟨h.mended, fun hlisted hnew => h.untouched hlisted fun hmem =>
    hnew (List.mem_append_left [e] hmem)⟩

/-- The class of an entry that is done may be repaired. -/
theorem Awaited.of_repaired {c c' : ClassFile} (h : Awaited src content done name (some c))
    (hrepaired : c.Repaired c') (hc' : c'.WellFormed) {done' : List Entry}
    (hdone : { path := Path.ofClass name, kind := .file } ∈ done') :
    Awaited src content done' name (some c') where
  mended := by
    obtain ⟨c₀, hanswer, hrepaired₀, -⟩ := h.mended.exists_some
    exact ⟨some c₀, hanswer, .some ⟨hrepaired₀.trans hrepaired, hc'⟩⟩
  untouched _ hnew := absurd hdone hnew

/-- What is counted for a class is the difference between its file and what is written for it. -/
def Accounts (data data' : Bytes) (s s' : Summary) : Prop :=
  ∃ c c', decode data = .ok c ∧ decode data' = .ok c' ∧ c.Repaired c' ∧ s' = { s with
    realigned := s.realigned + c.shortenedSince c'
    marked := s.marked + c.markedSince c' }

/-- A class whose entry is not done is repaired from its file, whoever looked it up before. -/
theorem ensures_repairClass_accounts {r : Resolver} (hserves : src.primary.Serves content)
    (hkeep : src.Keep I I) {e : Entry} (he : e = { path := Path.ofClass name, kind := .file })
    (hlisted : e ∈ src.primary.entries) (hnew : e ∉ done)
    (hb : b.Sound I (Awaited src content done)) (hcounted : b.cache.IsCounted) (s : Summary) :
    (repairClass src r name s).Ensures b
      (fun x b' => b'.Sound I (Awaited src content (done ++ [e])) ∧ b'.cache.IsCounted ∧
        Accounts (content e.path) x.1 s x.2)
      (fun _ _ => True) := by
  subst he
  have hloads := loads_listed hserves hkeep
  have hfind := (hloads.ensures_find (fun _ _ => awaited_of_listed) hb name).and
    (keeps_find_counted src name b hcounted)
  refine ensures_repairClass (hfind.mono ?_ fun _ _ _ => trivial)
  rintro found b₁ ⟨⟨hb₁, hslot⟩, hcounted₁⟩
  have hawaited := hb₁.cache name found hslot
  obtain ⟨c₀, hread, rfl⟩ := hawaited.untouched hlisted hnew
  have hc₀ : c₀.WellFormed := (decode_eq_ok_iff.mp hread).1
  have hclass₁ : b₁.class? name = some c₀ := Bench.class?_eq_some_iff.mpr hslot
  -- From now on the slot holds an edited class: its entry counts as done.
  have hrepair {c : ClassFile} (hrepaired : c₀.Repaired c) (hc : c.WellFormed) :=
    hawaited.of_repaired hrepaired hc (List.mem_append_right done (List.mem_singleton_self _))
  have hb₁' : b₁.Sound I (Awaited src content (done ++ [⟨Path.ofClass name, .file⟩])) :=
    ⟨hb₁.world, fun name' slot' hslot' => (hb₁.cache name' slot' hslot').add _⟩
  refine ⟨hclass₁, (hc₀.ensures_realign_repaired.and hc₀.ensures_realign_counts).mono ?_
    fun _ _ _ => trivial⟩
  rintro n c₁ ⟨⟨hrepaired₁, hc₁, -⟩, rfl, hmarkers₁⟩
  have hclimb := (after_inheritedSignatures hloads (fun _ _ => awaited_of_listed)
    (hb₁'.remember (hrepair hrepaired₁ hc₁)) c₁).and
      (keeps_inheritedSignatures_counted src c₁ _ (isCounted_remember hcounted₁ hclass₁ c₁))
  refine hclimb.mono ?_ fun _ _ _ => trivial
  rintro inherited b₂ ⟨hb₂, hcounted₂⟩
  have hclass₂ := hb₂.class? Bench.class?_remember
  refine ⟨hclass₂, (hc₁.ensures_markOverrides_repaired.and
    (ClassFile.ensures_markOverrides_counts r inherited c₁)).mono ?_ fun _ _ _ => trivial⟩
  rintro k c₂ ⟨⟨hrepaired₂, hc₂⟩, hmarkers₂, hchannels⟩
  have hrepaired := hrepaired₁.trans hrepaired₂
  cases hwrite : c₂.encode with
  | error err => trivial
  | ok data =>
    refine ⟨hb₂.toSound.remember (hrepair hrepaired hc₂), isCounted_remember hcounted₂ hclass₂ c₂,
      c₀, c₂, hread, decode_eq_ok_iff.mpr ⟨hc₂, hwrite⟩, hrepaired, ?_⟩
    have hmarkers := hrepaired.markerCount_add_markedSince
    have hk : k = c₀.markedSince c₂ := by omega
    rw [hk, ClassFile.shortenedSince_congr hchannels]

end

/-! ## Entries -/

/-- Whether an entry is the file of a class. -/
def isClassEntry (e : Entry) : Bool := !e.isDirectory && e.path.isClass

theorem isClassEntry_iff {e : Entry} :
    isClassEntry e = true ↔ e.kind = .file ∧ e.path.isClass = true := by
  obtain ⟨p, kind⟩ := e
  cases kind <;> simp [isClassEntry, Entry.isDirectory]

section

variable {content : Path → Bytes} {v v' : Path → Option Bytes} {done : List Entry} {e : Entry}
  {s s' : Summary}

/-- The class in a file, and the class in the file that was written for it. -/
structure Compared (content : Path → Bytes) (v : Path → Option Bytes) (e : Entry)
    (x : ClassFile × ClassFile) :
    Prop where
  before : decode (content e.path) = .ok x.1
  after : ∃ data, v e.path = some data ∧ decode data = .ok x.2
  repaired : x.1.Repaired x.2

/-- The repairs that are counted are the differences between the classes. -/
structure Compares (content : Path → Bytes) (v : Path → Option Bytes) (entries : List Entry)
    (s : Summary) (classes : List (ClassFile × ClassFile)) : Prop where
  compared : List.Forall₂ (Compared content v) (entries.filter isClassEntry) classes
  realigned : s.realigned = (classes.map fun x => x.1.shortenedSince x.2).sum
  marked : s.marked = (classes.map fun x => x.1.markedSince x.2).sum

variable {classes : List (ClassFile × ClassFile)}

theorem compares_start (content : Path → Bytes) (v : Path → Option Bytes) :
    Compares content v [] {} [] :=
  ⟨.nil, rfl, rfl⟩

theorem Compares.mono (h : Compares content v done s classes)
    (hv : ∀ e ∈ done, isClassEntry e = true → v' e.path = v e.path) :
    Compares content v' done s classes where
  compared := by
    have hsame := (List.forall₂_and_left _ _).mpr ⟨fun e he => List.mem_filter.mp he, h.compared⟩
    refine hsame.imp fun e x ⟨he, hx⟩ => ⟨hx.before, ?_, hx.repaired⟩
    rw [hv e he.1 he.2]
    exact hx.after
  realigned := h.realigned
  marked := h.marked

/-- An entry that is no class counts no repairs. -/
theorem Compares.add_other (h : Compares content v done s classes) (he : isClassEntry e = false)
    (hrealigned : s'.realigned = s.realigned) (hmarked : s'.marked = s.marked) :
    Compares content v (done ++ [e]) s' classes where
  compared := by
    rw [List.filter_append, List.filter_cons, he]
    simpa using h.compared
  realigned := hrealigned.trans h.realigned
  marked := hmarked.trans h.marked

/-- A class counts the repairs that it has got. -/
theorem Compares.add_class (h : Compares content v done s classes) (he : isClassEntry e = true)
    {data : Bytes} (hdata : v e.path = some data)
    (haccounts : Accounts (content e.path) data s s') :
    ∃ x, Compares content v (done ++ [e]) s' (classes ++ [x]) := by
  obtain ⟨c, c', hread, hread', hrepaired, rfl⟩ := haccounts
  refine ⟨(c, c'), ?_, ?_, ?_⟩
  · rw [List.filter_append, List.filter_cons, if_pos he]
    exact List.rel_append h.compared (.cons ⟨hread, ⟨data, hdata, hread'⟩, hrepaired⟩ .nil)
  · rw [List.map_append, List.sum_append, ← h.realigned]
    simp
  · rw [List.map_append, List.sum_append, ← h.marked]
    simp

/-- Writing a class counts its repairs, and leaves the files of the entries that are done. -/
theorem Compares.write_class (h : Compares content v done s classes) (hkind : e.kind = .file)
    (hclass : e.path.isClass = true) (hnew : e ∉ done) {data : Bytes}
    (hv : ∀ p, v' p = if e.path = p then some data else v p)
    (haccounts : Accounts (content e.path) data s s') :
    ∃ x, Compares content v' (done ++ [e]) s' (classes ++ [x]) := by
  have hkept : Compares content v' done s classes := by
    refine h.mono fun e' he' hclass' => ?_
    rw [hv, if_neg]
    intro hsame
    have hkind' := (isClassEntry_iff.mp hclass').1
    obtain ⟨p, kind⟩ := e
    obtain ⟨p', kind'⟩ := e'
    obtain rfl : p = p' := hsame
    obtain rfl : kind = .file := hkind
    obtain rfl : kind' = .file := hkind'
    exact hnew he'
  exact hkept.add_class (isClassEntry_iff.mpr ⟨hkind, hclass⟩) (by rw [hv, if_pos rfl]) haccounts

/-- Writing what is no class leaves the files of the classes, and counts no repairs. -/
theorem Compares.write_other (h : Compares content v done s classes)
    (hclass : e.path.isClass = false) {data : Bytes}
    (hv : ∀ p, v' p = if e.path = p then some data else v p)
    (hrealigned : s'.realigned = s.realigned) (hmarked : s'.marked = s.marked) :
    Compares content v' (done ++ [e]) s' classes := by
  have hkept : Compares content v' done s classes := by
    refine h.mono fun e' _ hclass' => ?_
    rw [hv, if_neg]
    intro hsame
    rw [hsame, (isClassEntry_iff.mp hclass').2] at hclass
    simp at hclass
  exact hkept.add_other (by simp [isClassEntry, hclass]) hrealigned hmarked

end

/-! ## Runs -/

/-- A run reports the differences between what it read and what it wrote, and has counted its
cache. -/
theorem ensures_repair_compares {content : Path → Bytes} {written : σ → Path → Option Bytes}
    {r : Resolver} {output : Writer σ} (hserves : src.primary.Serves content)
    (hprimary : src.primary.Spares written)
    (hfallback : ∀ reader ∈ src.fallback, reader.Spares written) (hrecords : output.Records written)
    (hnodup : (src.primary.entries.filter (!·.isDirectory)).Nodup) (w : σ) :
    (repair src r output).Ensures { world := w }
      (fun report b => report.cache = b.cache.stats ∧ b.cache.IsCounted ∧
        ∃ classes, Compares content (written b.world) src.primary.entries report.summary classes)
      (fun _ _ => True) := by
  refine (ensures_repair_report (I := fun done s b => b.cache.Holds (Awaited src content done) ∧
    b.cache.IsCounted ∧ ∃ classes, Compares content (written b.world) done s classes) ?_
    ⟨Cache.holds_empty, ⟨∅, .empty⟩, [], compares_start content _⟩).mono ?_ fun _ _ => id
  · rintro done e rest s b hentries ⟨hcache, hcounted, classes, hdone⟩
    have hadd : b.cache.Holds (Awaited src content (done ++ [e])) :=
      fun name slot hslot => (hcache name slot hslot).add e
    refine ensures_repairEntry ?_ ?_ ?_
    · intro hkind
      refine (hrecords.addDirectory e.path b.world).mono ?_ fun _ _ _ => trivial
      intro _ w hw
      rw [← hw] at hdone
      exact ⟨hadd, hcounted, classes,
        hdone.add_other (by simp [isClassEntry, Entry.isDirectory, hkind]) rfl rfl⟩
    · intro hkind hclass
      have hname := Path.ofClass_className hclass
      have he : e = { path := Path.ofClass e.path.className, kind := .file } := by
        rw [hname, ← hkind]
      have hlisted : e ∈ src.primary.entries :=
        hentries ▸ List.mem_append_right done List.mem_cons_self
      have hnew : e ∉ done := Entry.not_mem_of_listed_once (hentries ▸ hnodup) hkind
      have hkeep := keep_of_spares hprimary hfallback (written b.world)
      refine (ensures_repairClass_accounts hserves hkeep he hlisted hnew
        ⟨rfl, hcache⟩ hcounted s).mono ?_
        fun _ _ => id
      rintro ⟨data, s'⟩ b' ⟨hb', hcounted', haccounts⟩
      rw [← hb'.world] at hdone
      refine (hrecords.addFile e.path data b'.world).mono ?_ fun _ _ _ => trivial
      intro _ w hw
      obtain ⟨x, hx⟩ := hdone.write_class hkind hclass hnew hw haccounts
      exact ⟨hb'.cache, hcounted', _, hx.compared, hx.realigned, hx.marked⟩
    · intro hkind hclass
      refine (hprimary e.path b.world).mono ?_ fun _ _ _ => trivial
      intro data w hwritten
      rw [← hwritten] at hdone
      refine (hrecords.addFile e.path data w).mono ?_ fun _ _ _ => trivial
      intro _ w' hw
      exact ⟨hadd, hcounted, classes, hdone.write_other hclass hw rfl rfl⟩
  · rintro _ b ⟨summary, ⟨-, hcounted, hclasses⟩, rfl⟩
    exact ⟨rfl, hcounted, hclasses⟩

/-! ## Names -/

section

variable {look : Path → Option (Option Bytes)} {fetch : Path → Except Error Bytes} {r : Resolver}

/-- A name that has to be looked up for these entries: that of a class, or one that the class
reaches. -/
def Needed (look : Path → Option (Option Bytes)) (entries : List Entry) (name : Bytes) : Prop :=
  ∃ e ∈ entries, isClassEntry e = true ∧ (name = e.path.className ∨
    ∃ c, answer look e.path.className = some (some c) ∧ Reaches (kinOf look) c name)

theorem needed_append_iff {done entries : List Entry} :
    Needed look (done ++ entries) name ↔ Needed look done name ∨ Needed look entries name := by
  simp only [Needed, List.mem_append, or_and_right, exists_or]

theorem not_needed_of_other {e : Entry} (he : isClassEntry e = false) : ¬ Needed look [e] name := by
  rintro ⟨e', he', hclass, -⟩
  rw [List.mem_singleton.mp he', he] at hclass
  simp at hclass

/-- The share of a class asks for the names that it needs. -/
theorem Shares.mem_asked_iff {p : Path} {share : Share} (h : Shares look fetch r ⟨p, .file⟩ share)
    (hpath : p.isClass = true) : name ∈ share.asked ↔ Needed look [⟨p, .file⟩] name := by
  have he : isClassEntry ⟨p, .file⟩ = true := isClassEntry_iff.mpr ⟨rfl, hpath⟩
  have hneeded : Needed look [⟨p, .file⟩] name ↔ name = p.className ∨
      ∃ c, answer look p.className = some (some c) ∧ Reaches (kinOf look) c name := by
    simp [Needed, he]
  rw [hneeded]
  cases h with
  | resource hother => simp [hpath] at hother
  | @repaired _ c₀ c₁ _ _ _ _ _ _ _ hanswer hrealign _ _ _ _ _ hreached =>
    have hc₀ : c₀.WellFormed := Answered.wellFormed hanswer.symm
    have hrepaired := (hrealign.of_ensures hc₀.ensures_realign_repaired).1
    have hreaches : Reaches (kinOf look) c₁ name ↔ Reaches (kinOf look) c₀ name :=
      ⟨.congr hrepaired.kin_eq.symm hrepaired.name_eq.symm,
        .congr hrepaired.kin_eq hrepaired.name_eq⟩
    rw [Multiset.mem_cons, hreached, hreaches]
    simp [hanswer]

/-- Where the containers answer each name in one way, the cache has been asked for the names that
the entries need. -/
theorem Sources.Shows.ensures_repair_needed (h : src.Shows look) {output : Writer σ}
    (hnodup : (src.primary.entries.filter (!·.isDirectory)).Nodup) (w : σ) :
    (repair src r output).Ensures { world := w }
      (fun _ b => b.cache.Holds (Mended (Answered look)) ∧
        ∀ name : Bytes, name ∈ b.cache.slots ↔ Needed look src.primary.entries name)
      (fun _ _ => True) := by
  refine (ensures_repair_report (I := fun done _ b => b.cache.Holds (Pending look done) ∧
    ∃ asked, b.cache.Tallied look asked ∧ ∀ name, name ∈ asked ↔ Needed look done name) ?_
    ⟨Cache.holds_empty, 0, .empty look, by simp [Needed]⟩).mono ?_ fun _ _ => id
  · rintro done e rest s b hentries ⟨hpending, asked, htallied, hasked⟩
    have hother (he : isClassEntry e = false) : b.cache.Holds (Pending look (done ++ [e])) ∧
        ∃ asked, b.cache.Tallied look asked ∧ ∀ name, name ∈ asked ↔
        Needed look (done ++ [e]) name := by
      refine ⟨fun name slot hslot => (hpending name slot hslot).add e, asked, htallied,
        fun name => ?_⟩
      rw [hasked, needed_append_iff, or_iff_left (not_needed_of_other he)]
    refine ensures_repairEntry ?_ ?_ ?_
    · intro hkind
      exact (ensures_any _ _).mono
        (fun _ _ _ => hother (by simp [isClassEntry, Entry.isDirectory, hkind]))
          fun _ _ _ => trivial
    · intro hkind hpath
      have hnew : e ∉ done := Entry.not_mem_of_listed_once (hentries ▸ hnodup) hkind
      obtain ⟨p, kind⟩ := e
      obtain rfl : kind = .file := hkind
      refine (@ensures_repairClass_shares look (fun _ => .error (.io [])) r σ src done asked b h
        p hpath hnew hpending htallied s).mono ?_ fun _ _ _ => trivial
      rintro ⟨data, s'⟩ b' ⟨-, hpending', share, hshare, -, -, htallied'⟩
      refine (ensures_any (output.addFile p data) b'.world).mono (fun _ _ _ => ?_)
        fun _ _ _ => trivial
      refine ⟨hpending', _, htallied', fun name => ?_⟩
      rw [Multiset.mem_add, hasked, hshare.mem_asked_iff hpath, needed_append_iff]
    · intro _ hpath
      refine (ensures_any _ _).mono (fun data w _ => ?_) fun _ _ _ => trivial
      exact (ensures_any _ _).mono
        (fun _ _ _ => hother (by simp [isClassEntry, hpath])) fun _ _ _ => trivial
  · rintro _ b ⟨_, ⟨hpending, asked, htallied, hasked⟩, -⟩
    exact ⟨fun name slot hslot => (hpending name slot hslot).mended,
      fun name => (htallied.known name).trans (hasked name)⟩

end

/-! ## Reports -/

/-- The report of a run tells what was read, written and looked up. -/
structure Truthful (src : Sources σ) (content : Path → Bytes) (v : Path → Option Bytes)
    (b : Bench σ) (report : Report) : Prop where
  repairs : ∃ classes, Compares content v src.primary.entries report.summary classes
  total : report.cache.total = report.cache.misses
  misses : report.cache.misses = report.cache.decoded + report.cache.unresolved
  decoded : report.cache.decoded = {name | (b.class? name).isSome = true}.ncard
  /-- Where the containers answer each name in one way, the names with a class are told. -/
  resolved : ∀ look, src.Shows look → ∀ name, (b.class? name).isSome = true ↔
    Needed look src.primary.entries name ∧ ∃ c, answer look name = some (some c)

theorem Cache.Counted.ncard_eq {names : Finset Bytes} (h : b.cache.Counted names) :
    b.cache.decoded = {name | (b.class? name).isSome = true}.ncard := by
  have hset : {name | (b.class? name).isSome = true} =
      ↑(names.filter fun name => b.cache.slots[name]?.join.isSome = true) := by
    ext name
    rw [Set.mem_ofPred_eq, Finset.coe_filter, Set.mem_ofPred_eq, h.known,
      Std.TreeMap.mem_iff_isSome_getElem?, Bench.class?]
    cases b.cache.slots[name]? <;> simp
  rw [hset, Set.ncard_coe_finset, h.decoded]

/-- A run over files that are served, each listed once, reports how many methods are marked in what
it wrote and not in what it read, and how many constructors have a channel with fewer slots. It
reports one miss for each name in the cache, and one decoded class for each name with a class. -/
theorem truthful_of_repair {content : Path → Bytes} {written : σ → Path → Option Bytes}
    {r : Resolver} {output : Writer σ} (hserves : src.primary.Serves content)
    (hnodup : (src.primary.entries.filter (!·.isDirectory)).Nodup)
    (hprimary : src.primary.Spares written)
    (hfallback : ∀ reader ∈ src.fallback, reader.Spares written)
    (hrecords : output.Records written) {w : σ} {notes : Array Log.Note} {report : Report}
    {s' : Traced (Bench σ)}
    (hrun : repair src r output { state := { world := w }, notes } = (.ok report, s')) :
    Truthful src content (written s'.state.world) s'.state report := by
  obtain ⟨hreport, ⟨names, hcounted⟩, hclasses⟩ :=
    (ensures_repair_compares hserves hprimary hfallback hrecords hnodup w).of_ok hrun
  refine ⟨hclasses, ?_, ?_, ?_, fun look hlook name => ?_⟩
  · rw [hreport]
    exact hcounted.total.trans hcounted.misses.symm
  · rw [hreport]
    exact hcounted.misses_eq
  · rw [hreport]
    exact hcounted.ncard_eq
  · obtain ⟨hmended, hneeded⟩ := (hlook.ensures_repair_needed hnodup w).of_ok hrun
    rw [← hneeded, Std.TreeMap.mem_iff_isSome_getElem?, Bench.class?]
    cases hslot : s'.state.cache.slots[name]? with
    | none => simp
    | some slot =>
      obtain ⟨found, hanswer, hrel⟩ := hmended name slot hslot
      replace hanswer : answer look name = some found := hanswer.symm
      cases hrel <;> simp [hanswer]

/-- An enum whose constructor has a slot for each parameter, a class that overrides a method of its
superclass, and that class, whose own superclass is missing. -/
def countedClasses : Memory where
  files :=
    (((∅ : Std.TreeMap Path Bytes).insert "A.class" ClassFile.Sample.enumBytes).insert "B.class"
    (oneMethod "B" "C")).insert "C.class" (oneMethod "C" "D")

theorem truthful_of_repair_countedClasses : ∃ report s',
    repair { primary := countedClasses.reader [] } .bridge Collected.writer
      { state := { world := {} } } = (.ok report, s') ∧
    report.summary.realigned = 1 ∧ report.summary.marked = 1 ∧
    report.cache.decoded = 3 ∧ report.cache.unresolved = 1 ∧
    Truthful { primary := countedClasses.reader [] } (fun p => countedClasses.files[p]?.getD [])
      (fun p => s'.state.world.files[p]?) s'.state report := by
  have hentries : countedClasses.entries =
      countedClasses.files.keys.map fun path => { path, kind := .file } :=
    List.mergeSort_of_pairwise (by decide +kernel)
  have hcounts : (repair { primary := countedClasses.reader [] } .bridge Collected.writer
      { state := { world := {} } }).1.toOption.map (fun report => (report.summary.realigned,
        report.summary.marked, report.cache.decoded, report.cache.unresolved)) =
          some (1, 1, 3, 1) := by
    rw [Memory.reader, hentries]
    decide +kernel
  have hnodup : (countedClasses.entries.filter (!·.isDirectory)).Nodup := by
    rw [hentries]
    decide +kernel
  rcases hrun : repair { primary := countedClasses.reader [] } .bridge Collected.writer
    { state := { world := {} } } with ⟨e | report, s'⟩
  · simp [hrun, Except.toOption] at hcounts
  · have htruthful := truthful_of_repair Memory.serves_reader hnodup (Memory.spares_reader _)
      (by simp)
      Collected.records_writer hrun
    have hreport : report.summary.realigned = 1 ∧ report.summary.marked = 1 ∧
        report.cache.decoded = 3 ∧ report.cache.unresolved = 1 := by
      simpa [hrun, Except.toOption] using hcounts
    exact ⟨report, s', rfl, hreport.1, hreport.2.1, hreport.2.2.1, hreport.2.2.2, htruthful⟩

end JarRepair.Repair
