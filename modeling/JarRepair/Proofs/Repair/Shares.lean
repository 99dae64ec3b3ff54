import Mathlib.Algebra.BigOperators.Group.Multiset.Basic
import JarRepair.Proofs.Repair.Idempotence
import JarRepair.Proofs.Repair.Tally

/-! # What an entry adds to a run

What a run adds for an entry depends on the containers alone: not on the entries before it, though
it may find classes in the cache that these have looked up or repaired. Until its own entry is
repaired a class is in the cache as it was loaded, and what its heirs see of it never changes. -/

namespace JarRepair

open JarRepair.Task

/-! ## Outcomes -/

namespace ClassFile

open JarRepair.Outcome

theorem exists_ends_realign (c : ClassFile) : ∃ x, realign.Ends c x := by
  cases hleading : c.leadingParameters with
  | none =>
    refine ⟨some (0, c), ensures_realign (fun _ => rfl) ?_ ?_⟩
    · intro leading ms hsome
      rw [hleading] at hsome
      simp at hsome
    · intro leading ms hsome
      rw [hleading] at hsome
      simp at hsome
  | some leading =>
    have hnone (h : c.leadingParameters = none) : False := by
      rw [hleading] at h
      simp at h
    cases hmethods : c.methods.mapM (Method.realign leading) with
    | ok ms =>
      refine ⟨some ((realignMethods leading c.methods).changed.length, { c with methods := ms }),
        ensures_realign (fun h => (hnone h).elim) ?_ ?_⟩
      · intro leading' ms' hleading' hms'
        obtain rfl := Option.some.inj (hleading.symm.trans hleading')
        obtain rfl := Except.ok.inj (hmethods.symm.trans hms')
        rfl
      · intro leading' ms' hleading' _ m hm fault hfault
        obtain rfl := Option.some.inj (hleading.symm.trans hleading')
        obtain ⟨k, hk⟩ := List.mem_iff_getElem?.mp hm
        obtain ⟨m', -, hm'⟩ := exists_of_forall₂ (mapM_eq_ok_iff.mp hmethods) hk
        rw [hfault] at hm'
        simp at hm'
    | error fault =>
      refine ⟨none, ensures_realign (fun h => (hnone h).elim) ?_ fun _ _ _ _ _ _ _ _ => rfl⟩
      intro leading' ms' hleading' hms'
      obtain rfl := Option.some.inj (hleading.symm.trans hleading')
      rw [hmethods] at hms'
      simp at hms'

/-- Marking one method depends only on whether it overrides. -/
theorem exists_ends_markOverride (r : Resolver) (overrides : Bool) (k : Nat) (m : Method)
    (c : ClassFile) :
    ∃ x, ∀ inherited, m.overrides inherited = overrides →
      (markOverride r inherited k m).Ends c x := by
  cases overrides with
  | false =>
    refine ⟨some (0, c), fun inherited hover => ?_⟩
    exact ensures_markOverride (fun _ => rfl) (fun _ _ _ h => by simp [h] at hover)
      (fun _ h => by simp [h] at hover) fun _ _ _ h => by simp [h] at hover
  | true =>
    cases htarget : r.target c (c.methods[k]?.getD m) with
    | error e =>
      refine ⟨none, fun inherited hover => ?_⟩
      exact ensures_markOverride (fun h => by simp [h] at hover)
        (fun _ _ _ _ h => by simp [h] at htarget) (fun _ _ _ => rfl) fun _ _ _ _ _ _ => rfl
    | ok key =>
      rcases hrun : mark (c.markTarget key k) overrideType c with ⟨e | added, c'⟩
      · refine ⟨none, fun inherited hover => ?_⟩
        refine ensures_markOverride (fun h => by simp [h] at hover) ?_ (fun _ _ _ => rfl)
          fun _ _ _ _ _ _ => rfl
        intro key' added c'' _ hkey' hrun'
        obtain rfl := Except.ok.inj (htarget.symm.trans hkey')
        rw [hrun] at hrun'
        simp at hrun'
      · refine ⟨some (added.toNat, c'), fun inherited hover => ?_⟩
        refine ensures_markOverride (fun h => by simp [h] at hover) ?_
          (fun _ _ h => by simp [h] at htarget) ?_
        · intro key' added' c'' _ hkey' hrun'
          obtain rfl := Except.ok.inj (htarget.symm.trans hkey')
          obtain ⟨hadded, rfl⟩ := Prod.mk.inj (hrun.symm.trans hrun')
          rw [Except.ok.inj hadded]
        · intro key' e c'' _ hkey' hrun'
          obtain rfl := Except.ok.inj (htarget.symm.trans hkey')
          rw [hrun] at hrun'
          simp at hrun'

/-- Marking depends on which signatures are inherited, and not on how they were found. -/
theorem exists_ends_markOverrides (r : Resolver) (inherits : Bytes → Prop) (c : ClassFile) :
    ∃ x, ∀ inherited : Std.TreeSet Bytes,
      (∀ signature, signature ∈ inherited ↔ inherits signature) →
      (markOverrides r inherited).Ends c x := by
  let marks (inherited : { inherited : Std.TreeSet Bytes //
      ∀ signature, signature ∈ inherited ↔ inherits signature }) (n : Nat) (x : Method × Nat) :
      Task ClassFile Nat := do
    return n + (← markOverride r inherited.1 x.2 x.1)
  have hmarks (n : Nat) (x : Method × Nat) (c₁ : ClassFile) :
      ∃ y, ∀ inherited, (marks inherited n x).Ends c₁ y := by
    classical
    obtain ⟨y, hy⟩ :=
      exists_ends_markOverride r (x.1.isEligible && decide (inherits x.1.signature)) x.2 x.1 c₁
    refine ⟨y.map fun p => (n + p.1, p.2), fun ⟨inherited, hinherited⟩ => ?_⟩
    refine (hy inherited ?_).bind (fun hnone => by rw [hnone, Option.map_none]) ?_
    · rw [Method.overrides]
      congr 1
      rw [Bool.eq_iff_iff, ← Std.TreeSet.mem_iff_contains, hinherited, decide_eq_true_iff]
    · rintro k c₂ rfl
      exact ends_pure
  obtain ⟨x, hx⟩ := exists_ends_foldlM hmarks c.methods.zipIdx 0 c
  exact ⟨x, fun inherited h => Ensures.bind (ensures_state.mpr (hx ⟨inherited, h⟩))⟩

end ClassFile

namespace Repair

open Archive (Collected Entry Memory Path Reader)
open ClassFile (Resolver)

variable {look : Path → Option (Option Bytes)} {fetch : Path → Except Error Bytes} {r : Resolver}

/-! ## What an entry adds -/

/-- The counts of two parts of a run together. -/
def Summary.add (s t : Summary) : Summary where
  directories := s.directories + t.directories
  resources := s.resources + t.resources
  classes := s.classes + t.classes
  realigned := s.realigned + t.realigned
  marked := s.marked + t.marked

/-- What a run adds for an entry: the content of the file that it writes, what it counts, and the
names that it looks up. -/
structure Share where
  data : Option Bytes := none
  counts : Summary
  asked : Multiset Bytes := 0

/-- Each entry adds what the containers alone determine. -/
inductive Shares (look : Path → Option (Option Bytes)) (fetch : Path → Except Error Bytes)
    (r : Resolver) :
    Entry → Share → Prop
  | directory {p : Path} : Shares look fetch r ⟨p, .directory⟩ { counts := { directories := 1 } }
  | resource {p : Path} {data : Bytes} (hpath : p.isClass = false) (hdata : fetch p = .ok data) :
    Shares look fetch r ⟨p, .file⟩ { data := some data, counts := { resources := 1 } }
  /-- A class is realigned, marked with what the names that it reaches give it, and written. -/
  | repaired {p : Path} {c₀ c₁ c : ClassFile} {realigned marked : Nat}
      {inherited : Std.TreeSet Bytes}
    {data : Bytes} {reached : Multiset Bytes} (hpath : p.isClass = true)
    (hanswer : answer look p.className = some (some c₀))
    (hrealign : ClassFile.realign.Ends c₀ (some (realigned, c₁))) (htold : Told look c₁)
    (hinherited : ∀ signature, signature ∈ inherited ↔ Inherits (kinOf look) c₁ signature)
    (hmark : (ClassFile.markOverrides r inherited).Ends c₁ (some (marked, c)))
    (hwrite : c.encode = .ok data) (hnodup : reached.Nodup)
    (hreached : ∀ name, name ∈ reached ↔ Reaches (kinOf look) c₁ name) :
    Shares look fetch r ⟨p, .file⟩
      { data := some data, counts := { classes := 1, realigned, marked },
        asked := p.className ::ₘ reached }

/-- Marking a class with the signatures that it inherits ends well, and it can be written then. -/
def Markable (look : Path → Option (Option Bytes)) (r : Resolver) (c₁ : ClassFile) : Prop :=
  ∀ y, (∀ inherited : Std.TreeSet Bytes,
      (∀ signature, signature ∈ inherited ↔ Inherits (kinOf look) c₁ signature) →
        (ClassFile.markOverrides r inherited).Ends c₁ y) →
    ∃ marked c data, y = some (marked, c) ∧ c.encode = .ok data

/-- The steps of repairing a class that has a share all end well. -/
theorem Shares.exists_steps {p : Path} {share : Share} (h : Shares look fetch r ⟨p, .file⟩ share)
    (hpath : p.isClass = true) : ∃ c₀, answer look p.className = some (some c₀) ∧
      ∀ x, ClassFile.realign.Ends c₀ x →
        ∃ realigned c₁, x = some (realigned, c₁) ∧ Told look c₁ ∧ Markable look r c₁ := by
  cases h with
  | resource hpath' =>
    rw [hpath] at hpath'
    simp at hpath'
  | repaired _ hanswer hrealign htold hinherited hmark hwrite =>
    refine ⟨_, hanswer, fun x hx => ⟨_, _, hx.unique hrealign, htold, fun y hy => ?_⟩⟩
    exact ⟨_, _, _, (hy _ hinherited).unique hmark, hwrite⟩

/-- A class that has a share and has been realigned can be marked and written. -/
theorem Shares.exists_marked {p : Path} {share : Share} (h : Shares look fetch r ⟨p, .file⟩ share)
    (hpath : p.isClass = true) {c₀ c₁ : ClassFile} {n : Nat}
    (hanswer : answer look p.className = some (some c₀))
    (hrealign : ClassFile.realign.Ends c₀ (some (n, c₁))) : Told look c₁ ∧ Markable look r c₁ := by
  obtain ⟨c₀', hanswer', hsteps⟩ := h.exists_steps hpath
  obtain rfl := Option.some.inj (Option.some.inj (hanswer.symm.trans hanswer'))
  obtain ⟨_, c₁', heq, hmarked⟩ := hsteps _ hrealign
  obtain ⟨-, rfl⟩ := Prod.mk.inj (Option.some.inj heq)
  exact hmarked

theorem Shares.unique {e : Entry} {x y : Share} (h : Shares look fetch r e x)
    (h' : Shares look fetch r e y) : x = y := by
  cases h with
  | directory =>
    cases h'
    rfl
  | resource hpath hdata =>
    cases h' with
    | resource _ hdata' => rw [Except.ok.inj (hdata.symm.trans hdata')]
    | repaired hpath' =>
      rw [hpath] at hpath'
      simp at hpath'
  | repaired hpath hanswer hrealign htold hinherited hmark hwrite hnodup hreached =>
    cases h' with
    | resource hpath' =>
      rw [hpath] at hpath'
      simp at hpath'
    | repaired _ hanswer' hrealign' _ hinherited' hmark' hwrite' hnodup' hreached' =>
      obtain rfl := Option.some.inj (Option.some.inj (hanswer.symm.trans hanswer'))
      obtain ⟨rfl, rfl⟩ := Prod.mk.inj (Option.some.inj (hrealign.unique hrealign'))
      obtain ⟨x, hx⟩ := ClassFile.exists_ends_markOverrides r _ _
      have hmarked := ((hx _ hinherited).unique hmark).symm.trans ((hx _ hinherited').unique hmark')
      obtain ⟨rfl, rfl⟩ := Prod.mk.inj (Option.some.inj hmarked)
      obtain rfl := Except.ok.inj (hwrite.symm.trans hwrite')
      have hsame := (Multiset.Nodup.ext hnodup hnodup').mpr fun name =>
        (hreached name).trans (hreached' name).symm
      rw [hsame]

/-- The content of a file that is written. -/
def Content (look : Path → Option (Option Bytes)) (fetch : Path → Except Error Bytes) (r : Resolver)
    (p : Path) (data : Bytes) : Prop :=
  ∃ share, Shares look fetch r ⟨p, .file⟩ share ∧ share.data = some data

theorem Content.unique {p : Path} {data data' : Bytes} (h : Content look fetch r p data)
    (h' : Content look fetch r p data') : data = data' := by
  obtain ⟨share, hshare, hdata⟩ := h
  obtain ⟨share', hshare', hdata'⟩ := h'
  rw [hshare.unique hshare'] at hdata
  exact Option.some.inj (hdata.symm.trans hdata')

/-! ## What a class adds -/

section

variable {σ : Type} {src : Sources σ} {done : List Entry} {asked : Multiset Bytes} {b : Bench σ}

/-- A slot holds a repair of what is answered for its name, and just that until its entry is
done. -/
structure Pending (look : Path → Option (Option Bytes)) (done : List Entry) (name : Bytes)
    (slot : Option ClassFile) : Prop where
  mended : Mended (Answered look) name slot
  kept : { path := Path.ofClass name, kind := .file } ∉ done → answer look name = some slot

theorem pending_of_answer {name : Bytes} {found : Option ClassFile}
    (h : answer look name = some found) :
    Pending look done name found :=
  ⟨mended_of_answer (fun _ _ => Answered.wellFormed) name found h.symm, fun _ => h⟩

theorem Pending.add {name : Bytes} {slot : Option ClassFile} (h : Pending look done name slot)
    (e : Entry) : Pending look (done ++ [e]) name slot :=
  ⟨h.mended, fun hnew => h.kept fun hmem => hnew (List.mem_append_left [e] hmem)⟩

/-- The class of an entry that is done may be edited. -/
theorem holds_pending_remember (hb : b.cache.Holds (Pending look done)) {name : Bytes}
    {c : ClassFile} (hdone : { path := Path.ofClass name, kind := .file } ∈ done)
    (hc : Mended (Answered look) name (some c)) :
    (b.remember name c).cache.Holds (Pending look done) :=
  hb.insert ⟨hc, fun hnew => absurd hdone hnew⟩ rfl

theorem Cache.Tallied.remember (h : b.cache.Tallied look asked) {name : Bytes} {c c' : ClassFile}
    (hc : b.class? name = some c) : (b.remember name c').cache.Tallied look asked := by
  refine Cache.Tallied.edit h ?_ (some c')
  rw [Std.TreeMap.mem_iff_isSome_getElem?, Bench.class?_eq_some_iff.mp hc, Option.isSome_some]

/-- What holds of the bench when these names have been asked for, after it was `b`. -/
structure Surveyed (look : Path → Option (Option Bytes)) (done : List Entry)
    (asked : Multiset Bytes) (b : Bench σ) (names : List Bytes) (b' : Bench σ) : Prop where
  after : Bench.After (· = b.world) (Pending look done) b b'
  tallied : b'.cache.Tallied look (asked + ↑names)
  told : ∀ name ∈ names, (answer look name).isSome = true

theorem Surveyed.ensures_find {names : List Bytes} {name : Bytes} {b' : Bench σ}
    (hb' : Surveyed look done asked b names b') (h : src.Shows look) :
    (src.find name).Ensures b'
      (fun found b'' => found.map ClassFile.kin = kinOf look name ∧
        (found.isSome = true → name ∈ src.names) ∧ Surveyed look done asked b (names ++ [name]) b'')
      (fun _ _ => answer look name = none) := by
  refine (h.ensures_find_tallied (fun _ _ => pending_of_answer) hb'.after.toSound hb'.tallied).mono
    ?_ fun _ _ => id
  rintro found b'' ⟨hafter, hslot, htallied⟩
  have hmended := (hafter.cache name found hslot).mended
  refine ⟨hmended.map_kin_eq, hmended.mem_names h, hb'.after.trans hafter, ?_, ?_⟩
  · have hnames : (↑(names ++ [name]) : Multiset Bytes) = name ::ₘ ↑names :=
      Multiset.coe_eq_coe.mpr List.perm_append_comm
    rwa [hnames, Multiset.add_cons]
  · intro name' hname'
    rcases List.mem_append.mp hname' with hname' | hname'
    · exact hb'.told name' hname'
    · obtain rfl := List.mem_singleton.mp hname'
      obtain ⟨found₀, hanswer, -⟩ := hmended.exists_answer
      rw [hanswer, Option.isSome_some]

/-- Collecting what a class inherits counts the names that it reaches. -/
theorem Sources.Shows.ensures_inheritedSignatures_tallied (h : src.Shows look)
    (hb : b.cache.Holds (Pending look done)) (hasked : b.cache.Tallied look asked) (c : ClassFile) :
    (inheritedSignatures src c).Ensures b
      (fun inherited b' => Bench.After (· = b.world) (Pending look done) b b' ∧
        (∀ signature, signature ∈ inherited ↔ Inherits (kinOf look) c signature) ∧ Told look c ∧
        ∃ reached : Multiset Bytes, reached.Nodup ∧
          (∀ name, name ∈ reached ↔ Reaches (kinOf look) c name) ∧
          b'.cache.Tallied look (asked + reached))
      (fun _ _ => ¬ Told look c) := by
  have hfind (names : List Bytes) (name : Bytes) (b₁ : Bench σ)
      (hb₁ : Surveyed look done asked b names b₁) (_ : name ∉ names)
      (hreaches : Reaches (kinOf look) c name) : (src.find name).Ensures b₁
        (fun found b₂ => found.map ClassFile.kin = kinOf look name ∧
          (found.isSome = true → name ∈ src.names) ∧
          Surveyed look done asked b (names ++ [name]) b₂)
        (fun _ _ => ¬ Told look c) := by
    refine (hb₁.ensures_find h).mono (fun _ _ => id) fun _ _ hnone htold => ?_
    have hsome := htold name hreaches
    rw [hnone] at hsome
    simp at hsome
  have hstart : Surveyed look done asked b [] b :=
    ⟨Bench.Sound.after ⟨rfl, hb⟩, by simpa using hasked, by simp⟩
  refine (Survey.ensures_signaturesAbove (kinOf look) hfind (Nat.lt_succ_of_lt src.card_names_lt)
    hstart).mono ?_ fun _ _ => id
  rintro inherited b' ⟨hinherited, names, hnodup, hnames, hb'⟩
  refine ⟨hb'.after, hinherited, fun name hname => hb'.told name ((hnames name).mpr hname),
    names, ?_, ?_, hb'.tallied⟩
  · exact Multiset.coe_nodup.mpr hnodup
  · exact fun name => Multiset.mem_coe.trans (hnames name)

/-- What is written for a class and added to the counts is its share. -/
def Added (look : Path → Option (Option Bytes)) (fetch : Path → Except Error Bytes) (r : Resolver)
    (asked : Multiset Bytes) (p : Path) (data : Bytes) (s s' : Summary) (cache : Cache) : Prop :=
  ∃ share, Shares look fetch r ⟨p, .file⟩ share ∧ share.data = some data ∧ s' = s.add share.counts ∧
    cache.Tallied look (asked + share.asked)

/-- A class that has been realigned is marked as its share says. -/
theorem ensures_marked_shares (h : src.Shows look) {p : Path} (hpath : p.isClass = true)
    {c₀ c₁ : ClassFile} {n : Nat} (hanswer : answer look p.className = some (some c₀))
    (hrealign : ClassFile.realign.Ends c₀ (some (n, c₁))) (hrepaired : c₀.Repaired c₁)
    (hc₁ : c₁.WellFormed) (hdone : { path := Path.ofClass p.className, kind := .file } ∈ done)
    (hb : b.cache.Holds (Pending look done)) (hasked : b.cache.Tallied look (p.className ::ₘ asked))
    (hclass : b.class? p.className = some c₁) (s : Summary) :
    (inheritedSignatures src c₁).Ensures b
      (fun inherited b₂ => b₂.class? p.className = some c₁ ∧
        (ClassFile.markOverrides r inherited).Ensures c₁
          (fun k c₂ =>
            match c₂.encode with
            | .ok data => b₂.world = b.world ∧
              (b₂.remember p.className c₂).cache.Holds (Pending look done) ∧
              Added look fetch r asked p data s
                (s.add { classes := 1, realigned := n, marked := k })
                (b₂.remember p.className c₂).cache
            | .error _ => ¬ ∃ share, Shares look fetch r ⟨p, .file⟩ share)
          (fun _ _ => ¬ ∃ share, Shares look fetch r ⟨p, .file⟩ share))
      (fun _ _ => ¬ ∃ share, Shares look fetch r ⟨p, .file⟩ share) := by
  obtain ⟨y, hy⟩ := ClassFile.exists_ends_markOverrides r (Inherits (kinOf look) c₁) c₁
  refine (h.ensures_inheritedSignatures_tallied hb hasked c₁).mono ?_ ?_
  · rintro inherited b₂ ⟨hb₂, hinherited, htold, reached, hnodup, hreached, htallied⟩
    have hclass₂ := hb₂.class? hclass
    have hmark := hy inherited hinherited
    refine ⟨hclass₂, (hmark.and hc₁.ensures_markOverrides_repaired).mono ?_ ?_⟩
    · rintro k c₂ ⟨rfl, hrepaired₂, hc₂⟩
      cases hwrite : c₂.encode with
      | ok data =>
        refine ⟨hb₂.world, holds_pending_remember hb₂.cache hdone
          ⟨some c₀, hanswer.symm, .some ⟨hrepaired.trans hrepaired₂, hc₂⟩⟩, _,
          .repaired hpath hanswer
            hrealign htold hinherited hmark hwrite hnodup hreached, rfl, rfl, ?_⟩
        have hsum : p.className ::ₘ asked + reached = asked + p.className ::ₘ reached := by
          rw [Multiset.cons_add, Multiset.add_cons]
        exact hsum ▸ htallied.remember hclass₂
      | error e =>
        rintro ⟨share, hshare⟩
        obtain ⟨-, hmarks⟩ := hshare.exists_marked hpath hanswer hrealign
        obtain ⟨_, _, _, heq, hwrite'⟩ := hmarks _ hy
        obtain ⟨-, rfl⟩ := Prod.mk.inj (Option.some.inj heq)
        rw [hwrite] at hwrite'
        simp at hwrite'
    · rintro e c₂ ⟨rfl, -⟩ ⟨share, hshare⟩
      obtain ⟨-, hmarks⟩ := hshare.exists_marked hpath hanswer hrealign
      obtain ⟨_, _, _, heq, -⟩ := hmarks _ hy
      simp at heq
  · rintro _ _ hnot ⟨share, hshare⟩
    exact hnot (hshare.exists_marked hpath hanswer hrealign).1

/-- A class that has not been repaired is written as its share says, and repairing it fails just if
it has none. -/
theorem ensures_repairClass_shares (h : src.Shows look) {p : Path} (hpath : p.isClass = true)
    (hnew : { path := p, kind := .file } ∉ done) (hb : b.cache.Holds (Pending look done))
    (hasked : b.cache.Tallied look asked) (s : Summary) :
    (repairClass src r p.className s).Ensures b
      (fun x b' => b'.world = b.world ∧
        b'.cache.Holds (Pending look (done ++ [{ path := p, kind := .file }])) ∧
        Added look fetch r asked p x.1 s { x.2 with classes := x.2.classes + 1 } b'.cache)
      (fun _ _ => ¬ ∃ share, Shares look fetch r ⟨p, .file⟩ share) := by
  have hname : { path := Path.ofClass p.className, kind := .file } ∉ done := by
    rwa [Path.ofClass_className hpath]
  have hdone : { path := Path.ofClass p.className, kind := .file } ∈
      done ++ [{ path := p, kind := .file }] := by
    rw [Path.ofClass_className hpath]
    exact List.mem_append_right done (List.mem_singleton_self _)
  have hfind : (src.find p.className).Ensures b _ _ :=
    h.ensures_find_tallied (fun _ _ => pending_of_answer) (w := b.world) ⟨rfl, hb⟩ hasked
  refine ensures_repairClass (hfind.mono ?_ ?_)
  · rintro found b₁ ⟨hb₁, hslot, htallied⟩
    have hanswer := (hb₁.cache _ found hslot).kept hname
    cases found with
    | none =>
      rintro ⟨share, hshare⟩
      obtain ⟨c₀, hanswer', -⟩ := hshare.exists_steps hpath
      rw [hanswer] at hanswer'
      simp at hanswer'
    | some c₀ =>
      have hclass : b₁.class? p.className = some c₀ := Bench.class?_eq_some_iff.mpr hslot
      obtain ⟨x, hx⟩ := ClassFile.exists_ends_realign c₀
      have hc₀ : c₀.WellFormed := Answered.wellFormed hanswer.symm
      refine ⟨hclass, (hx.and hc₀.ensures_realign_repaired).mono ?_ ?_⟩
      · rintro n c₁ ⟨rfl, hrepaired, hc₁, -⟩
        have hholds := holds_pending_remember
          (fun name slot hslot => (hb₁.cache name slot hslot).add _)
          hdone ⟨some c₀, hanswer.symm, .some ⟨hrepaired, hc₁⟩⟩
        refine (ensures_marked_shares h hpath hanswer hx hrepaired hc₁ hdone hholds
          (htallied.remember hclass) Bench.class?_remember s).mono ?_ fun _ _ => id
        rintro inherited b₂ ⟨hclass₂, hmarks⟩
        refine ⟨hclass₂, hmarks.mono ?_ fun _ _ => id⟩
        intro k c₂ hwritten
        cases hwrite : c₂.encode with
        | ok data =>
          rw [hwrite] at hwritten
          exact ⟨hwritten.1.trans hb₁.world, hwritten.2⟩
        | error e =>
          rwa [hwrite] at hwritten
      · rintro e c₁ ⟨rfl, -⟩ ⟨share, hshare⟩
        obtain ⟨c₀', hanswer', hsteps⟩ := hshare.exists_steps hpath
        obtain rfl := Option.some.inj (Option.some.inj (hanswer.symm.trans hanswer'))
        obtain ⟨_, _, heq, -⟩ := hsteps _ hx
        simp at heq
  · rintro _ _ hnone ⟨share, hshare⟩
    obtain ⟨c₀, hanswer, -⟩ := hshare.exists_steps hpath
    rw [hnone] at hanswer
    simp at hanswer

end

end Repair

end JarRepair
