import Mathlib.Data.List.Forall2
import JarRepair.Proofs.Repair.Shares

/-! # The order of the entries

A run fails just if an entry has nothing to add or a file is listed twice. Else it adds up what its
entries add, and the sum does not depend on their order. -/

namespace JarRepair.Repair

open JarRepair.Task
open Archive (Collected Entry Memory Path Reader)
open ClassFile (Resolver)

variable {look : Path → Option (Option Bytes)} {fetch : Path → Except Error Bytes} {r : Resolver}

/-! ## Sums -/

/-- What is reported of a run that adds these shares. -/
def Report.of (look : Path → Option (Option Bytes)) (shares : List Share) : Report where
  summary := (shares.map (·.counts)).foldl Summary.add {}
  cache := .of look (shares.map (·.asked)).sum

theorem Report.of_perm {shares shares' : List Share} (h : shares'.Perm shares) :
    of look shares' = of look shares := by
  have hcomm (x y z : Summary) : (z.add x).add y = (z.add y).add x := by
    simp only [Summary.add, Nat.add_right_comm]
  rw [of, of, (h.map (·.counts)).foldl_eq' fun x _ y _ z => hcomm x y z, (h.map (·.asked)).sum_eq]

/-! ## Runs -/

/-- Every entry has a share, and no file is listed twice. -/
structure Repairable (look : Path → Option (Option Bytes)) (fetch : Path → Except Error Bytes)
    (r : Resolver) (entries : List Entry) : Prop where
  shared : ∀ e ∈ entries, ∃ share, Shares look fetch r e share
  distinct : (entries.filter (!·.isDirectory)).Nodup

theorem Repairable.of_perm {entries entries' : List Entry} (h : Repairable look fetch r entries)
    (hperm : entries'.Perm entries) : Repairable look fetch r entries' where
  shared e he := h.shared e (hperm.mem_iff.mp he)
  distinct := (hperm.filter _).nodup_iff.mpr h.distinct

/-- What the entries that are done have added. -/
structure Progress (look : Path → Option (Option Bytes)) (fetch : Path → Except Error Bytes)
    (r : Resolver) (done : List Entry) (shares : List Share) (s : Summary) (b : Bench Collected) :
    Prop where
  shared : List.Forall₂ (Shares look fetch r) done shares
  distinct : (done.filter (!·.isDirectory)).Nodup
  pending : b.cache.Holds (Pending look done)
  copies : b.world.Copies (Content look fetch r) done
  counts : s = (Report.of look shares).summary
  tallied : b.cache.Tallied look (shares.map (·.asked)).sum

section

variable {done : List Entry} {shares : List Share} {s : Summary} {b b' : Bench Collected}
  {e : Entry}
  {share : Share}

theorem progress_start : Progress look fetch r [] [] {} { world := {} } where
  shared := .nil
  distinct := List.nodup_nil
  pending := Cache.holds_empty
  copies := Collected.copies_empty
  counts := rfl
  tallied := .empty look

theorem Progress.add (h : Progress look fetch r done shares s b)
    (hshare : Shares look fetch r e share) (hnew : e.kind = .file → e ∉ done)
    (hpending : b'.cache.Holds (Pending look (done ++ [e])))
    (hcopies : b'.world.Copies (Content look fetch r) (done ++ [e]))
    (htallied : b'.cache.Tallied look ((shares.map (·.asked)).sum + share.asked)) :
    Progress look fetch r (done ++ [e]) (shares ++ [share]) (s.add share.counts) b' where
  shared := List.rel_append h.shared (.cons hshare .nil)
  distinct := by
    obtain ⟨p, kind⟩ := e
    rw [List.filter_append]
    cases kind with
    | directory => simpa [Entry.isDirectory] using h.distinct
    | file =>
      refine List.nodup_append.mpr ⟨h.distinct, by simp [Entry.isDirectory], ?_⟩
      rintro e he _ he' rfl
      rw [List.mem_filter, List.mem_singleton] at he'
      exact hnew rfl (he'.1 ▸ List.mem_of_mem_filter he)
  pending := hpending
  copies := hcopies
  counts := by
    rw [h.counts, Report.of, Report.of]
    simp only [List.map_append, List.map_cons, List.map_nil, List.foldl_append, List.foldl_cons,
      List.foldl_nil]
  tallied := by
    simpa only [List.map_append, List.map_cons, List.map_nil, List.sum_append, List.sum_singleton]
      using htallied

theorem Progress.repairable (h : Progress look fetch r done shares s b) :
    Repairable look fetch r done where
  shared e he := by
    obtain ⟨k, hk⟩ := List.mem_iff_getElem?.mp he
    obtain ⟨share, -, hshare⟩ := ClassFile.exists_of_forall₂ h.shared hk
    exact ⟨share, hshare⟩
  distinct := h.distinct

end

/-- An entry adds its share; a run fails at it only if it has none, or is a file for the second
time. -/
theorem Progress.ensures_repairEntry {primary : Reader Collected}
    {fallback : Option (Reader Collected)} (h : Sources.Shows { primary, fallback } look)
    (hfetch : ∀ p w, (primary.read p).Ensures w (fun data w' => fetch p = .ok data ∧ w' = w)
      (fun e w' => fetch p = .error e ∧ w' = w))
    {done : List Entry} {shares : List Share} {s : Summary} {b : Bench Collected}
    (hb : Progress look fetch r done shares s b) (e : Entry) :
    (repairEntry { primary, fallback } r Collected.writer s e).Ensures b
      (fun s' b' => ∃ share, Progress look fetch r (done ++ [e]) (shares ++ [share]) s' b')
      (fun _ _ => (¬ ∃ share, Shares look fetch r e share) ∨ e.kind = .file ∧ e ∈ done) := by
  obtain ⟨p, kind⟩ := e
  have hpending : b.cache.Holds (Pending look (done ++ [⟨p, kind⟩])) :=
    fun name slot hslot => (hb.pending name slot hslot).add _
  refine Repair.ensures_repairEntry ?_ ?_ ?_
  · rintro ⟨⟩
    refine hb.copies.ensures_addDirectory.mono ?_ fun _ _ => id
    intro _ w hw
    exact ⟨_, hb.add .directory (by simp) hpending hw (by simpa using hb.tallied)⟩
  · rintro ⟨⟩ hpath
    by_cases hnew : ⟨p, .file⟩ ∈ done
    · have hworld : (repairClass { primary, fallback } r p.className s).Ensures b
          (fun _ b' => b'.world = b.world) (fun _ _ => True) :=
        (ensures_repairClass_repaired (h.loads b.world) (fun _ _ => Answered.wellFormed)
          ⟨rfl, fun name slot hslot => (hb.pending name slot hslot).mended⟩ p.className s).mono
            (fun _ _ hb' => hb'.1.world) fun _ _ => id
      refine hworld.mono ?_ fun _ _ _ => .inr ⟨rfl, hnew⟩
      rintro ⟨data, s'⟩ b' hb'
      have hcopies := hb.copies
      rw [← hb'] at hcopies
      exact hcopies.ensures_addFile_twice hnew (.inr ⟨rfl, hnew⟩)
    · refine (ensures_repairClass_shares h hpath hnew hb.pending hb.tallied s).mono ?_ fun _ _ =>
        .inl
      rintro ⟨data, s'⟩ b' ⟨hworld, hpending', share, hshare, hdata, hs', htallied⟩
      have hcopies := hb.copies
      rw [← hworld] at hcopies
      refine (hcopies.ensures_addFile ⟨share, hshare, hdata⟩ fun htwice => absurd htwice hnew).mono
        ?_ fun _ _ => id
      intro _ w hw
      rw [hs']
      exact ⟨share, hb.add hshare (fun _ => hnew) hpending' hw htallied⟩
  · rintro ⟨⟩ hpath
    refine (hfetch p b.world).mono ?_ ?_
    · rintro data w ⟨hdata, rfl⟩
      by_cases hnew : ⟨p, .file⟩ ∈ done
      · exact hb.copies.ensures_addFile_twice hnew (.inr ⟨rfl, hnew⟩)
      · have hshare : Shares look fetch r ⟨p, .file⟩ _ := .resource hpath hdata
        refine (hb.copies.ensures_addFile ⟨_, hshare, rfl⟩ fun htwice => absurd htwice hnew).mono ?_
          fun _ _ => id
        intro _ w hw
        exact ⟨_, hb.add hshare (fun _ => hnew) hpending hw (by simpa using hb.tallied)⟩
    · rintro e _ ⟨herror, -⟩
      refine .inl ?_
      rintro ⟨share, hshare⟩
      cases hshare with
      | resource _ hdata =>
        rw [herror] at hdata
        simp at hdata
      | repaired hpath' =>
        rw [hpath] at hpath'
        simp at hpath'

/-- A run succeeds just if all entries are repairable, and adds up their shares. -/
theorem ensures_repair_shares {primary : Reader Collected} {fallback : Option (Reader Collected)}
    (h : Sources.Shows { primary, fallback } look)
    (hfetch : ∀ p w, (primary.read p).Ensures w (fun data w' => fetch p = .ok data ∧ w' = w)
      (fun e w' => fetch p = .error e ∧ w' = w)) :
    (repair { primary, fallback } r Collected.writer).Ensures { world := {} }
      (fun report b => ∃ shares, Repairable look fetch r primary.entries ∧
        List.Forall₂ (Shares look fetch r) primary.entries shares ∧ report = .of look shares ∧
        b.world.Copies (Content look fetch r) primary.entries)
      (fun _ _ => ¬ Repairable look fetch r primary.entries) := by
  refine (ensures_repair_report
    (I := fun done s b => ∃ shares, Progress look fetch r done shares s b)
    ?_ ⟨[], progress_start⟩).mono ?_ fun _ _ => id
  · rintro done e rest s b hentries ⟨shares, hb⟩
    refine (hb.ensures_repairEntry h hfetch e).mono ?_ ?_
    · rintro s' b' ⟨share, hb'⟩
      exact ⟨_, hb'⟩
    · rintro _ _ (hnone | ⟨hkind, hmem⟩)
      · refine fun hrepairable => hnone (hrepairable.shared e ?_)
        rw [show primary.entries = _ from hentries]
        exact List.mem_append_right done List.mem_cons_self
      · intro hrepairable
        have hdistinct := hrepairable.distinct
        rw [show primary.entries = _ from hentries] at hdistinct
        exact Entry.not_mem_of_listed_once hdistinct hkind hmem
  · rintro _ b ⟨summary, ⟨shares, hb⟩, rfl⟩
    refine ⟨shares, hb.repairable, hb.shared, ?_, hb.copies⟩
    rw [hb.counts, hb.tallied.stats]
    rfl

/-- The order in which entries are listed does not matter: either both runs fail, or both write the
same files and directories and report the same counts. -/
theorem repair_perm {primary primary' : Reader Collected} {fallback : Option (Reader Collected)}
    (hprimary : primary.Steady) (hfallback : ∀ reader ∈ fallback, reader.Steady)
    (hcontains : ∀ p, primary'.contains p = primary.contains p)
    (hread : ∀ p, primary'.read p = primary.read p)
    (hentries : primary'.entries.Perm primary.entries) (r : Resolver)
    (notes notes' : Array Log.Note) :
    let run := repair { primary, fallback } r Collected.writer { state := { world := {} }, notes }
    let run' := repair { primary := primary', fallback } r Collected.writer
      { state := { world := {} }, notes := notes' }
    ((∃ report, run'.1 = .ok report) ↔ ∃ report, run.1 = .ok report) ∧
      ∀ report report', run.1 = .ok report → run'.1 = .ok report' → report' = report ∧
        (∀ p : Path, run'.2.state.world.files[p]? = run.2.state.world.files[p]?) ∧
        run'.2.state.world.directories.toList.Perm run.2.state.world.directories.toList := by
  obtain ⟨first, hfirst⟩ := hprimary.exists_shows
  obtain ⟨second, hsecond, hnone⟩ := exists_fallback hfallback
  have hfirst' : primary'.Shows first :=
    ⟨fun p => (hcontains p).trans (hfirst.contains p), fun p => by rw [hread]; exact hfirst.read p⟩
  choose fetch hfetch using hprimary
  have hfetch' (p : Path) (w : Collected) : (primary'.read p).Ensures w
      (fun data w' => fetch p = .ok data ∧ w' = w) (fun e w' => fetch p = .error e ∧ w' = w) := by
    rw [hread]
    exact hfetch p w
  have hrun := ensures_repair_shares (r := r) (Sources.shows hfirst hsecond hnone) hfetch notes
  have hrun' := ensures_repair_shares (r := r) (Sources.shows hfirst' hsecond hnone) hfetch' notes'
  dsimp only
  generalize repair { primary, fallback } r Collected.writer { state := { world := {} }, notes } =
    run at hrun ⊢
  generalize repair { primary := primary', fallback } r Collected.writer
    { state := { world := {} }, notes := notes' } = run' at hrun' ⊢
  obtain ⟨e | report, b, _⟩ := run
  · obtain ⟨e' | report', b', _⟩ := run'
    · exact ⟨⟨nofun, nofun⟩, nofun⟩
    · obtain ⟨_, hrepairable, -⟩ := hrun'
      exact absurd (hrepairable.of_perm hentries.symm) hrun
  · obtain ⟨shares, hrepairable, hshares, hreport, hcopies⟩ := hrun
    obtain ⟨e' | report', b', _⟩ := run'
    · exact absurd (hrepairable.of_perm hentries) hrun'
    · obtain ⟨shares', -, hshares', hreport', hcopies'⟩ := hrun'
      refine ⟨⟨fun _ => ⟨report, rfl⟩, fun _ => ⟨report', rfl⟩⟩, ?_⟩
      rintro _ _ ⟨⟩ ⟨⟩
      refine ⟨?_, hcopies.alike hcopies' (fun _ _ _ => Content.unique) hentries⟩
      obtain ⟨shares'', hsame, hperm⟩ := List.perm_comp_forall₂ hentries hshares
      have hunique : Relator.RightUnique (Shares (fun p => (first p).or (second p)) fetch r) :=
        fun _ _ _ => Shares.unique
      have heq : shares' = shares'' := List.right_unique_forall₂' hunique hshares' hsame
      rw [hreport, hreport', heq, Report.of_perm hperm]

/-- The two classes, listed the other way round. -/
def twoClassesReversed : Reader Collected :=
  { (twoClasses.reader [] : Reader Collected) with entries := twoClasses.entries.reverse }

theorem repair_perm_twoClasses : ∃ report s' s'',
    repair { primary := twoClasses.reader [] } .bridge Collected.writer
      { state := { world := {} } } = (.ok report, s') ∧ report.summary.marked = 2 ∧
      report.cache.hits = 2 ∧
    repair { primary := twoClassesReversed } .bridge Collected.writer { state := { world := {} } } =
      (.ok report, s'') ∧
    (∀ p : Path, s''.state.world.files[p]? = s'.state.world.files[p]?) ∧
    s''.state.world.directories.toList.Perm s'.state.world.directories.toList := by
  have hcounts : (repair { primary := twoClasses.reader [] } .bridge Collected.writer
      { state := { world := {} } }).1.toOption.map (fun report =>
        (report.summary.marked, report.cache.hits)) = some (2, 2) := by
    rw [reader_twoClasses]
    decide +kernel
  have hperm : twoClassesReversed.entries.Perm (twoClasses.reader [] : Reader Collected).entries :=
    List.reverse_perm _
  have hsame := @repair_perm (twoClasses.reader []) twoClassesReversed none Memory.steady_reader
    (by simp)
    (fun _ => rfl) (fun _ => rfl) hperm .bridge #[] #[]
  rcases hrun : repair { primary := twoClasses.reader [] } .bridge Collected.writer
    { state := { world := {} } } with ⟨e | report, s'⟩
  · simp [hrun, Except.toOption] at hcounts
  · rcases hrun' : repair { primary := twoClassesReversed } .bridge Collected.writer
      { state := { world := {} } } with ⟨e | report', s''⟩
    all_goals rw [hrun, hrun'] at hsame
    · obtain ⟨_, hok⟩ := hsame.1.mpr ⟨report, rfl⟩
      simp at hok
    · obtain ⟨rfl, hfiles, hdirectories⟩ := hsame.2 report report' rfl rfl
      have hreport : report'.summary.marked = 2 ∧ report'.cache.hits = 2 := by
        simpa [hrun, Except.toOption] using hcounts
      exact ⟨report', s', s'', rfl, hreport.1, hreport.2, rfl, hfiles, hdirectories⟩

end JarRepair.Repair
