import Mathlib.Data.List.Induction
import Mathlib.Data.List.Nodup
import JarRepair.Archive.Entry
import JarRepair.Proofs.Archive.Path

/-! # Complete listings

A listing is completed with the parent directories that it lacks, each once, and sorted by path. The
climb from a path stops at a directory that is known already. It may do so since the parent of every
known directory is known as well, or will be when the entry of that directory has its turn. So
nothing that is above a path is left out, and it comes before the path in the sorted listing. -/

namespace JarRepair.Archive

/-! ## Parents -/

namespace Path

theorem foldl_parents (p : Path) :
    p.foldl (fun (seen, found) b => (b :: seen, if b = slash then seen.reverse :: found else found))
      (([], []) : Bytes × List Path) = (p.reverse, parents p) := by
  have hseen : (p.foldl (fun (seen, found) b => (b :: seen,
      if b = slash then seen.reverse :: found
      else found)) (([], []) : Bytes × List Path)).1 = p.reverse := by
    induction p using List.reverseRecOn with
    | nil => rfl
    | append_singleton p b ih =>
      rw [List.foldl_append, List.foldl_cons, List.foldl_nil, List.reverse_append, ← ih]
      rfl
  exact Prod.ext hseen rfl

@[simp] theorem parents_nil : parents [] = [] := rfl

theorem parents_append (p : Path) (b : UInt8) :
    parents (p ++ [b]) = if b = slash then p :: parents p else parents p := by
  rw [parents, List.foldl_append, foldl_parents, List.foldl_cons, List.foldl_nil]
  simp only [List.reverse_reverse]

/-- The parents of a path are what comes before a slash. -/
theorem mem_parents_iff {p q : Path} : q ∈ parents p ↔ ∃ rest, p = q ++ slash :: rest := by
  induction p using List.reverseRecOn with
  | nil => simp
  | append_singleton p b ih =>
    have hconcat : (∃ rest, p ++ [b] = q ++ slash :: rest) ↔
        (q = p ∧ b = slash) ∨ ∃ rest, p = q ++ slash :: rest := by
      constructor
      · rintro ⟨rest, hrest⟩
        rcases List.eq_nil_or_concat rest with rfl | ⟨init, last, rfl⟩
        · obtain ⟨rfl, hb⟩ := List.append_inj' hrest rfl
          exact .inl ⟨rfl, List.cons.inj hb |>.1⟩
        · rw [List.concat_eq_append, ← List.cons_append, ← List.append_assoc] at hrest
          exact .inr ⟨init, (List.append_inj' hrest rfl).1⟩
      · rintro (⟨rfl, rfl⟩ | ⟨rest, rfl⟩)
        · exact ⟨[], rfl⟩
        · exact ⟨rest ++ [b], by simp⟩
    rw [hconcat, parents_append, ← ih]
    split
    · rename_i hb
      rw [List.mem_cons, and_iff_left hb]
    · rename_i hb
      rw [or_iff_right fun h => hb h.2]

theorem mem_parents_iff_isAbove {p q : Path} : q ∈ parents p ↔ q.IsAbove p := by
  rw [mem_parents_iff, isAbove_iff]

/-- After a parent come its own parents. -/
theorem parents_of_cons {p q : Path} {qs : List Path} (h : parents p = q :: qs) :
    qs = parents q := by
  induction p using List.reverseRecOn with
  | nil => simp at h
  | append_singleton p b ih =>
    rw [parents_append] at h
    split at h
    · obtain ⟨rfl, rfl⟩ := List.cons.inj h
      rfl
    · exact ih h

end Path

namespace Entry

/-! ## Sorting -/

theorem sort_perm (entries : List Entry) : (sort entries).Perm entries := List.mergeSort_perm _ _

theorem sort_sorted (entries : List Entry) :
    (sort entries).Pairwise fun a b => Bytes.le a.path b.path = true := by
  refine List.pairwise_mergeSort (fun a b c hab hbc => ?_) (fun a b => ?_) _
  · exact Std.TransCmp.isLE_trans hab hbc
  · have hswap : compare b.path a.path = (compare a.path b.path).swap := Std.OrientedOrd.eq_swap
    rw [Bool.or_eq_true, Bytes.le, Bytes.le, hswap]
    cases compare a.path b.path <;> simp

theorem sort_eq_self {entries : List Entry}
    (h : entries.Pairwise fun a b => Bytes.le a.path b.path = true) : sort entries = entries :=
  List.mergeSort_of_pairwise h

/-! ## Climbing to the parents -/

namespace Climb

variable {entries rest : List Entry} {dirs : List Path} {c : Climb} {p q : Path}

theorem known_add (hq : q ∈ c.known) : q ∈ (add dirs c).known := by
  induction dirs generalizing c with
  | nil => exact hq
  | cons dir dirs ih =>
    rw [add]
    split
    · exact hq
    · exact ih (Std.TreeSet.mem_insert.mpr (.inr hq))

/-- The directories that are known are those listed and those found missing. The missing ones are
parents of entries, each found once. -/
structure Sound (entries : List Entry) (c : Climb) : Prop where
  known : ∀ q, q ∈ c.known ↔ q ∈ c.missing ∨ { path := q, kind := .directory } ∈ entries
  nodup : c.missing.Nodup
  missing : ∀ q ∈ c.missing, { path := q, kind := .directory } ∉ entries ∧ ∃ e ∈ entries,
    q ∈ e.path.parents

theorem Sound.add (h : Sound entries c) (hdirs : ∀ q ∈ dirs, ∃ e ∈ entries, q ∈ e.path.parents) :
    Sound entries (add dirs c) := by
  induction dirs generalizing c with
  | nil => exact h
  | cons dir dirs ih =>
    rw [Climb.add]
    split
    · exact h
    · rename_i hnew
      rw [← Std.TreeSet.mem_iff_contains, h.known, not_or] at hnew
      refine ih ⟨fun q => ?_, List.nodup_cons.mpr ⟨hnew.1, h.nodup⟩, ?_⟩
        fun q hq => hdirs q (List.mem_cons_of_mem dir hq)
      · rw [Std.TreeSet.mem_insert, Std.LawfulEqCmp.compare_eq_iff_eq, h.known,
          List.mem_cons, or_assoc, eq_comm]
      · exact List.forall_mem_cons.mpr ⟨⟨hnew.2, hdirs dir List.mem_cons_self⟩, h.missing⟩

/-- The directory that a path is in is known. -/
def Settled (c : Climb) (p : Path) : Prop := ∀ q ∈ p.parents.head?, q ∈ c.known

/-- A climb from `p` settles it, and leaves no directory that it finds unsettled. -/
theorem settled_add {pending : Path → Prop}
    (h : ∀ q ∈ c.known, q = p ∨ c.Settled q ∨ pending q) :
    (add p.parents c).Settled p ∧
      ∀ q ∈ (add p.parents c).known, (add p.parents c).Settled q ∨ pending q := by
  -- The climb goes on from the parent just as from `p`, so the induction is on the parents left.
  induction hdirs : p.parents generalizing c p with
  | nil =>
    have hp : c.Settled p := by simp [Settled, hdirs]
    refine ⟨hp, fun q hq => ?_⟩
    rcases h q hq with rfl | hq
    · exact .inl hp
    · exact hq
  | cons dir dirs ih =>
    have hparent (c' : Climb) : c'.Settled p ↔ dir ∈ c'.known := by simp [Settled, hdirs]
    rw [add]
    split
    · rename_i hknown
      rw [← Std.TreeSet.mem_iff_contains, ← hparent] at hknown
      refine ⟨hknown, fun q hq => ?_⟩
      rcases h q hq with rfl | hq
      · exact .inl hknown
      · exact hq
    · obtain rfl := Path.parents_of_cons hdirs
      have hself : dir ∈ c.known.insert dir := Std.TreeSet.mem_insert_self
      refine And.imp_left (fun _ => (hparent _).mpr (known_add hself)) (ih ?_ rfl)
      intro q hq
      rw [Std.TreeSet.mem_insert, Std.LawfulEqCmp.compare_eq_iff_eq] at hq
      rcases hq with rfl | hq
      · exact .inl rfl
      · rcases h q hq with rfl | hsettled | hpending
        · exact .inr (.inl ((hparent _).mpr hself))
        · exact .inr (.inl fun q' hq' => Std.TreeSet.mem_insert.mpr (.inr (hsettled q' hq')))
        · exact .inr (.inr hpending)

/-- When all entries have had their turn, every directory that is known is settled, and so is every
entry. -/
theorem settled_foldl (hsound : Sound entries c) (hrest : ∀ e ∈ rest, e ∈ entries)
    (hsettled : ∀ q ∈ c.known, c.Settled q ∨ { path := q, kind := .directory } ∈ rest) :
    let c' := rest.foldl (fun c e => c.add e.path.parents) c
    Sound entries c' ∧ (∀ q ∈ c.known, q ∈ c'.known) ∧ (∀ q ∈ c'.known, c'.Settled q) ∧
      ∀ e ∈ rest, c'.Settled e.path := by
  induction rest generalizing c with
  | nil => exact ⟨hsound, fun _ => id, fun q hq => (hsettled q hq).resolve_right (by simp), by simp⟩
  | cons e rest ih =>
    have hpending (q : Path) (hq : q ∈ c.known) :
        q = e.path ∨ c.Settled q ∨ { path := q, kind := .directory } ∈ rest := by
      rcases hsettled q hq with hq | hq
      · exact .inr (.inl hq)
      · rcases List.mem_cons.mp hq with rfl | hq
        · exact .inl rfl
        · exact .inr (.inr hq)
    have hadd := settled_add hpending
    have hsound' : Sound entries (c.add e.path.parents) :=
      hsound.add fun q hq => ⟨e, hrest e List.mem_cons_self, hq⟩
    obtain ⟨hsound'', hknown, hall, hentries⟩ :=
      ih hsound' (fun e' he' => hrest e' (List.mem_cons_of_mem e he')) hadd.2
    refine ⟨hsound'', fun q hq => hknown q (known_add hq), hall, ?_⟩
    exact List.forall_mem_cons.mpr ⟨fun q hq => hknown q (hadd.1 q hq), hentries⟩

/-- Where all directories are settled, all parents of a settled path are known. -/
theorem known_of_settled (h : ∀ q ∈ c.known, c.Settled q) (hp : c.Settled p) (hq : q ∈ p.parents) :
    q ∈ c.known := by
  induction hdirs : p.parents generalizing p with
  | nil => simp [hdirs] at hq
  | cons dir dirs ih =>
    have hdir : dir ∈ c.known := hp dir (by simp [hdirs])
    rw [hdirs] at hq
    rcases List.mem_cons.mp hq with rfl | hq
    · exact hdir
    · obtain rfl := Path.parents_of_cons hdirs
      exact ih (h dir hdir) hq rfl

end Climb

variable {entries listed : List Entry} {added : List Path} {q : Path}

theorem mem_directories_iff :
    q ∈ directories entries ↔ { path := q, kind := .directory } ∈ entries := by
  rw [directories, Std.TreeSet.mem_ofList, List.contains_iff_mem, List.mem_map]
  constructor
  · rintro ⟨⟨p, kind⟩, he, rfl⟩
    obtain ⟨he, hkind⟩ := List.mem_filter.mp he
    obtain rfl : kind = .directory := by simpa [isDirectory] using hkind
    exact he
  · exact fun h => ⟨_, List.mem_filter.mpr ⟨h, rfl⟩, rfl⟩

/-- The climbs from all entries find each parent that is not listed. -/
theorem missingDirectories_spec (entries : List Entry) : (missingDirectories entries).Nodup ∧
    ∀ q, q ∈ missingDirectories entries ↔
      { path := q, kind := .directory } ∉ entries ∧ ∃ e ∈ entries, q ∈ e.path.parents := by
  have hsound : Climb.Sound entries { known := directories entries } :=
    ⟨fun q => by simp [mem_directories_iff], List.nodup_nil, by simp⟩
  obtain ⟨hsound', -, hall, hentries⟩ := Climb.settled_foldl hsound (fun _ => id)
    fun q hq => .inr (mem_directories_iff.mp hq)
  refine ⟨List.nodup_reverse.mpr hsound'.nodup, fun q => ?_⟩
  rw [missingDirectories, List.mem_reverse]
  constructor
  · exact hsound'.missing q
  · rintro ⟨hnot, e, he, hq⟩
    exact ((hsound'.known q).mp (Climb.known_of_settled hall (hentries e he) hq)).resolve_right hnot

/-! ## Completions -/

/-- A sorted listing of the entries together with the parent directories that they lack. -/
structure Completes (entries listed : List Entry) (added : List Path) : Prop where
  sorted : listed.Pairwise fun a b => Bytes.le a.path b.path = true
  perm : listed.Perm (entries ++ added.map fun path => { path, kind := .directory })
  nodup : added.Nodup
  mem_added : ∀ q, q ∈ added ↔
    (∃ e ∈ entries, q.IsAbove e.path) ∧ { path := q, kind := .directory } ∉ entries

theorem complete_perm (entries : List Entry) : (complete entries).Perm
    (entries ++ (missingDirectories entries).map fun path => { path, kind := .directory }) :=
  sort_perm _

theorem completes_complete (entries : List Entry) :
    Completes entries (complete entries) (missingDirectories entries) where
  sorted := sort_sorted _
  perm := complete_perm entries
  nodup := (missingDirectories_spec entries).1
  mem_added q := by
    simp only [(missingDirectories_spec entries).2, Path.mem_parents_iff_isAbove, and_comm]

/-- Every parent of an entry is listed. -/
def Closed (entries : List Entry) : Prop :=
  ∀ e ∈ entries, ∀ q ∈ e.path.parents, { path := q, kind := .directory } ∈ entries

namespace Completes

theorem mem_iff (h : Completes entries listed added) {e : Entry} :
    e ∈ listed ↔ e ∈ entries ∨ e.kind = .directory ∧ e.path ∈ added := by
  rw [h.perm.mem_iff, List.mem_append, List.mem_map]
  refine or_congr_right ⟨?_, fun ⟨hkind, hadded⟩ => ⟨e.path, hadded, ?_⟩⟩
  · rintro ⟨q, hq, rfl⟩
    exact ⟨rfl, hq⟩
  · rw [← hkind]

theorem closed (h : Completes entries listed added) : Closed listed := by
  -- What is above a directory that was added is above the entry that it was added for.
  have habove {e : Entry} {q : Path} (he : e ∈ entries) (hq : q.IsAbove e.path) :
      { path := q, kind := .directory } ∈ listed := by
    rw [h.mem_iff, h.mem_added]
    by_cases hgiven : { path := q, kind := .directory } ∈ entries
    · exact .inl hgiven
    · exact .inr ⟨rfl, ⟨e, he, hq⟩, hgiven⟩
  intro e he q hq
  rw [Path.mem_parents_iff_isAbove] at hq
  rcases h.mem_iff.mp he with he | ⟨-, hadded⟩
  · exact habove he hq
  · obtain ⟨⟨e', he', hpath⟩, -⟩ := (h.mem_added e.path).mp hadded
    exact habove he' (hq.trans hpath)

/-- Two listings that complete the same entries differ at most in the order of entries of one
path. -/
theorem perm_of_completes {listed' : List Entry} {added' : List Path}
    (h : Completes entries listed added) (h' : Completes entries listed' added') :
    listed.Perm listed' := by
  have hadded : added.Perm added' :=
    (List.perm_ext_iff_of_nodup h.nodup h'.nodup).mpr fun q => by rw [h.mem_added, h'.mem_added]
  exact h.perm.trans (((hadded.map _).append_left entries).trans h'.perm.symm)

end Completes

theorem mem_complete_iff {e : Entry} : e ∈ complete entries ↔
    e ∈ entries ∨ e.kind = .directory ∧ e.path ∈ missingDirectories entries :=
  (completes_complete entries).mem_iff

theorem closed_complete (entries : List Entry) : Closed (complete entries) :=
  (completes_complete entries).closed

theorem nodup_complete (h : entries.Nodup) : (complete entries).Nodup := by
  obtain ⟨hnodup, hmissing⟩ := missingDirectories_spec entries
  rw [(complete_perm entries).nodup_iff, List.nodup_append]
  refine ⟨h, hnodup.map fun _ _ => congrArg Entry.path, ?_⟩
  rintro e he _ hadded rfl
  obtain ⟨q, hq, rfl⟩ := List.mem_map.mp hadded
  exact ((hmissing q).mp hq).1 he

/-! ## Listings that are complete -/

/-- In a complete listing that is sorted, the parents of an entry come before it. -/
theorem Closed.mem_before {entries before after : List Entry} {e : Entry} {q rest : Path}
    (hclosed : Closed entries) (hsorted : entries.Pairwise fun a b => Bytes.le a.path b.path = true)
    (hentries : entries = before ++ e :: after) (hpath : e.path = q ++ Path.slash :: rest) :
    { path := q, kind := .directory } ∈ before := by
  have hlt : compare q e.path = .lt := by
    rw [hpath]
    exact Path.compare_append q rest Path.slash
  have hmem : { path := q, kind := .directory } ∈ entries :=
    hclosed e (by simp [hentries]) q (Path.mem_parents_iff.mpr ⟨rest, hpath⟩)
  rw [hentries] at hmem hsorted
  rcases List.mem_append.mp hmem with hmem | hmem
  · exact hmem
  · exfalso
    have hle : (compare e.path q).isLE = true := by
      rcases List.mem_cons.mp hmem with heq | hmem
      · rw [← heq]
        exact Std.ReflOrd.isLE_rfl
      · exact (List.pairwise_cons.mp (List.pairwise_append.mp hsorted).2.1).1 _ hmem
    rw [Std.OrientedOrd.eq_swap, hlt] at hle
    exact Bool.false_ne_true hle

theorem missingDirectories_eq_nil (hclosed : Closed entries) : missingDirectories entries = [] := by
  refine List.eq_nil_iff_forall_not_mem.mpr fun q hq => ?_
  obtain ⟨hlisted, e, he, hparent⟩ := ((missingDirectories_spec entries).2 q).mp hq
  exact hlisted (hclosed e he q hparent)

theorem complete_eq_self (hsorted : entries.Pairwise fun a b => Bytes.le a.path b.path = true)
    (hclosed : Closed entries) : complete entries = entries := by
  rw [complete, missingDirectories_eq_nil hclosed, List.map_nil, List.append_nil,
    sort_eq_self hsorted]

/-- Completing a listing sorts it and adds each path up to a slash of a listed path, once, unless it
is listed as a directory. However the sort leaves entries of one path, what is above a listed path
comes before it as a directory, and there is nothing to be added again. -/
theorem complete_completes (entries : List Entry) :
    Completes entries (complete entries) (missingDirectories entries) ∧
    ∀ listed added, Completes entries listed added →
      listed.Perm (complete entries) ∧
      (∀ before e after, listed = before ++ e :: after → ∀ q, q.IsAbove e.path →
        { path := q, kind := .directory } ∈ before) ∧
      missingDirectories listed = [] ∧ complete listed = listed := by
  refine ⟨completes_complete entries, fun listed added h => ⟨?_, ?_, ?_, ?_⟩⟩
  · exact h.perm_of_completes (completes_complete entries)
  · intro before e after hlisted q hq
    obtain ⟨rest, hpath⟩ := Path.isAbove_iff.mp hq
    exact h.closed.mem_before h.sorted hlisted hpath
  · exact missingDirectories_eq_nil h.closed
  · exact complete_eq_self h.sorted h.closed

/-- A directory and a file share a path. -/
def shared : List Entry :=
  [{ path := "a/b", kind := .directory }, { path := "a/b/c", kind := .file },
    { path := "a/b", kind := .file }]

/-- The file is listed before the directory, although it is given after it. -/
def sharedListed : List Entry :=
  [{ path := "a", kind := .directory }, { path := "a/b", kind := .file },
    { path := "a/b", kind := .directory }, { path := "a/b/c", kind := .file }]

theorem complete_completes_shared : Completes shared sharedListed ["a"] ∧
    sharedListed.Perm (complete shared) ∧ Path.IsAbove "a/b" "a/b/c" ∧
    { path := "a/b", kind := .directory } ∈ sharedListed.take 3 ∧
    missingDirectories sharedListed = [] ∧ complete sharedListed = sharedListed := by
  have hmissing : missingDirectories shared = [("a" : Path)] := by decide
  have hshared : Completes shared sharedListed ["a"] :=
    { (hmissing ▸ completes_complete shared : Completes shared (complete shared) ["a"]) with
      sorted := by decide
      perm := by decide }
  have habove : Path.IsAbove "a/b" "a/b/c" := ⟨3, rfl, rfl⟩
  obtain ⟨-, hcompletes⟩ := complete_completes shared
  obtain ⟨hperm, hbefore, hnone, hagain⟩ := hcompletes sharedListed ["a"] hshared
  exact ⟨hshared, hperm, habove, hbefore (sharedListed.take 3) _ [] rfl "a/b" habove, hnone, hagain⟩

end Entry

end JarRepair.Archive
