import JarRepair.Proofs.Zip.Fields

/-! # Refused calls and the image

A writer that got some calls is compared with one that got the accepted ones only. Both hold the
same entries and have the same room left. What a refused call leaves behind is at most its name,
which stays reserved if there was no room for its entry. So the second writer accepts each call that
the first one accepts, and their images are the same. -/

namespace JarRepair.Zip.Writer

open JarRepair.Archive (Path alreadyFinished)

variable {w w' w₁ : Writer} {c : Call} {asked calls accepted : List Call} {path : Volume.Path}

/-! ## How a call ends -/

/-- There is no room for the entry of a call. -/
def IsFullFor (w : Writer) (c : Call) : Prop :=
  w.finished = true ∨ maxEntries ≤ w.count ∨ maxImage < w.bodyLength + c.stored.localLength

/-- The writer has been asked for a stored name. -/
def reserve (w : Writer) (name : Bytes) : Writer := { w with names := w.names.insert name }

/-- The writer has accepted a call. -/
def take (w : Writer) (c : Call) : Writer :=
  { w.reserve c.name with
    accepted := c.stored :: w.accepted
    count := w.count + 1
    bodyLength := w.bodyLength + c.stored.localLength }

theorem mem_names_reserve {name name' : Bytes} :
    name' ∈ (w.reserve name).names ↔ name' = name ∨ name' ∈ w.names := by
  rw [reserve, Std.TreeSet.mem_insert, Std.LawfulEqCmp.compare_eq_iff_eq, eq_comm]

theorem IsFullFor.take (h : w.IsFullFor c) (c' : Call) : (w.take c').IsFullFor c := by
  rcases h with h | h | h
  · exact .inl h
  · exact .inr (.inl (Nat.le_succ_of_le h))
  · refine .inr (.inr (Nat.lt_of_lt_of_le h ?_))
    exact Nat.add_le_add_right (Nat.le_add_right _ _) _

/-- An entry whose name is reserved for it is refused for lack of room only. -/
theorem accept_cases (w : Writer) (c : Call) :
    w.IsFullFor c ∧ (∃ e, (w.reserve c.name).accept c.stored = (.error e, w.reserve c.name)) ∨
      ¬ w.IsFullFor c ∧ (w.reserve c.name).accept c.stored = (.ok (), w.take c) := by
  by_cases hfinished : w.finished = true
  · exact .inl ⟨.inl hfinished, _, if_pos hfinished⟩
  · by_cases hcount : maxEntries ≤ w.count
    · exact .inl ⟨.inr (.inl hcount), _, (if_neg hfinished).trans (if_pos hcount)⟩
    · by_cases himage : maxImage < w.bodyLength + c.stored.localLength
      · exact .inl
          ⟨.inr (.inr himage), _, (if_neg hfinished).trans ((if_neg hcount).trans (if_pos himage))⟩
      · refine .inr ⟨fun h => h.elim hfinished fun h => h.elim hcount himage, ?_⟩
        exact (if_neg hfinished).trans ((if_neg hcount).trans (if_neg himage))

/-- A name is refused if it was asked for before, and else reserved, whether or not there is
room. -/
theorem addNamed_cases (w : Writer) (c : Call) (p : Path) :
    c.name ∈ w.names ∧ (∃ e, w.addNamed p c.name (fun _ => c.stored) = (.error e, w)) ∨
      c.name ∉ w.names ∧
        (w.IsFullFor c ∧
          (∃ e, w.addNamed p c.name (fun _ => c.stored) = (.error e, w.reserve c.name)) ∨
          ¬ w.IsFullFor c ∧ w.addNamed p c.name (fun _ => c.stored) = (.ok (), w.take c)) := by
  rw [Std.TreeSet.mem_iff_contains, addNamed]
  by_cases hname : w.names.contains c.name = true
  · exact .inl ⟨hname, _, if_pos hname⟩
  · rw [if_neg hname]
    exact .inr ⟨hname, w.accept_cases c⟩

/-- A call is refused by all writers for what it says, or it depends on the writer's names and
room. -/
theorem run_cases (c : Call) : (∃ e, ∀ w : Writer, c.run w = (.error e, w)) ∨
    ∃ p, ∀ w : Writer, c.run w = w.addNamed p c.name fun _ => c.stored := by
  cases c with
  | directory p =>
    cases hfault : p.fault? with
    | some fault => exact .inl ⟨_, fun w => by rw [Call.run, addDirectory, hfault]⟩
    | none => exact .inr ⟨p, fun w => by rw [Call.run, addDirectory, hfault]; rfl⟩
  | file p data =>
    cases hfault : p.fault? with
    | some fault => exact .inl ⟨_, fun w => by rw [Call.run, addFile, hfault]⟩
    | none =>
      by_cases hsize : maxFile < data.length
      · exact .inl ⟨_, fun w => by rw [Call.run, addFile, hfault]; exact if_pos hsize⟩
      · exact .inr ⟨p, fun w => by rw [Call.run, addFile, hfault]; exact if_neg hsize⟩

/-! ## Following the accepted calls -/

/-- The first writer was asked for some calls, and the second one only for those that were
accepted. -/
structure Follows (asked : List Call) (w w₁ : Writer) : Prop where
  finished : w₁.finished = w.finished
  accepted : w₁.accepted = w.accepted
  count : w₁.count = w.count
  bodyLength : w₁.bodyLength = w.bodyLength
  names : ∀ name ∈ w₁.names, name ∈ w.names
  left : ∀ name ∈ w.names, name ∉ w₁.names → ∃ c ∈ asked, c.name = name ∧ w.IsFullFor c

/-- How a call ends for both: the second writer gets it only if the first one accepts it. -/
def Follows.Next (asked : List Call) (c : Call) (w₁ : Writer) : Except Error Unit × Writer → Prop
  | (.ok _, w') => ∃ w₁', c.run w₁ = (.ok (), w₁') ∧ Follows (asked ++ [c]) w' w₁'
  | (.error _, w') => Follows (asked ++ [c]) w' w₁

namespace Follows

theorem fresh (path path' : Volume.Path) : Follows [] { path } { path := path' } where
  finished := rfl
  accepted := rfl
  count := rfl
  bodyLength := rfl
  names _ := id
  left _ hname := absurd hname Std.TreeSet.not_mem_emptyc

section

variable (h : Follows asked w w₁)

include h

theorem isFullFor_iff : w₁.IsFullFor c ↔ w.IsFullFor c := by
  rw [IsFullFor, IsFullFor, h.finished, h.count, h.bodyLength]

/-- A call that is refused changes neither writer. -/
theorem refuse (c : Call) : Follows (asked ++ [c]) w w₁ := by
  refine { h with left := ?_ }
  intro name hname hnot
  obtain ⟨c', hc', hleft⟩ := h.left name hname hnot
  exact ⟨c', List.mem_append_left _ hc', hleft⟩

/-- A call that is refused for lack of room leaves its name behind. -/
theorem reserve (hfull : w.IsFullFor c) : Follows (asked ++ [c]) (w.reserve c.name) w₁ := by
  refine { h with
    names := fun name hname => mem_names_reserve.mpr (.inr (h.names name hname))
    left := ?_ }
  intro name hname hnot
  rcases mem_names_reserve.mp hname with rfl | hname
  · exact ⟨c, List.mem_append_right _ (List.mem_singleton_self c), rfl, hfull⟩
  · exact (h.refuse c).left name hname hnot

theorem take (c : Call) : Follows (asked ++ [c]) (w.take c) (w₁.take c) where
  finished := h.finished
  accepted := congrArg (c.stored :: ·) h.accepted
  count := congrArg (· + 1) h.count
  bodyLength := congrArg (· + c.stored.localLength) h.bodyLength
  names name hname := by
    have hname : name = c.name ∨ name ∈ w₁.names := mem_names_reserve.mp hname
    exact mem_names_reserve.mpr (hname.imp_right (h.names name))
  left name hname hnot := by
    have hnot : ¬ (name = c.name ∨ name ∈ w₁.names) := fun hmem => hnot (mem_names_reserve.mpr hmem)
    rw [not_or] at hnot
    obtain ⟨c', hc', heq, hfull⟩ :=
      (h.refuse c).left name ((mem_names_reserve.mp hname).resolve_left hnot.1) hnot.2
    exact ⟨c', hc', heq, hfull.take c⟩

theorem next_run (c : Call) : Next asked c w₁ (c.run w) := by
  rcases run_cases c with ⟨e, hrefused⟩ | ⟨p, hnamed⟩
  · rw [hrefused]
    exact h.refuse c
  · rcases w.addNamed_cases c p with ⟨-, e, hrun⟩ | ⟨hnew, ⟨hfull, e, hrun⟩ | ⟨hroom, hrun⟩⟩
    · rw [hnamed, hrun]
      exact h.refuse c
    · rw [hnamed, hrun]
      exact h.reserve hfull
    · rw [hnamed, hrun]
      refine ⟨w₁.take c, ?_, h.take c⟩
      rcases w₁.addNamed_cases c p with ⟨hname₁, -⟩ | ⟨-, ⟨hfull₁, -⟩ | ⟨-, hrun₁⟩⟩
      · exact absurd (h.names c.name hname₁) hnew
      · exact absurd (h.isFullFor_iff.mp hfull₁) hroom
      · rw [hnamed, hrun₁]

/-- A call that the second writer accepts is refused by the first one only if it was asked for the
name before, by a call that there was no room for. -/
theorem run_of_run {w₁' : Writer} (hrun : c.run w₁ = (.ok (), w₁')) :
    (∃ w', c.run w = (.ok (), w')) ∨ ∃ c' ∈ asked, c'.name = c.name ∧
      maxImage < w.bodyLength + c'.stored.localLength := by
  rcases run_cases c with ⟨e, hrefused⟩ | ⟨p, hnamed⟩
  · rw [hrefused] at hrun
    exact nomatch hrun
  · have haccepts : c.name ∉ w₁.names ∧ ¬ w₁.IsFullFor c := by
      rcases w₁.addNamed_cases c p with ⟨-, e, hrun₁⟩ | ⟨hnew, ⟨-, e, hrun₁⟩ | ⟨hroom, -⟩⟩
      · exact nomatch hrun.symm.trans ((hnamed w₁).trans hrun₁)
      · exact nomatch hrun.symm.trans ((hnamed w₁).trans hrun₁)
      · exact ⟨hnew, hroom⟩
    have hroom : ¬ w.IsFullFor c := fun hfull => haccepts.2 (h.isFullFor_iff.mpr hfull)
    rcases w.addNamed_cases c p with ⟨hname, -⟩ | ⟨-, ⟨hfull, -⟩ | ⟨-, hrun⟩⟩
    · obtain ⟨c', hc', heq, hfull⟩ := h.left c.name hname haccepts.1
      refine .inr ⟨c', hc', heq, (hfull.resolve_left ?_).resolve_left ?_⟩
      · exact fun hfinished => hroom (.inl hfinished)
      · exact fun hcount => hroom (.inr (.inl hcount))
    · exact absurd hfull hroom
    · exact .inl ⟨w.take c, by rw [hnamed, hrun]⟩

/-- A writer that gets the accepted calls only accepts all of them, and follows to the end. -/
theorem runAll (calls : List Call) : ∃ w₁', w₁.acceptAll (w.runAll calls).1 = .ok w₁' ∧
    Follows (asked ++ calls) (w.runAll calls).2 w₁' := by
  induction calls generalizing asked w w₁ with
  | nil => exact ⟨w₁, rfl, by rwa [List.append_nil]⟩
  | cons c calls ih =>
    have hnext := h.next_run c
    rw [List.append_cons, Writer.runAll]
    rcases hrun : c.run w with ⟨_ | _, w'⟩
    · rw [hrun] at hnext
      exact ih hnext
    · rw [hrun] at hnext
      obtain ⟨w₁', hrun₁, h'⟩ := hnext
      obtain ⟨w₂, haccepts, hfollows⟩ := ih h'
      refine ⟨w₂, ?_, hfollows⟩
      rw [acceptAll, List.foldlM_cons, step, hrun₁]
      exact haccepts

theorem entries_eq : w₁.entries = w.entries := congrArg List.reverse h.accepted

theorem finish (hfinish : w.finish = .ok w') :
    ∃ w₁', w₁.finish = .ok w₁' ∧ w₁'.image = w'.image := by
  have hsame : w₁.finish = (fun _ => { w₁ with finished := true }) <$> w.finish := by
    rw [Writer.finish, Writer.finish, h.finished, h.bodyLength, h.entries_eq]
    split
    · rfl
    · split <;> rfl
  rw [hsame, hfinish]
  refine ⟨_, rfl, ?_⟩
  rw [image_of_finish hfinish, ← h.entries_eq]
  rfl

end

end Follows

/-! ## After the end -/

theorem finished_of_finish (h : w.finish = .ok w') : w'.finished = true := by
  rw [finish] at h
  split at h
  · cases h
  · split at h
    · cases h
    · obtain rfl := Except.ok.inj h
      rfl

theorem finish_of_finished (h : w.finished = true) : w.finish = .error alreadyFinished := if_pos h

theorem image_reserve (w : Writer) (name : Bytes) : (w.reserve name).image = w.image := rfl

/-- A finished writer refuses a call, and its image stays. -/
theorem run_of_finished (h : w.finished = true) (c : Call) :
    ∃ e w', c.run w = (.error e, w') ∧ w'.finished = true ∧ w'.image = w.image := by
  rcases run_cases c with ⟨e, hrefused⟩ | ⟨p, hnamed⟩
  · exact ⟨e, w, hrefused w, h, rfl⟩
  · rcases w.addNamed_cases c p with ⟨-, e, hrun⟩ | ⟨-, ⟨-, e, hrun⟩ | ⟨hroom, -⟩⟩
    · exact ⟨e, w, by rw [hnamed, hrun], h, rfl⟩
    · exact ⟨e, w.reserve c.name, by rw [hnamed, hrun], h, w.image_reserve c.name⟩
    · exact absurd (.inl h) hroom

theorem runAll_of_finished (h : w.finished = true) (calls : List Call) :
    ∃ w', w.runAll calls = ([], w') ∧ w'.finished = true ∧ w'.image = w.image := by
  induction calls generalizing w with
  | nil => exact ⟨w, rfl, h, rfl⟩
  | cons c calls ih =>
    obtain ⟨e, w₁, hrun, hfinished, himage⟩ := run_of_finished h c
    obtain ⟨w', hall, hfinished', himage'⟩ := ih hfinished
    refine ⟨w', ?_, hfinished', himage'.trans himage⟩
    rw [runAll, hrun]
    exact hall

/-! ## Images -/

/-- The image is that of a writer which gets the accepted calls only, and accepts them all. It has
each stored name once. What such a writer accepts next is refused only for a name that there was no
room for before. Once the image is finished every call is refused, and it stays as it is. -/
theorem image_of_accepted (hrun : ({ path } : Writer).runAll calls = (accepted, w))
    (himage : (layout w.entries).length < 4294967296) (path' : Volume.Path) :
    ∃ w', w.finish = .ok w' ∧
      (∃ w₁ w₁', ({ path := path' } : Writer).acceptAll accepted = .ok w₁ ∧ w₁.finish = .ok w₁' ∧
        w₁'.image = w'.image ∧
        ∀ (c : Call) w₂, c.run w₁ = (.ok (), w₂) → (∃ w₃, c.run w = (.ok (), w₃)) ∨
          ∃ c' ∈ calls, c'.name = c.name ∧ maxImage < w.bodyLength + c'.stored.localLength) ∧
      (accepted.map Call.name).Nodup ∧
      (∀ before c after, accepted = before ++ c :: after →
        CentralAt w'.image (centralPosition w.entries (before.map Call.stored))
          (c.stored.centralHeader (localPosition (before.map Call.stored))) c.name) ∧
      ∀ further, ∃ w'', w'.runAll further = ([], w'') ∧ w''.image = w'.image ∧
        w''.finish = .error alreadyFinished := by
  have hw : w.Holds accepted := holds_of_runAll hrun
  have hfinish : w.finish = .ok { w with finished := true } := hw.finish_eq himage
  obtain ⟨w₁, haccepts, hfollows⟩ := (Follows.fresh path path').runAll calls
  rw [hrun] at haccepts hfollows
  obtain ⟨w₁', hfinish₁, himage₁⟩ := hfollows.finish hfinish
  refine ⟨_, hfinish, ⟨w₁, w₁', haccepts, hfinish₁, himage₁, fun c w₂ => hfollows.run_of_run⟩,
    hw.nodup, ?_, ?_⟩
  · rintro before c after rfl
    have hentries : w.entries = before.map Call.stored ++ c.stored :: after.map Call.stored := by
      rw [hw.entries, List.map_append, List.map_cons]
    rw [image_of_finish hfinish, ← c.name_stored]
    exact centralAt_layout hentries
  · intro further
    obtain ⟨w'', hall, hfinished, himage'⟩ :=
      runAll_of_finished (finished_of_finish hfinish) further
    exact ⟨w'', hall, himage', finish_of_finished hfinished⟩

/-- Of six calls two are accepted; the others have a path that is not valid, or were made before. -/
def mixedCalls : List Call := [.directory "d", .directory "d/../e", .file "d/f" [], .directory "d",
  .file "/f" [], .file "d/f" "more"]

/-- The image is that of the two accepted calls. -/
theorem image_of_accepted_mixed : ∃ w w' w₁ w₁' : Writer,
    ({ path := "o" } : Writer).runAll mixedCalls = ([.directory "d", .file "d/f" []], w) ∧
    w.finish = .ok w' ∧
    ({ path := "p" } : Writer).acceptAll [.directory "d", .file "d/f" []] = .ok w₁ ∧
    w₁.finish = .ok w₁' ∧ w₁'.image = w'.image ∧
    ∃ w'', w'.runAll mixedCalls = ([], w'') ∧ w''.image = w'.image := by
  have hruns : (({ path := "o" } : Writer).runAll mixedCalls).1 = [.directory "d", .file "d/f" []] ∧
      (layout (({ path := "o" } : Writer).runAll mixedCalls).2.entries).length < 4294967296 := by
    decide +kernel
  rcases hrun : ({ path := "o" } : Writer).runAll mixedCalls with ⟨accepted, w⟩
  rw [hrun] at hruns
  obtain ⟨rfl, himage⟩ := hruns
  obtain ⟨w', hfinish, ⟨w₁, w₁', haccepts, hfinish₁, himage₁, -⟩, -, -, hafter⟩ :=
    image_of_accepted hrun himage "p"
  obtain ⟨w'', hall, himage', -⟩ := hafter mixedCalls
  exact ⟨w, w', w₁, w₁', rfl, hfinish, haccepts, hfinish₁, himage₁, w'', hall, himage'⟩

end JarRepair.Zip.Writer
