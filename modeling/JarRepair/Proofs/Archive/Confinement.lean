import JarRepair.Proofs.Archive.Path
import JarRepair.Proofs.Volume.Walk

/-! # Valid entry paths are confined

The parts of a valid path are names that lead down. From whatever directory they are walked, the way
is within it at every step and ends below it, and a walk on a volume that meets no link keeps to
that way. Parts are taken here as they are, a zero byte in one like any other byte. -/

namespace JarRepair

namespace Volume.Location

variable {name : Bytes} {names : List Bytes}

theorem step_of_isProper (loc : Location) (h : Archive.Path.isProper name = true) :
    loc.step name = loc ++ [name] := by
  obtain ⟨hne, hdot, hdots⟩ := Archive.Path.isProper_iff.mp h
  rw [step, if_neg (not_or.mpr ⟨hne, hdot⟩), if_neg hdots]

/-- Proper names lead down at every step. -/
theorem after_of_isProper (loc : Location) (h : ∀ name ∈ names, Archive.Path.isProper name = true) :
    loc.after names = loc ++ names := by
  induction names generalizing loc with
  | nil => exact (List.append_nil loc).symm
  | cons name names ih =>
    rw [List.forall_mem_cons] at h
    rw [after_cons, step_of_isProper loc h.1, ih _ h.2, ← List.append_cons]

end Volume.Location

namespace Archive.Path

open Volume (Location)

/-- A path has no message exactly if it is not empty, has no backslash, and no part of it is empty,
`.` or `..`. Then, from any root, its parts never lead out of the root and lead below it in the end;
a walk on a volume comes there unless it fails or meets a link on the way; and what is above the
path has no message either. -/
theorem accepted_confined (p : Path) :
    ((p.fault?.map fun fault => fault.text p).getD [] = [] ↔
      p ≠ [] ∧ backslash ∉ p ∧ ∀ part ∈ p.splitOn slash, part ≠ [] ∧ part ≠ "." ∧ part ≠ "..") ∧
    (p.fault? = none →
      (∀ (root : Location) parts, parts <+: p.splitOn slash → root <+: root.after parts) ∧
      (∀ root : Location, ∃ name below, root.after (p.splitOn slash) = root ++ name :: below) ∧
      (∀ (v : Volume) follow (root : Location),
        (v.advance follow root (p.splitOn slash)).Keeps root (p.splitOn slash)) ∧
      ∀ q : Path, q.IsAbove p → q.fault? = none) := by
  refine ⟨message_eq_nil_iff.trans fault?_eq_none_iff_parts, fun hvalid => ?_⟩
  obtain ⟨-, hproper⟩ := fault?_eq_none_iff.mp hvalid
  rw [components_eq_splitOn] at hproper
  refine ⟨fun root parts hparts => ?_, fun root => ?_, fun v follow root => ?_, fun q hq => ?_⟩
  · rw [root.after_of_isProper fun part hpart => hproper part (hparts.mem hpart)]
    exact List.prefix_append root parts
  · obtain ⟨name, below, hsplit⟩ := List.exists_cons_of_ne_nil (List.splitOn_ne_nil slash p)
    exact ⟨name, below, by rw [root.after_of_isProper hproper, hsplit]⟩
  · refine Volume.keeps_advance v follow root fun hnil => ?_
    exact Bool.false_ne_true (hproper [] hnil)
  · obtain ⟨rest, rfl⟩ := isAbove_iff.mp hq
    exact fault?_of_append hvalid

/-- Names that begin or end with dots are names. -/
def dotted : Path := "a/..b/..."

/-- All directories on the way are there. -/
def nested : Volume :=
  ((({} : Volume).put ["out"] .directory).put ["out", "a"] .directory).put
    ["out", "a", "..b"] .directory

theorem accepted_confined_dotted : dotted.fault? = none ∧
    [Bytes.ascii "a", "..b"] <+: dotted.splitOn slash ∧
    [Bytes.ascii "out"] <+: Location.after ["out"] ["a", "..b"] ∧
    (∃ name below, Location.after ["out"] (dotted.splitOn slash) = [Bytes.ascii "out"] ++
      name :: below) ∧
    nested.advance true ["out"] (dotted.splitOn slash) = .done
      (.ok (.vacant ["out", "a", "..b", "..."])) ∧
    (nested.advance true ["out"] (dotted.splitOn slash)).Keeps ["out"] (dotted.splitOn slash) ∧
    IsAbove "a/..b" dotted ∧ fault? "a/..b" = none := by
  have hvalid : dotted.fault? = none := by decide
  have hparts : [Bytes.ascii "a", "..b"] <+: dotted.splitOn slash := by decide
  have habove : IsAbove "a/..b" dotted := ⟨5, rfl, rfl⟩
  have hwalk : nested.advance true ["out"] (dotted.splitOn slash) =
      .done (.ok (.vacant ["out", "a", "..b", "..."])) := by rfl
  obtain ⟨-, hconfined⟩ := accepted_confined dotted
  obtain ⟨hwithin, hbelow, hkeeps, hprefix⟩ := hconfined hvalid
  exact ⟨hvalid, hparts, hwithin ["out"] _ hparts, hbelow ["out"], hwalk,
    hkeeps nested true ["out"], habove, hprefix _ habove⟩

end Archive.Path

end JarRepair
