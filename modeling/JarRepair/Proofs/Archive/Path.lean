import JarRepair.Archive.Path
import JarRepair.Proofs.Volume.Path

/-! # Valid entry paths

A path is valid if it has no backslash and all its components are proper: an empty path, and one
that begins or ends with a slash, has a component that is empty. So whatever comes before a slash of
a valid path is a valid path too, and it comes first in the order of paths. -/

namespace JarRepair.Archive.Path

variable {p q : Path}

theorem isProper_iff {part : Bytes} :
    isProper part = true ↔ part ≠ [] ∧ part ≠ "." ∧ part ≠ ".." := by
  simp only [isProper, Bool.and_eq_true, bne_iff_ne, and_assoc]

theorem components_eq_splitOn (p : Path) : p.components = p.splitOn slash :=
  Bytes.split_eq_splitOn slash p

theorem components_append (p q : Path) :
    components (p ++ slash :: q) = components p ++ components q :=
  Bytes.split_append_sep slash p q

/-- Beside a slash at an end there is an empty component. -/
theorem nil_mem_components (h : p = [] ∨ p.head? = some slash ∨ p.getLast? = some slash) :
    [] ∈ p.components := by
  rcases h with rfl | hhead | hlast
  · exact List.mem_singleton_self []
  · obtain ⟨rest, rfl⟩ := List.head?_eq_some_iff.mp hhead
    exact List.mem_append_left (components rest) (List.mem_singleton_self [])
  · obtain ⟨init, rfl⟩ := List.getLast?_eq_some_iff.mp hlast
    rw [components_append]
    exact List.mem_append_right (components init) (List.mem_singleton_self [])

theorem fault?_eq_none_iff :
    p.fault? = none ↔ backslash ∉ p ∧ ∀ part ∈ p.components, isProper part = true := by
  by_cases hends : p = [] ∨ p.head? = some slash ∨ p.getLast? = some slash
  · refine iff_of_false ?_ fun h => Bool.false_ne_true (h.2 [] (nil_mem_components hends))
    rw [fault?]
    rcases hends with rfl | hends
    · simp
    · have hslash : (p.head? = some slash || p.getLast? = some slash) = true := by simpa using hends
      rw [hslash]
      split <;> simp
  · obtain ⟨hne, hslash⟩ := not_or.mp hends
    rw [fault?, if_neg hne, if_neg (by simpa using hslash)]
    by_cases hbackslash : backslash ∈ p
    · simp [hbackslash]
    · simp [hbackslash]

/-- A valid path neither begins nor ends with a slash. -/
theorem ends_of_fault? (h : p.fault? = none) :
    p ≠ [] ∧ p.head? ≠ some slash ∧ p.getLast? ≠ some slash := by
  obtain ⟨-, hproper⟩ := fault?_eq_none_iff.mp h
  rw [← not_or, ← not_or]
  intro hends
  exact Bool.false_ne_true (hproper [] (nil_mem_components hends))

theorem fault?_eq_none_iff_parts : p.fault? = none ↔
    p ≠ [] ∧ backslash ∉ p ∧ ∀ part ∈ p.splitOn slash, part ≠ [] ∧ part ≠ "." ∧ part ≠ ".." := by
  rw [← components_eq_splitOn]
  simp only [← isProper_iff]
  rw [← fault?_eq_none_iff]
  exact ⟨fun h => ⟨(ends_of_fault? h).1, h⟩, And.right⟩

theorem text_ne_nil (fault : Fault) : fault.text p ≠ [] := by
  cases fault <;> exact List.cons_ne_nil _ _

/-- A path is valid if there is no message about it. -/
theorem message_eq_nil_iff :
    (p.fault?.map fun fault => fault.text p).getD [] = [] ↔ p.fault? = none := by
  cases p.fault? with
  | none => simp
  | some fault => simp [text_ne_nil]

/-- What comes before a slash of a valid path is valid. -/
theorem fault?_of_append (h : fault? (q ++ slash :: p) = none) : q.fault? = none := by
  obtain ⟨hbackslash, hproper⟩ := fault?_eq_none_iff.mp h
  rw [components_append] at hproper
  refine fault?_eq_none_iff.mpr
    ⟨fun hq => hbackslash (List.mem_append_left _ hq), fun part hpart => ?_⟩
  exact hproper part (List.mem_append_left _ hpart)

/-! ## What is above a path -/

/-- A path up to one of its slashes. -/
def IsAbove (q p : Path) : Prop := ∃ i, p[i]? = some slash ∧ q = p.take i

theorem isAbove_iff : q.IsAbove p ↔ ∃ rest, p = q ++ slash :: rest := by
  constructor
  · rintro ⟨i, hslash, rfl⟩
    obtain ⟨hi, hget⟩ := List.getElem?_eq_some_iff.mp hslash
    refine ⟨p.drop (i + 1), ?_⟩
    rw [← hget, ← List.drop_eq_getElem_cons hi, List.take_append_drop]
  · rintro ⟨rest, rfl⟩
    exact ⟨q.length, by simp, by simp⟩

theorem IsAbove.trans {q' : Path} (h : q.IsAbove q') (h' : q'.IsAbove p) : q.IsAbove p := by
  rw [isAbove_iff] at h h' ⊢
  obtain ⟨rest, rfl⟩ := h
  obtain ⟨rest', rfl⟩ := h'
  exact ⟨rest ++ slash :: rest', by rw [List.append_assoc, List.cons_append]⟩

/-- A path comes before all paths that go on from it. -/
theorem compare_append (q rest : Path) (b : UInt8) : compare q (q ++ b :: rest) = .lt := by
  induction q with
  | nil => rfl
  | cons c q ih =>
    have hself : compare c c = .eq := Std.ReflCmp.compare_self
    rw [List.cons_append, List.compare_cons_cons, hself]
    exact ih

end JarRepair.Archive.Path
