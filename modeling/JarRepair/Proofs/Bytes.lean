import JarRepair.Bytes

/-! # Parts of byte strings

A byte string is cut at its first separator, or split at all of them, and nothing is lost. -/

namespace JarRepair.Bytes

/-! ## The first separator -/

theorem cut?_eq_some_iff {sep : UInt8} {bs before after : Bytes} :
    cut? sep bs = some (before, after) ↔ sep ∉ before ∧ bs = before ++ sep :: after := by
  induction bs generalizing before after with
  | nil => simp [cut?]
  | cons b bs ih =>
    by_cases hb : b = sep
    · subst hb
      have hcut : cut? b (b :: bs) = some ([], bs) := by simp [cut?]
      rw [hcut]
      cases before with
      | nil => simp
      | cons b' before =>
        simp only [Option.some.injEq, Prod.mk.injEq, reduceCtorEq, false_and, List.mem_cons,
          List.cons_append, List.cons.injEq, false_iff]
        rintro ⟨hfree, rfl, -⟩
        exact hfree (.inl rfl)
    · have hcut : cut? sep (b :: bs) = (cut? sep bs).map (Prod.map (b :: ·) id) := by
        simp only [cut?, List.dropWhile_cons, List.takeWhile_cons, bne_iff_ne, ne_eq, hb,
          not_false_eq_true, if_true]
        cases bs.dropWhile (· != sep) <;> rfl
      cases before with
      | nil => simp [hcut, hb]
      | cons b' before =>
        simp only [hcut, Option.map_eq_some_iff, Prod.exists, ih, Prod.map_apply, id_eq,
          Prod.mk.injEq, List.cons.injEq, List.mem_cons, not_or, List.cons_append]
        constructor
        · rintro ⟨_, _, ⟨hfree, rfl⟩, ⟨rfl, rfl⟩, rfl⟩
          exact ⟨⟨Ne.symm hb, hfree⟩, rfl, rfl⟩
        · rintro ⟨⟨-, hfree⟩, rfl, rfl⟩
          exact ⟨before, after, ⟨hfree, rfl⟩, ⟨rfl, rfl⟩, rfl⟩

theorem cut?_eq_none_iff {sep : UInt8} {bs : Bytes} : cut? sep bs = none ↔ sep ∉ bs := by
  rw [Option.eq_none_iff_forall_ne_some]
  constructor
  · intro h hmem
    obtain ⟨before, after, rfl, hfree⟩ := List.eq_append_cons_of_mem hmem
    exact h _ (cut?_eq_some_iff.mpr ⟨hfree, rfl⟩)
  · rintro h ⟨before, after⟩ hcut
    obtain ⟨-, rfl⟩ := cut?_eq_some_iff.mp hcut
    exact h (by simp)

/-! ## All separators -/

theorem split_cons {sep c : UInt8} {bs part : Bytes} {parts : List Bytes} (hc : c ≠ sep)
    (h : split sep bs = part :: parts) : split sep (c :: bs) = (c :: part) :: parts := by
  rw [split] at h ⊢
  rw [List.foldr_cons, if_neg hc, h]

theorem split_eq_splitOn (sep : UInt8) (bs : Bytes) : split sep bs = bs.splitOn sep := by
  induction bs with
  | nil => rfl
  | cons b bs ih =>
    rw [List.splitOn_cons_eq_if_modifyHead, ← ih]
    by_cases hb : b = sep
    · rw [hb, split_sep, if_pos BEq.rfl]
    · obtain ⟨part, parts, hparts⟩ := List.exists_cons_of_ne_nil (split_ne_nil sep bs)
      rw [if_neg (by simpa using hb), split_cons hb hparts, hparts, List.modifyHead_cons]

theorem intercalate_split (sep : UInt8) (bs : Bytes) : [sep].intercalate (split sep bs) = bs := by
  rw [split_eq_splitOn, List.intercalate_splitOn]

theorem split_injective (sep : UInt8) : Function.Injective (split sep) :=
  Function.LeftInverse.injective (intercalate_split sep)

theorem split_append_sep (sep : UInt8) (a b : Bytes) :
    split sep (a ++ sep :: b) = split sep a ++ split sep b := by
  simp only [split_eq_splitOn, List.splitOn_append_cons_self]

theorem split_of_notMem {sep : UInt8} {bs : Bytes} (h : sep ∉ bs) : split sep bs = [bs] := by
  rw [split_eq_splitOn, List.splitOn_eq_singleton h]

end JarRepair.Bytes
