import Mathlib.Data.List.Induction
import Mathlib.Data.List.TakeWhile
import JarRepair.Proofs.Bytes
import JarRepair.Volume.Path

/-! # The names in a path

A path is walked name by name. Its parent has the names before the filename, and a path that is made
longer at its end, by a slash or by an ending of the filename, keeps the names before. -/

namespace JarRepair.Volume.Path

variable {p q : Path}

theorem exists_last_slash (p : Path) : slash ∉ p ∨ ∃ a b, slash ∉ b ∧ p = a ++ slash :: b := by
  induction p using List.reverseRecOn with
  | nil => exact .inl List.not_mem_nil
  | append_singleton p c ih =>
    by_cases hc : c = slash
    · exact .inr ⟨p, [], List.not_mem_nil, by rw [hc]⟩
    · rcases ih with h | ⟨a, b, h, rfl⟩
      · exact .inl (by simp [h, Ne.symm hc])
      · exact .inr ⟨a, b ++ [c], by simp [h, Ne.symm hc], by simp⟩

/-! ## Names -/

/-- What stands between the slashes. -/
def names (p : Path) : List Bytes := (Bytes.split slash p).filter (· != [])

@[simp] theorem names_nil : names [] = [] := rfl

theorem names_append_slash (p q : Path) : names (p ++ slash :: q) = names p ++ names q := by
  rw [names, Bytes.split_append_sep, List.filter_append, ← names, ← names]

theorem names_of_notMem (h : slash ∉ p) : names p = if p = [] then [] else [p] := by
  rw [names, Bytes.split_of_notMem h]
  split
  · rename_i hp
    rw [hp]
    rfl
  · rename_i hp
    rw [List.filter_cons_of_pos (by simpa using hp), List.filter_nil]

theorem names_slashed (p : Path) : names (p ++ [slash]) = names p := by
  rw [names_append_slash, names_nil, List.append_nil]

theorem trimSlashes_slashed (p : Path) : trimSlashes (p ++ [slash]) = trimSlashes p := by
  simp [trimSlashes]

theorem trimSlashes_of_hasFilename (h : hasFilename p = true) : trimSlashes p = p := by
  rw [hasFilename] at h
  split at h
  · simp at h
  · rename_i b hb
    obtain ⟨d, rfl⟩ := List.getLast?_eq_some_iff.mp hb
    have hb' : b ≠ slash := by simpa using h
    simp [trimSlashes, hb']

theorem names_trimSlashes (p : Path) : names (trimSlashes p) = names p := by
  induction p using List.reverseRecOn with
  | nil => rfl
  | append_singleton d b ih =>
    by_cases hb : b = slash
    · rw [hb, trimSlashes_slashed, names_slashed, ih]
    · rw [trimSlashes_of_hasFilename (by simp [hasFilename, hb])]

/-! ## Filenames -/

/-- What can come before a filename: nothing, or a text that ends with a slash. -/
def IsStem (d : Path) : Prop := d = [] ∨ ∃ e, d = e ++ [slash]

theorem isStem_or_hasFilename (p : Path) : IsStem p ∨ hasFilename p = true := by
  rcases List.eq_nil_or_concat p with rfl | ⟨d, b, rfl⟩
  · exact .inl (.inl rfl)
  · by_cases hb : b = slash
    · exact .inl (.inr ⟨d, by rw [hb, List.concat_eq_append]⟩)
    · exact .inr (by simp [hasFilename, hb])

/-- A path with a filename, split before it. -/
theorem exists_filename (h : hasFilename p = true) :
    ∃ d name, IsStem d ∧ slash ∉ name ∧ name ≠ [] ∧ p = d ++ name := by
  induction p using List.reverseRecOn with
  | nil => simp [hasFilename] at h
  | append_singleton p b ih =>
    have hb : slash ≠ b := by
      rintro rfl
      simp [hasFilename] at h
    rcases isStem_or_hasFilename p with hp | hp
    · exact ⟨p, [b], hp, by simpa using hb, by simp, rfl⟩
    · obtain ⟨d, name, hd, hname, -, rfl⟩ := ih hp
      exact ⟨d, name ++ [b], hd, by simpa using ⟨hname, hb⟩, by simp, List.append_assoc d name [b]⟩

theorem parent_eq {d : Path} (hall : ¬p.all (· == slash) = true)
    (hd : (p.reverse.dropWhile (· != slash)).reverse = d) : parent p =
      if d = [] then [] else if trimSlashes d = [] then [slash] else trimSlashes d := by
  rw [parent, if_neg hall, hd]
  cases d with
  | nil => rfl
  | cons c d =>
    rw [if_neg (List.cons_ne_nil c d)]
    dsimp only
    split
    · rename_i htrim
      rw [htrim, if_pos rfl]
    · rename_i htrim
      rw [if_neg htrim]

section

variable {d name : Path} (hd : IsStem d) (h : slash ∉ name)

include h

theorem ne_slash_of_mem_reverse : ∀ b ∈ name.reverse, (b != slash) = true := by
  intro b hb
  rw [bne_iff_ne]
  rintro rfl
  exact h (List.mem_reverse.mp hb)

include hd

theorem filename_append : filename (d ++ name) = name := by
  rw [filename, List.reverse_append, List.takeWhile_append_of_pos (ne_slash_of_mem_reverse h)]
  rcases hd with rfl | ⟨e, rfl⟩ <;> simp

omit h in
theorem names_append : names (d ++ name) = names d ++ names name := by
  rcases hd with rfl | ⟨e, rfl⟩
  · rfl
  · rw [List.append_assoc, List.singleton_append, names_append_slash, names_slashed]

theorem dropWhile_append :
    ((d ++ name).reverse.dropWhile (· != slash)).reverse = d := by
  rw [List.reverse_append, List.dropWhile_append_of_pos (ne_slash_of_mem_reverse h)]
  rcases hd with rfl | ⟨e, rfl⟩ <;> simp

theorem parent_append (hne : name ≠ []) : parent (d ++ name) =
    if d = [] then [] else if trimSlashes d = [] then [slash] else trimSlashes d := by
  obtain ⟨b, hb⟩ := List.exists_mem_of_ne_nil name hne
  refine parent_eq ?_ (dropWhile_append hd h)
  rw [List.all_eq_true]
  intro hall
  exact h (beq_iff_eq.mp (hall b (List.mem_append_right d hb)) ▸ hb)

end

theorem trimSlashes_prefix (p : Path) : trimSlashes p <+: p := by
  rw [trimSlashes, ← List.reverse_suffix, List.reverse_reverse]
  exact List.dropWhile_suffix _

theorem trimSlashes_eq_nil_iff : trimSlashes p = [] ↔ p.all (· == slash) = true := by
  rw [trimSlashes, List.reverse_eq_nil_iff, List.dropWhile_eq_nil_iff, List.all_eq_true]
  simp only [List.mem_reverse]

theorem eq_slash_cons_of_trimSlashes_eq_nil (h : trimSlashes p = []) (hne : p ≠ []) :
    ∃ rest, p = slash :: rest := by
  rw [trimSlashes_eq_nil_iff] at h
  obtain ⟨b, rest, rfl⟩ := List.exists_cons_of_ne_nil hne
  rw [List.all_cons, Bool.and_eq_true, beq_iff_eq] at h
  exact ⟨rest, by rw [h.1]⟩

theorem isAbsolute_of_prefix {q : Path} (h : q <+: p) (hne : q ≠ []) :
    isAbsolute q = isAbsolute p := by
  obtain ⟨rest, rfl⟩ := h
  obtain ⟨b, q, rfl⟩ := List.exists_cons_of_ne_nil hne
  rfl

section

variable (h : hasFilename p = true)

include h

theorem names_eq_parent_append : names p = names (parent p) ++ [filename p] := by
  obtain ⟨d, name, hd, hslash, hne, rfl⟩ := exists_filename h
  rw [filename_append hd hslash, parent_append hd hslash hne, names_append hd,
    names_of_notMem hslash, if_neg hne]
  split
  · rename_i hnil
    rw [hnil]
  · split
    · rename_i htrim
      rw [← names_trimSlashes d, htrim]
      rfl
    · rw [names_trimSlashes]

theorem parent_prefix : parent p <+: p := by
  obtain ⟨d, name, hd, hslash, hne, rfl⟩ := exists_filename h
  rw [parent_append hd hslash hne]
  split
  · exact List.nil_prefix
  · rename_i hd'
    split
    · rename_i htrim
      obtain ⟨rest, rfl⟩ := eq_slash_cons_of_trimSlashes_eq_nil htrim hd'
      exact ⟨rest ++ name, rfl⟩
    · exact ( trimSlashes_prefix d).trans (List.prefix_append d name)

theorem isAbsolute_parent : isAbsolute (parent p) = isAbsolute p := by
  by_cases hparent : parent p = []
  · obtain ⟨d, name, hd, hslash, hne, rfl⟩ := exists_filename h
    rw [parent_append hd hslash hne] at hparent
    rw [parent_append hd hslash hne, hparent]
    split at hparent
    · rename_i hnil
      subst hnil
      obtain ⟨b, name, rfl⟩ := List.exists_cons_of_ne_nil hne
      rw [List.mem_cons, not_or] at hslash
      simpa [isAbsolute] using Ne.symm hslash.1
    · split at hparent
      · simp at hparent
      · rename_i htrim
        exact absurd hparent htrim
  · exact isAbsolute_of_prefix ( parent_prefix h) hparent

end

/-! ## Trailing slashes -/

theorem parent_of_isStem (h : IsStem p) (hne : trimSlashes p ≠ []) : parent p = trimSlashes p := by
  have hd := dropWhile_append h (List.not_mem_nil (a := slash))
  rw [List.append_nil] at hd
  rw [parent_eq (fun hall => hne (trimSlashes_eq_nil_iff.mpr hall)) hd, if_neg hne, if_neg]
  rintro rfl
  exact hne rfl

theorem hasFilename_trimSlashes (hne : trimSlashes p ≠ []) :
    hasFilename (trimSlashes p) = true := by
  induction p using List.reverseRecOn with
  | nil => exact absurd rfl hne
  | append_singleton d b ih =>
    by_cases hb : b = slash
    · rw [hb, trimSlashes_slashed] at hne ⊢
      exact ih hne
    · have hname : hasFilename (d ++ [b]) = true := by simp [hasFilename, hb]
      rwa [trimSlashes_of_hasFilename hname]

theorem withoutTrailingSlash_eq (p : Path) : withoutTrailingSlash p =
    if trimSlashes p = [] then p else trimSlashes p := by
  rw [withoutTrailingSlash]
  split
  · rename_i h
    rw [trimSlashes_of_hasFilename h, ite_self]
  · rename_i h
    split
    · rename_i htrim
      rw [parent, if_pos (trimSlashes_eq_nil_iff.mp htrim)]
    · rename_i htrim
      exact parent_of_isStem ((isStem_or_hasFilename p).resolve_right h) htrim

/-- The parent of a path ends with a filename, or the path had nothing else. -/
theorem hasFilename_parent_or (h : hasFilename p = true) :
    hasFilename (parent p) = true ∨ trimSlashes (parent p) = [] := by
  obtain ⟨d, name, hd, hslash, hne, rfl⟩ := exists_filename h
  rw [parent_append hd hslash hne]
  split
  · exact .inr rfl
  · split
    · exact .inr rfl
    · rename_i htrim
      exact .inl (hasFilename_trimSlashes htrim)

/-! ## Longer paths -/

section

variable {tail : Path} (htail : slash ∉ tail)

include htail

theorem hasFilename_append (hne : tail ≠ []) : hasFilename (p ++ tail) = true := by
  obtain ⟨front, b, rfl⟩ := (List.eq_nil_or_concat tail).resolve_left hne
  rw [List.concat_eq_append, List.mem_append, not_or, List.mem_singleton] at htail
  simpa [hasFilename] using Ne.symm htail.2

theorem filename_append_tail (h : hasFilename p = true) :
    filename (p ++ tail) = filename p ++ tail := by
  obtain ⟨d, name, hd, hslash, -, rfl⟩ := exists_filename h
  rw [List.append_assoc, filename_append hd hslash, filename_append hd (by simp [hslash, htail])]

theorem parent_append_tail (h : hasFilename p = true) : parent (p ++ tail) = parent p := by
  obtain ⟨d, name, hd, hslash, hname, rfl⟩ := exists_filename h
  rw [List.append_assoc, parent_append hd hslash hname,
    parent_append hd (by simp [hslash, htail]) (by simp [hname])]

end

/-- Below a path that ends with a filename, another path is appended after a slash. -/
theorem join_eq (h : hasFilename p = true) (hne : q ≠ []) (hslash : q.head? ≠ some slash) :
    join p q = p ++ slash :: q := by
  obtain ⟨b, q, rfl⟩ := List.exists_cons_of_ne_nil hne
  rw [join, if_neg (by simpa using hslash), if_pos h]

/-! ## Components -/

theorem takeWhile_of_notMem_zero (h : (0 : UInt8) ∉ p) : p.takeWhile (· != 0) = p := by
  refine List.takeWhile_eq_self_iff.mpr fun b hb => ?_
  rw [bne_iff_ne]
  rintro rfl
  exact h hb

theorem components_eq (h : (0 : UInt8) ∉ p) :
    components p =
      if hasFilename p || names p == [] then names p else names p ++ [Bytes.ascii "."] := by
  rw [components, takeWhile_of_notMem_zero h]
  rfl

theorem zero_notMem_takeWhile (p : Path) : (0 : UInt8) ∉ p.takeWhile (· != 0) := by
  induction p with
  | nil => exact List.not_mem_nil
  | cons b p ih =>
    rw [List.takeWhile_cons]
    split
    · rename_i hb
      rw [List.mem_cons, not_or]
      exact ⟨Ne.symm (by simpa using hb), ih⟩
    · exact List.not_mem_nil

theorem components_takeWhile (p : Path) : components (p.takeWhile (· != 0)) = components p := by
  rw [components, takeWhile_of_notMem_zero (zero_notMem_takeWhile p), components]

/-- After a slash there is a last name, or `.` for the directory before it. -/
theorem components_last {d b : Path} (h : (0 : UInt8) ∉ d ++ slash :: b) (hb : slash ∉ b)
    (hd : names d ≠ []) :
    components (d ++ slash :: b) = names d ++ [if b = [] then Bytes.ascii "." else b] := by
  rw [components_eq h, names_append_slash, names_of_notMem hb]
  by_cases hnil : b = []
  · subst hnil
    simp [hasFilename, hd]
  · have hname : hasFilename (d ++ slash :: b) = true := by
      rw [List.append_cons]
      exact hasFilename_append hb hnil
    rw [hname, Bool.true_or, if_pos rfl, if_neg hnil, if_neg hnil]

/-- Of the names below a path only the last can be other than those in the text: a zero byte cuts it
off. -/
theorem exists_components_below {z : Path} (hz : (0 : UInt8) ∉ z) (hne : names z ≠ []) (p : Path) :
    ∃ front last, components (z ++ slash :: p) = names z ++ (front ++ [last]) ∧
      ∀ name ∈ front, name ∈ Bytes.split slash p := by
  have htext : (z ++ slash :: p).takeWhile (· != 0) = z ++ slash :: p.takeWhile (· != 0) := by
    rw [List.takeWhile_append_of_pos, List.takeWhile_cons_of_pos (by decide)]
    intro b hb
    rw [bne_iff_ne]
    rintro rfl
    exact hz hb
  have hzero := zero_notMem_takeWhile (z ++ slash :: p)
  rw [← components_takeWhile]
  rw [htext] at hzero ⊢
  obtain ⟨cut, hcut⟩ := List.takeWhile_prefix (p := (· != 0)) (l := p)
  rcases exists_last_slash (p.takeWhile (· != 0)) with hb | ⟨a, b, hb, hp⟩
  · refine ⟨[], _, components_last hzero hb hne, ?_⟩
    simp
  · rw [hp] at hzero hcut ⊢
    rw [List.append_cons, ← List.append_assoc] at hzero ⊢
    refine ⟨names a, if b = [] then Bytes.ascii "." else b, ?_, ?_⟩
    · rw [components_last hzero hb, ← List.append_cons, names_append_slash, List.append_assoc]
      rw [← List.append_cons, names_append_slash]
      simp [hne]
    · intro name hname
      rw [← hcut, List.append_assoc, List.cons_append, Bytes.split_append_sep]
      exact List.mem_append_left _ (List.mem_filter.mp hname).1

/-! ## Paths that do not turn back -/

def isDots (name : Bytes) : Bool := name = "." || name = ".."

/-- No `.` and no `..` comes after another name. -/
def Straight (p : Path) : Prop := ∀ name ∈ (names p).dropWhile isDots, isDots name = false

instance (p : Path) : Decidable (Straight p) :=
  inferInstanceAs (Decidable (∀ name ∈ (names p).dropWhile isDots, isDots name = false))

/-- After an ordinary name there are only such. -/
theorem Straight.ordinary (h : Straight p) {front back : List Bytes} {name name' : Bytes}
    (hnames : names p = front ++ name :: back) (hname : isDots name = false) (hmem : name' ∈ back) :
    isDots name' = false := by
  refine h name' ?_
  rw [hnames, List.dropWhile_append]
  have hback : (name :: back).dropWhile isDots = name :: back := by
    rw [List.dropWhile_cons_of_neg (by simp [hname])]
  rw [hback]
  split
  · exact List.mem_cons_of_mem name hmem
  · exact List.mem_append_right _ (List.mem_cons_of_mem name hmem)

theorem Straight.of_append (h : Straight p) {back : List Bytes}
    (hnames : names p = names q ++ back) :
    Straight q := by
  intro name hname
  refine h name ?_
  rw [hnames, List.dropWhile_append, if_neg]
  · exact List.mem_append_left back hname
  · rw [List.isEmpty_iff]
    exact List.ne_nil_of_mem hname

end JarRepair.Volume.Path
