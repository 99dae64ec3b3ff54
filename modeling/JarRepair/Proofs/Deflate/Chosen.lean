import Mathlib.Algebra.BigOperators.Ring.List
import JarRepair.Deflate.LengthCode
import JarRepair.Proofs.Deflate.Limits

/-! # Code lengths for counts

The lengths that are made of counts are those of a complete code with a word for each symbol that
occurs. -/

namespace JarRepair.Deflate

variable {limit : Nat} {symbols : List Nat} {depths : List (Nat × Nat)}

/-! ## Room -/

/-- No symbol is at depth 0, where there is room for nothing else. -/
theorem Limited.pos (h : Limited limit symbols depths) (htwo : 2 ≤ symbols.length) {x : Nat × Nat}
    (hx : x ∈ depths) : x.2 ≠ 0 := by
  intro hzero
  have hlength := h.symbols.length_eq
  rw [List.length_map] at hlength
  obtain ⟨y, others, hothers⟩ : ∃ y others, depths.erase x = y :: others := by
    refine List.exists_cons_of_length_pos ?_
    rw [List.length_erase_of_mem hx]
    omega
  have hsum := ((List.perm_cons_erase hx).map fun x => roomUpTo limit x.2).sum_eq
  have hpos : 0 < roomUpTo limit y.2 := Nat.two_pow_pos _
  rw [h.sum_eq, hothers, List.map_cons, List.map_cons, List.sum_cons, List.sum_cons, hzero] at hsum
  omega

theorem weight_eq_sum (lengths : List Nat) :
    weight lengths = (lengths.map fun l => if l = 0 then 0 else room l).sum := by
  rw [weight, ← List.sum_eq_foldl]
  rfl

/-- The depths take all the room of a code. -/
theorem Limited.sum_room (h : Limited limit symbols depths) (hlimit : limit ≤ maxCodeLength) :
    (depths.map fun x => room x.2).sum = fullWeight := by
  have hroom (d : Nat) (hd : d ≤ limit) :
      room d = roomUpTo limit d * 2 ^ (maxCodeLength - limit) := by
    rw [room, roomUpTo, ← Nat.pow_add]
    congr 1
    omega
  rw [List.map_congr_left fun x hx => hroom x.2 (h.le x hx), List.sum_map_mul_right, h.sum_eq,
    ← hroom 0 (Nat.zero_le limit)]
  rfl

/-! ## Lengths of symbols -/

/-- Each symbol gets its depth as a length. -/
def setAll (depths : List (Nat × Nat)) (lengths : Array Nat) : Array Nat :=
  depths.foldl (fun lengths (symbol, d) => lengths.setIfInBounds symbol d) lengths

variable {lengths : Array Nat}

theorem size_setAll (depths : List (Nat × Nat)) (lengths : Array Nat) :
    (setAll depths lengths).size = lengths.size := by
  induction depths generalizing lengths with
  | nil => rfl
  | cons x depths ih => rw [setAll, List.foldl_cons, ← setAll, ih, Array.size_setIfInBounds]

theorem getElem?_setAll_of_notMem {s : Nat} (h : s ∉ depths.map Prod.fst) :
    (setAll depths lengths)[s]? = lengths[s]? := by
  induction depths generalizing lengths with
  | nil => rfl
  | cons x depths ih =>
    rw [List.map_cons, List.mem_cons, not_or] at h
    rw [setAll, List.foldl_cons, ← setAll, ih h.2, Array.getElem?_setIfInBounds_ne (Ne.symm h.1)]

theorem getElem?_setAll_of_mem {x : Nat × Nat} (hnodup : (depths.map Prod.fst).Nodup)
    (hx : x ∈ depths) (hlt : x.1 < lengths.size) : (setAll depths lengths)[x.1]? = some x.2 := by
  induction depths generalizing lengths with
  | nil => exact absurd hx List.not_mem_nil
  | cons y depths ih =>
    rw [List.map_cons, List.nodup_cons] at hnodup
    rw [setAll, List.foldl_cons, ← setAll]
    rcases List.mem_cons.mp hx with rfl | hx
    · rw [getElem?_setAll_of_notMem hnodup.1, Array.getElem?_setIfInBounds_self_of_lt hlt]
    · exact ih hnodup.2 hx (by rwa [Array.size_setIfInBounds])

theorem weight_set {lengths : List Nat} {s : Nat} (h : lengths[s]? = some 0) (l : Nat) :
    weight (lengths.set s l) = weight lengths + if l = 0 then 0 else room l := by
  rw [weight_eq_sum, weight_eq_sum]
  induction lengths generalizing s with
  | nil => cases h
  | cons length lengths ih =>
    rcases s with _ | s
    · obtain rfl : length = 0 := Option.some.inj h
      rw [List.set_cons_zero, List.map_cons, List.map_cons, List.sum_cons,
        List.sum_cons, if_pos rfl]
      omega
    · rw [List.set_cons_succ, List.map_cons, List.map_cons, List.sum_cons, List.sum_cons, ih h]
      omega

theorem weight_setAll (hnodup : (depths.map Prod.fst).Nodup) (hpos : ∀ x ∈ depths, x.2 ≠ 0)
    (hzero : ∀ x ∈ depths, lengths[x.1]? = some 0) :
    weight (setAll depths lengths).toList =
      weight lengths.toList + (depths.map fun x => room x.2).sum := by
  induction depths generalizing lengths with
  | nil => rfl
  | cons x depths ih =>
    rw [List.map_cons, List.nodup_cons] at hnodup
    obtain ⟨hx, hothers⟩ := List.forall_mem_cons.mp hzero
    obtain ⟨hx', hothers'⟩ := List.forall_mem_cons.mp hpos
    have hset : lengths.toList[x.1]? = some 0 := by rwa [Array.getElem?_toList]
    rw [setAll, List.foldl_cons, ← setAll, ih hnodup.2 hothers' fun y hy => ?_,
      Array.toList_setIfInBounds, weight_set hset, if_neg hx', List.map_cons, List.sum_cons,
      Nat.add_assoc]
    have hne : x.1 ≠ y.1 := fun heq => hnodup.1 (List.mem_map.mpr ⟨y, hy, heq.symm⟩)
    rw [Array.getElem?_setIfInBounds_ne hne, hothers y hy]

theorem forall_mem_setAll {P : Nat → Prop} (hold : ∀ l ∈ lengths.toList, P l)
    (hnew : ∀ x ∈ depths, P x.2) :
    ∀ l ∈ (setAll depths lengths).toList, P l := by
  induction depths generalizing lengths with
  | nil => exact hold
  | cons x depths ih =>
    obtain ⟨hx, hothers⟩ := List.forall_mem_cons.mp hnew
    rw [setAll, List.foldl_cons, ← setAll]
    refine ih (fun l hl => ?_) hothers
    rw [Array.toList_setIfInBounds] at hl
    rcases List.mem_or_eq_of_mem_set hl with hl | rfl
    · exact hold l hl
    · exact hx

theorem foldl_max_le {bound n : Nat} (hn : n ≤ bound) (h : ∀ x ∈ depths, x.1 < bound) :
    depths.foldl (fun n (symbol, _) => max n (symbol + 1)) n ≤ bound := by
  induction depths generalizing n with
  | nil => exact hn
  | cons x depths ih =>
    obtain ⟨hx, hothers⟩ := List.forall_mem_cons.mp h
    exact ih (Nat.max_le.mpr ⟨hn, hx⟩) hothers

theorem lt_foldl_max (depths : List (Nat × Nat)) (n : Nat) :
    n ≤ depths.foldl (fun n (symbol, _) => max n (symbol + 1)) n ∧
    ∀ x ∈ depths, x.1 < depths.foldl (fun n (symbol, _) => max n (symbol + 1)) n := by
  induction depths generalizing n with
  | nil => exact ⟨Nat.le_refl n, fun _ hx => absurd hx List.not_mem_nil⟩
  | cons x depths ih =>
    obtain ⟨hle, hlt⟩ := ih (max n (x.1 + 1))
    refine ⟨(Nat.le_max_left _ _).trans hle, List.forall_mem_cons.mpr ⟨?_, hlt⟩⟩
    exact Nat.lt_of_lt_of_le (Nat.lt_succ_self x.1) ((Nat.le_max_right _ _).trans hle)

/-! ## Symbols -/

/-- The symbols that occur. -/
def usedSymbols (counts : Array Nat) : List (Nat × Nat) :=
  (counts.toList.zipIdx.filter fun (count, _) => count != 0).map fun (count, s) => (s, count)

variable {counts : Array Nat}

theorem mem_usedSymbols_iff {x : Nat × Nat} :
    x ∈ usedSymbols counts ↔ counts[x.1]? = some x.2 ∧ x.2 ≠ 0 := by
  simp only [usedSymbols, List.mem_map, List.mem_filter, List.mem_zipIdx_iff_getElem?, Prod.exists]
  constructor
  · rintro ⟨count, s, ⟨hcount, hne⟩, rfl⟩
    rw [Array.getElem?_toList] at hcount
    exact ⟨hcount, by simpa using hne⟩
  · rintro ⟨hcount, hne⟩
    exact ⟨x.2, x.1, ⟨by rwa [Array.getElem?_toList], by simpa using hne⟩, rfl⟩

theorem nodup_usedSymbols (counts : Array Nat) : ((usedSymbols counts).map Prod.fst).Nodup := by
  have hmap : (usedSymbols counts).map Prod.fst =
      (counts.toList.zipIdx.filter fun (count, _) => count != 0).map Prod.snd := by
    rw [usedSymbols, List.map_map]
    rfl
  rw [hmap]
  refine List.Nodup.sublist (List.filter_sublist.map _) ?_
  rw [List.zipIdx_map_snd]
  exact List.nodup_range'

/-- Another symbol is added where there are less than two. -/
theorem atLeastTwo_spec {used : List (Nat × Nat)} {bound : Nat} (hnodup : (used.map Prod.fst).Nodup)
    (hlt : ∀ x ∈ used, x.1 < bound) (hbound : 3 ≤ bound) :
    2 ≤ (atLeastTwo used).length ∧ ((atLeastTwo used).map Prod.fst).Nodup ∧
      (∀ x ∈ atLeastTwo used, x.1 < bound) ∧ ∀ x ∈ used, x ∈ atLeastTwo used := by
  rcases used with _ | ⟨⟨symbol, count⟩, _ | ⟨y, used⟩⟩
  · refine ⟨Nat.le_refl 2, by decide, ?_, by simp⟩
    simp only [atLeastTwo, List.forall_mem_cons]
    exact ⟨by omega, by omega, by simp⟩
  · have hsymbol : symbol < bound := hlt _ List.mem_cons_self
    have hother : symbol ≠ (if symbol < 2 then symbol + 1 else 0) ∧
        (if symbol < 2 then symbol + 1 else 0) < bound := by
      split <;> omega
    rw [atLeastTwo]
    generalize (if symbol < 2 then symbol + 1 else 0) = other at hother
    simp [hsymbol, hother.1, hother.2]
  · exact ⟨by simp [atLeastTwo], hnodup, hlt, fun x hx => hx⟩

/-! ## Codes -/

/-- Lengths of a complete code with a word for each symbol that occurs. -/
structure Chosen (limit : Nat) (counts : Array Nat) (lengths : List Nat) : Prop where
  length_le : lengths.length ≤ counts.size
  le : ∀ l ∈ lengths, l ≤ limit
  weight_eq : weight lengths = fullWeight
  used : ∀ s, counts.getD s 0 ≠ 0 → lengths.getD s 0 ≠ 0

/-- Joining symbols that occur gives depths for them. -/
theorem exists_limited (limit : Nat) {used : List (Nat × Nat)} (htwo : 2 ≤ used.length)
    (hroom : used.length ≤ roomUpTo limit 0) {groups : List Group}
    (hgroups : groups = used.map fun (symbol, count) => Group.ofSymbol symbol count) :
    ∃ g order, GroupHeap.joinAll groups.length (.ofList groups) [] = (some g, order) ∧
      Limited limit (used.map Prod.fst) (limitedDepths limit g.tree order.reverse) := by
  have hperm := GroupHeap.ofList_perm groups
  have hlength := hperm.length_eq
  have htwo' : groups.length = used.length := by rw [hgroups, List.length_map]
  rw [Array.length_toList] at hlength
  have hleaves (f : Tree → List Nat) (hf : ∀ s, f (.leaf s) = [s]) :
      ((GroupHeap.ofList groups).toList.flatMap fun g => f g.tree).Perm (used.map Prod.fst) := by
    refine (hperm.flatMap_right _).trans ?_
    rw [hgroups, List.flatMap_map, List.map_eq_flatMap]
    simp only [Group.ofSymbol, hf]
    exact List.Perm.refl _
  have hgathers : (GroupHeap.ofList groups).Gathers [] (used.map Prod.fst) := by
    refine ⟨hleaves Tree.symbols fun _ => rfl, hleaves Tree.ownSymbol fun _ => rfl, fun g hg => ?_,
      .inl (by omega)⟩
    rw [hperm.mem_iff, hgroups] at hg
    obtain ⟨x, -, rfl⟩ := List.mem_map.mp hg
    exact trivial
  obtain ⟨g, order, hjoin, hsymbols, hfull, horder⟩ :=
    hgathers.exists_joinAll (by omega) hlength.le
  refine ⟨g, order, hjoin,
    limited_limitedDepths hfull hsymbols ((List.reverse_perm order).trans horder) ?_⟩
  rwa [List.length_map]

theorem length_le_of_nodup {symbols : List Nat} {bound : Nat} (hnodup : symbols.Nodup)
    (hlt : ∀ s ∈ symbols, s < bound) : symbols.length ≤ bound := by
  have hle := (hnodup.subperm fun s hs => List.mem_range.mpr (hlt s hs)).length_le
  rwa [List.length_range] at hle

theorem Limited.chosen {counts : Array Nat} (h : Limited limit symbols depths)
    (hlimit : limit ≤ maxCodeLength) (hnodup : symbols.Nodup) (htwo : 2 ≤ symbols.length)
    (hlt : ∀ s ∈ symbols, s < counts.size) (hused : ∀ s, counts.getD s 0 ≠ 0 → s ∈ symbols) :
    Chosen limit counts (setAll depths (Array.replicate
      (depths.foldl (fun n (symbol, _) => max n (symbol + 1)) 0) 0)).toList := by
  obtain ⟨-, hbelow⟩ := lt_foldl_max depths 0
  have hkeys : (depths.map Prod.fst).Nodup := h.symbols.nodup_iff.mpr hnodup
  have hmem (x : Nat × Nat) (hx : x ∈ depths) : x.1 ∈ symbols :=
    h.symbols.mem_iff.mp (List.mem_map_of_mem hx)
  generalize hsize : depths.foldl (fun n (symbol, _) => max n (symbol + 1)) 0 = size at hbelow ⊢
  refine ⟨?_, forall_mem_setAll (fun l hl => ?_) h.le, ?_, fun s hs => ?_⟩
  · rw [Array.length_toList, size_setAll, Array.size_replicate, ← hsize]
    exact foldl_max_le (Nat.zero_le _) fun x hx => hlt x.1 (hmem x hx)
  · rw [Array.toList_replicate] at hl
    rw [List.eq_of_mem_replicate hl]
    exact Nat.zero_le _
  · rw [weight_setAll hkeys (fun x hx => h.pos htwo hx) fun x hx => ?_, h.sum_room hlimit]
    · rw [Array.toList_replicate, weight_eq_sum, List.map_replicate, if_pos rfl,
        List.sum_replicate_nat, Nat.mul_zero, Nat.zero_add]
    · rw [Array.getElem?_replicate, if_pos (hbelow x hx)]
  · obtain ⟨x, hx, rfl⟩ := List.mem_map.mp (h.symbols.mem_iff.mpr (hused s hs))
    have hlt : x.1 < (Array.replicate size 0).size := by
      rw [Array.size_replicate]
      exact hbelow x hx
    have hset := getElem?_setAll_of_mem hkeys hx hlt
    rw [List.getD_eq_getElem?_getD, Array.getElem?_toList, hset]
    exact h.pos htwo hx

/-- The lengths that are made of counts. -/
theorem chosen_lengthsFor {counts : Array Nat} (hlimit : limit ≤ maxCodeLength)
    (hthree : 3 ≤ counts.size) (hroom : counts.size ≤ roomUpTo limit 0) :
    Chosen limit counts (lengthsFor limit counts) := by
  obtain ⟨htwo, hnodup, hlt, hused⟩ := atLeastTwo_spec (nodup_usedSymbols counts)
    (fun x hx => (Array.getElem?_eq_some_iff.mp (mem_usedSymbols_iff.mp hx).1).1) hthree
  have hbelow : ∀ s ∈ (atLeastTwo (usedSymbols counts)).map Prod.fst, s < counts.size := by
    rintro s hs
    obtain ⟨x, hx, rfl⟩ := List.mem_map.mp hs
    exact hlt x hx
  have hlength := length_le_of_nodup hnodup hbelow
  rw [List.length_map] at hlength
  obtain ⟨g, order, hjoin, hlimited⟩ := exists_limited limit htwo (hlength.trans hroom) rfl
  have heq : lengthsFor limit counts =
      (setAll (limitedDepths limit g.tree order.reverse) (Array.replicate
        ((limitedDepths limit g.tree order.reverse).foldl
          (fun n (symbol, _) => max n (symbol + 1)) 0)
        0)).toList := by
    rw [lengthsFor, ← usedSymbols, hjoin]
    rfl
  rw [heq]
  refine hlimited.chosen hlimit hnodup (by rwa [List.length_map]) hbelow fun s hs => ?_
  rcases hcount : counts[s]? with _ | count
  · rw [Array.getD_eq_getD_getElem?, hcount] at hs
    exact absurd rfl hs
  · rw [Array.getD_eq_getD_getElem?, hcount] at hs
    exact List.mem_map_of_mem (hused (s, count) (mem_usedSymbols_iff.mpr ⟨hcount, hs⟩))

end JarRepair.Deflate
