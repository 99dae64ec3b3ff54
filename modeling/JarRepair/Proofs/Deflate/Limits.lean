import Mathlib.Algebra.BigOperators.Intervals
import JarRepair.Proofs.Deflate.Groups

/-! # Limited depths

The leaves of a tree without gaps take all the room there is. Leaves that are deeper than a limit
take too much of it once they are pulled up, by one word of the greatest length for two nodes below
the limit; each time a symbol is lowered, one word is given back. In the end the lengths take all
the room again. -/

namespace JarRepair.Deflate

variable {limit : Nat} {f : Nat → Nat}

/-! ## Depths of a tree -/

/-- A sum over depths, those below a limit pulled up to it. -/
def total (limit : Nat) (f : Nat → Nat) (depths : List (Nat × Nat)) : Nat :=
  (depths.map fun x => f (min x.2 limit)).sum

@[simp] theorem total_append (depths depths' : List (Nat × Nat)) :
    total limit f (depths ++ depths') = total limit f depths + total limit f depths' := by
  rw [total, List.map_append, List.sum_append, total, total]

/-- How much room a word takes, counted in words of the greatest length. -/
def roomUpTo (limit l : Nat) : Nat := 2 ^ (limit - l)

theorem roomUpTo_self (limit : Nat) : roomUpTo limit limit = 1 := by
  rw [roomUpTo, Nat.sub_self, Nat.pow_zero]

theorem roomUpTo_eq {l : Nat} (h : l < limit) : roomUpTo limit l = 2 * roomUpTo limit (l + 1) := by
  rw [roomUpTo, roomUpTo, ← Nat.pow_succ']
  congr 1
  omega

namespace Tree

variable {t : Tree} {depth : Nat}

theorem le_of_mem_depths {x : Nat × Nat} (hx : x ∈ t.depths depth) : depth ≤ x.2 := by
  induction t generalizing depth with
  | leaf symbol =>
    rw [List.mem_singleton.mp hx]
  | node zero one hzero hone =>
    rcases List.mem_append.mp hx with hx | hx
    · exact Nat.le_of_succ_le (hzero hx)
    · exact Nat.le_of_succ_le (hone hx)
  | gap => exact absurd hx List.not_mem_nil

theorem total_depths_of_le (h : limit ≤ depth) (f : Nat → Nat) :
    total limit f (t.depths depth) = (t.depths depth).length * f limit := by
  rw [total, List.map_congr_left fun x hx =>
    congrArg f (Nat.min_eq_right (h.trans (le_of_mem_depths hx))),
    List.map_const', List.sum_replicate_nat]

/-- Below the limit a tree has one node less than twice its leaves. -/
theorem Full.deeper_add_one (h : t.Full) (hdepth : limit < depth) :
    t.deeper limit depth + 1 = 2 * (t.depths depth).length := by
  induction t generalizing depth with
  | leaf symbol =>
    rw [deeper, if_pos hdepth]
    rfl
  | node zero one hzero hone =>
    have hleft := hzero h.1 (Nat.lt_add_right 1 hdepth)
    have hright := hone h.2 (Nat.lt_add_right 1 hdepth)
    rw [deeper, if_pos hdepth, depths, List.length_append]
    omega
  | gap => exact h.elim

/-- The nodes below the limit are two for each word that is taken in excess. -/
theorem Full.two_mul_total (h : t.Full) (hdepth : depth ≤ limit) :
    2 * total limit (roomUpTo limit) (t.depths depth) =
      2 * roomUpTo limit depth + t.deeper limit depth := by
  induction t generalizing depth with
  | leaf symbol =>
    rw [deeper, if_neg (Nat.not_lt.mpr hdepth)]
    simp [depths, total, hdepth]
  | node zero one hzero hone =>
    rw [deeper, if_neg (Nat.not_lt.mpr hdepth), depths, total_append]
    rcases Nat.eq_or_lt_of_le hdepth with rfl | (hlt : depth + 1 ≤ limit)
    · -- Both sides are below the limit with all their nodes.
      have hleft := h.1.deeper_add_one (Nat.lt_add_one depth)
      have hright := h.2.deeper_add_one (Nat.lt_add_one depth)
      rw [total_depths_of_le (Nat.le_add_right depth 1),
        total_depths_of_le (Nat.le_add_right depth 1), roomUpTo_self]
      omega
    · have hleft := hzero h.1 hlt
      have hright := hone h.2 hlt
      rw [roomUpTo_eq hlt]
      omega
  | gap => exact h.elim

/-- At the limit there are enough leaves to take the excess from. -/
theorem Full.deeper_le (h : t.Full) (hdepth : depth ≤ limit) :
    t.deeper limit depth ≤
      2 * total limit (fun l => if l = limit then 1 else 0) (t.depths depth) := by
  induction t generalizing depth with
  | leaf symbol =>
    rw [deeper, if_neg (Nat.not_lt.mpr hdepth)]
    exact Nat.zero_le _
  | node zero one hzero hone =>
    rw [deeper, if_neg (Nat.not_lt.mpr hdepth), depths, total_append]
    rcases Nat.eq_or_lt_of_le hdepth with rfl | (hlt : depth + 1 ≤ limit)
    · have hleft := h.1.deeper_add_one (Nat.lt_add_one depth)
      have hright := h.2.deeper_add_one (Nat.lt_add_one depth)
      rw [total_depths_of_le (Nat.le_add_right depth 1),
        total_depths_of_le (Nat.le_add_right depth 1), if_pos rfl]
      omega
    · have hleft := hzero h.1 hlt
      have hright := hone h.2 hlt
      omega
  | gap => exact h.elim

theorem le_limit_of_deeper_eq_zero (h : t.deeper limit depth = 0) {x : Nat × Nat}
    (hx : x ∈ t.depths depth) : x.2 ≤ limit := by
  induction t generalizing depth with
  | leaf symbol =>
    rw [List.mem_singleton.mp hx]
    refine Nat.not_lt.mp fun hlt => ?_
    rw [deeper, if_pos hlt] at h
    exact absurd h Nat.one_ne_zero
  | node zero one hzero hone =>
    rw [deeper] at h
    rcases List.mem_append.mp hx with hx | hx
    · exact hzero (by omega) hx
    · exact hone (by omega) hx
  | gap => exact absurd hx List.not_mem_nil

end Tree

/-! ## Numbers of symbols -/

/-- A sum over the symbols of all levels. -/
def weigh (f : Nat → Nat) (numbers : Array Nat) : Nat :=
  ∑ l ∈ Finset.range numbers.size, numbers.getD l 0 * f l

variable {numbers : Array Nat} {l : Nat}

theorem getD_modify (change : Nat → Nat) (hl : l < numbers.size) (k : Nat) :
    (numbers.modify l change).getD k 0 =
      if k = l then change (numbers.getD l 0) else numbers.getD k 0 := by
  rw [Array.getD_eq_getD_getElem?, Array.getD_eq_getD_getElem?, Array.getD_eq_getD_getElem?,
    Array.getElem?_modify]
  split
  · rename_i heq
    rw [if_pos heq.symm, ← heq, Array.getElem?_eq_getElem hl]
    rfl
  · rename_i hne
    rw [if_neg (Ne.symm hne)]

theorem weigh_modify (f change : Nat → Nat) (hl : l < numbers.size) :
    weigh f (numbers.modify l change) + numbers.getD l 0 * f l =
      weigh f numbers + change (numbers.getD l 0) * f l := by
  have hmem : l ∈ Finset.range numbers.size := Finset.mem_range.mpr hl
  have hothers :
      ∑ k ∈ (Finset.range numbers.size).erase l, (numbers.modify l change).getD k 0 * f k =
      ∑ k ∈ (Finset.range numbers.size).erase l, numbers.getD k 0 * f k :=
    Finset.sum_congr rfl fun k hk => by
      rw [getD_modify change hl, if_neg (Finset.ne_of_mem_erase hk)]
  rw [weigh, weigh, Array.size_modify, ← Finset.add_sum_erase _ _ hmem, hothers,
    ← Finset.add_sum_erase _ (fun l => numbers.getD l 0 * f l) hmem, getD_modify change hl,
    if_pos rfl]
  omega

/-- Symbols that take more room than there is: all of them have their places, and the excess is at
the limit. -/
structure Excess (limit n excess : Nat) (numbers : Array Nat) : Prop where
  size_eq : numbers.size = limit + 1
  count_eq : weigh (fun _ => 1) numbers = n
  room_eq : weigh (roomUpTo limit) numbers = roomUpTo limit 0 + excess
  le : excess ≤ numbers.getD limit 0

section

/-! One symbol goes down a level, and another one from the limit comes beside it. -/

variable (hsize : numbers.size = limit + 1) (hl : l < limit)
include hsize hl

theorem getD_lowered :
    ((numbers.modify l (· - 1)).modify (l + 1) (· + 2)).getD limit 0 =
      if limit = l + 1 then numbers.getD limit 0 + 2 else numbers.getD limit 0 := by
  have hat : l < numbers.size := by omega
  have hbelow : l + 1 < (numbers.modify l (· - 1)).size := by
    rw [Array.size_modify]
    omega
  rw [getD_modify _ hbelow, getD_modify _ hat, getD_modify _ hat, if_neg hl.ne',
    if_neg (Nat.succ_ne_self l)]
  split
  · rename_i heq
    rw [heq]
  · rfl

theorem weigh_lowered (hsome : numbers.getD l 0 ≠ 0) (hlimit : numbers.getD limit 0 ≠ 0)
    (f : Nat → Nat) :
    weigh f (((numbers.modify l (· - 1)).modify (l + 1) (· + 2)).modify limit (· - 1)) +
      f l + f limit = weigh f numbers + 2 * f (l + 1) := by
  have hbelow : l + 1 < (numbers.modify l (· - 1)).size := by
    rw [Array.size_modify]
    omega
  have hlast : limit < ((numbers.modify l (· - 1)).modify (l + 1) (· + 2)).size := by
    rw [Array.size_modify, Array.size_modify]
    omega
  have hstays : ((numbers.modify l (· - 1)).modify (l + 1) (· + 2)).getD limit 0 ≠ 0 := by
    rw [getD_lowered hsize hl]
    split
    · exact Nat.succ_ne_zero _
    · exact hlimit
  obtain ⟨m, hm⟩ := Nat.exists_eq_succ_of_ne_zero hsome
  obtain ⟨k, hk⟩ := Nat.exists_eq_succ_of_ne_zero hstays
  have hfirst := weigh_modify f (· - 1) (show l < numbers.size by omega)
  have hsecond := weigh_modify f (· + 2) hbelow
  have hthird := weigh_modify f (· - 1) hlast
  simp only [hm, hk, Nat.succ_sub_one, Nat.succ_mul] at hfirst hsecond hthird
  omega

end

/-- As long as there is an excess, some symbol is above the limit, and lowering it makes the excess
less by one. -/
theorem Excess.lower {n excess : Nat} (h : Excess limit n (excess + 1) numbers)
    (hn : n ≤ roomUpTo limit 0) : Excess limit n excess (lower limit numbers) := by
  obtain ⟨hsize, hcount, hroom, hle⟩ := h
  rw [Deflate.lower]
  split
  · rename_i hnone
    have hzero (l : Nat) (hl : l < limit) : numbers.getD l 0 = 0 := by
      simpa using List.find?_eq_none.mp hnone l (by simpa using hl)
    have hweigh (f : Nat → Nat) : weigh f numbers = numbers.getD limit 0 * f limit := by
      rw [weigh, hsize, Finset.sum_range_succ, Finset.sum_eq_zero fun l hl => ?_, Nat.zero_add]
      rw [hzero l (Finset.mem_range.mp hl), Nat.zero_mul]
    rw [hweigh] at hcount hroom
    rw [roomUpTo_self] at hroom
    omega
  · rename_i l hfound
    have hl : l < limit := by simpa using List.mem_of_find?_eq_some hfound
    have hsome : numbers.getD l 0 ≠ 0 := by simpa using List.find?_some hfound
    have hweigh := weigh_lowered hsize hl hsome (Nat.ne_zero_of_lt hle)
    have hcount' := hweigh fun _ => 1
    have hroom' := hweigh (roomUpTo limit)
    rw [roomUpTo_self, roomUpTo_eq hl] at hroom'
    refine ⟨by simp only [Array.size_modify, hsize], by omega, by omega, ?_⟩
    rw [getD_modify _ (by simp only [Array.size_modify]; omega), if_pos rfl, getD_lowered hsize hl]
    split <;> omega

theorem Excess.repeat_lower {n : Nat} (hn : n ≤ roomUpTo limit 0) (times : Nat)
    (h : Excess limit n times numbers) :
    Excess limit n 0 (Nat.repeat (Deflate.lower limit) times numbers) := by
  suffices hleft : ∀ k excess, Excess limit n (excess + k) numbers →
      Excess limit n excess (Nat.repeat (Deflate.lower limit) k numbers) from
    hleft times 0 (by rwa [Nat.zero_add])
  intro k
  induction k with
  | zero => exact fun _ h => h
  | succ k ih =>
    intro excess h
    exact (ih (excess + 1) (by rwa [Nat.add_right_comm])).lower hn

/-! ## Levels for symbols -/

/-- The levels that are given out. -/
def levels (limit : Nat) (numbers : Array Nat) : List Nat :=
  (List.range (limit + 1)).reverse.flatMap fun l => List.replicate (numbers.getD l 0) l

theorem sum_levels (hsize : numbers.size = limit + 1) (f : Nat → Nat) :
    ((levels limit numbers).map f).sum = weigh f numbers := by
  have hrange (n : Nat) :
      (((List.range n).flatMap fun l => List.replicate (numbers.getD l 0) l).map f).sum =
        ∑ l ∈ Finset.range n, numbers.getD l 0 * f l := by
    induction n with
    | zero => rfl
    | succ n ih =>
      rw [List.range_succ, List.flatMap_append, List.map_append, List.sum_append, ih,
        Finset.sum_range_succ, List.flatMap_singleton, List.map_replicate, List.sum_replicate_nat]
  rw [weigh, hsize, ← hrange, levels]
  exact (((List.reverse_perm _).flatMap_right _).map f).sum_eq

/-- How many symbols are on each level, those below the limit counted there. -/
def countLevels (limit : Nat) (depths : List (Nat × Nat)) (numbers : Array Nat) : Array Nat :=
  depths.foldl (fun numbers (_, d) => numbers.modify (min d limit) (· + 1)) numbers

theorem weigh_countLevels (hsize : numbers.size = limit + 1) (depths : List (Nat × Nat)) :
    (countLevels limit depths numbers).size = limit + 1 ∧
      ∀ f, weigh f (countLevels limit depths numbers) = weigh f numbers + total limit f depths := by
  induction depths generalizing numbers with
  | nil => exact ⟨hsize, fun f => rfl⟩
  | cons x depths ih =>
    obtain ⟨symbol, d⟩ := x
    have hlt : min d limit < numbers.size := by omega
    have hsize₁ : (numbers.modify (min d limit) (· + 1)).size = limit + 1 := by
      rwa [Array.size_modify]
    obtain ⟨hsize', hweigh⟩ := ih hsize₁
    refine ⟨hsize', fun f => ?_⟩
    have hstep := weigh_modify f (· + 1) hlt
    have htotal : total limit f ((symbol, d) :: depths) = f (min d limit) + total limit f depths :=
      List.sum_cons
    rw [Nat.succ_mul] at hstep
    rw [countLevels, List.foldl_cons, ← countLevels, hweigh, htotal]
    omega

theorem weigh_at_limit (hsize : numbers.size = limit + 1) :
    weigh (fun l => if l = limit then 1 else 0) numbers = numbers.getD limit 0 := by
  rw [weigh, hsize, Finset.sum_range_succ, Finset.sum_eq_zero fun l hl => ?_,
    Nat.zero_add, if_pos rfl, Nat.mul_one]
  rw [if_neg (Finset.mem_range.mp hl).ne, Nat.mul_zero]

theorem Tree.Full.excess {t : Tree} (h : t.Full) {n : Nat} (hn : (t.depths 0).length = n) :
    ∃ excess, t.deeper limit 0 = 2 * excess ∧
      Excess limit n excess (countLevels limit (t.depths 0) (Array.replicate (limit + 1) 0)) := by
  have hempty (f : Nat → Nat) : weigh f (Array.replicate (limit + 1) 0) = 0 := by
    refine Finset.sum_eq_zero fun l _ => ?_
    rw [Array.getD_eq_getD_getElem?, Array.getElem?_replicate]
    split <;> exact Nat.zero_mul _
  have hlevels : (Array.replicate (limit + 1) 0).size = limit + 1 := Array.size_replicate
  obtain ⟨hsize, hweigh⟩ := weigh_countLevels hlevels (t.depths 0)
  have hroom := h.two_mul_total (Nat.zero_le limit)
  have hdeep := h.deeper_le (Nat.zero_le limit)
  simp only [hempty, Nat.zero_add] at hweigh
  rw [← hweigh] at hroom hdeep
  rw [weigh_at_limit hsize] at hdeep
  refine ⟨weigh (roomUpTo limit) (countLevels limit (t.depths 0) (Array.replicate (limit + 1) 0)) -
    roomUpTo limit 0, by omega, hsize, ?_, by omega, by omega⟩
  rw [hweigh, ← hn, total, List.map_const', List.sum_replicate_nat, Nat.mul_one]

/-! ## Limited depths -/

/-- Symbols with depths up to a limit that take just the room there is. -/
structure Limited (limit : Nat) (symbols : List Nat) (depths : List (Nat × Nat)) : Prop where
  symbols : (depths.map Prod.fst).Perm symbols
  le : ∀ x ∈ depths, x.2 ≤ limit
  sum_eq : (depths.map fun x => roomUpTo limit x.2).sum = roomUpTo limit 0

theorem Excess.limited_assign {symbols order : List Nat} (h : Excess limit symbols.length 0 numbers)
    (horder : order.Perm symbols) : Limited limit symbols (assign limit numbers order) := by
  have hlength : (levels limit numbers).length = order.length := by
    have hsum := sum_levels h.size_eq fun _ => 1
    rw [h.count_eq, List.map_const', List.sum_replicate_nat, Nat.mul_one] at hsum
    rw [hsum, horder.length_eq]
  rw [assign, ← levels]
  refine ⟨by rwa [List.map_fst_zip hlength.ge], fun x hx => ?_, ?_⟩
  · obtain ⟨l, hl, hx⟩ := List.mem_flatMap.mp (List.of_mem_zip hx).2
    rw [List.mem_reverse, List.mem_range] at hl
    rw [List.eq_of_mem_replicate hx]
    exact Nat.le_of_lt_succ hl
  · have hsum := sum_levels h.size_eq (roomUpTo limit)
    rwa [h.room_eq, Nat.add_zero, ← List.map_snd_zip hlength.le, List.map_map] at hsum

theorem limited_limitedDepths {t : Tree} {symbols order : List Nat} (hfull : t.Full)
    (hsymbols : t.symbols.Perm symbols) (horder : order.Perm symbols)
    (hlength : symbols.length ≤ roomUpTo limit 0) :
    Limited limit symbols (limitedDepths limit t order) := by
  have hfst := t.map_fst_depths 0
  have hn : (t.depths 0).length = symbols.length := by
    rw [← hsymbols.length_eq, ← hfst, List.length_map]
  obtain ⟨excess, hdeeper, hexcess⟩ : ∃ excess, t.deeper limit 0 = 2 * excess ∧
      Excess limit symbols.length
      excess (countLevels limit (t.depths 0) (Array.replicate (limit + 1) 0)) := hfull.excess hn
  rw [limitedDepths]
  split
  · rename_i hnone
    have hle (x : Nat × Nat) (hx : x ∈ t.depths 0) : x.2 ≤ limit :=
      Tree.le_limit_of_deeper_eq_zero hnone hx
    have hroom := hfull.two_mul_total (Nat.zero_le limit)
    refine ⟨by rwa [hfst], hle, ?_⟩
    rw [hnone, total, List.map_congr_left fun x hx => by rw [Nat.min_eq_left (hle x hx)]] at hroom
    omega
  · rw [hdeeper, show (2 * excess + 1) / 2 = excess by omega]
    exact (hexcess.repeat_lower hlength excess).limited_assign horder

end JarRepair.Deflate
