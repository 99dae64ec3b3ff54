import Std.Data.TreeMap.Lemmas
import JarRepair.Deflate.Token
import JarRepair.Proofs.Deflate.Format

/-! # What tokens stand for

A copy is taken only where the bytes have been compared, and all positions seen are earlier ones.
The tokens that are written so far always stand for the data up to a position, so in the end they
stand for all of it. -/

namespace JarRepair.Deflate.Token

variable {data : Array UInt8} {i j n : Nat}

/-! ## Copies -/

/-- The bytes from a position on are those at a distance before them. -/
structure IsCopy (data : Array UInt8) (i length distance : Nat) : Prop where
  min_le : minCopy ≤ length
  le_max : length ≤ maxCopy
  pos : 0 < distance
  near : distance ≤ maxDistance
  le : distance ≤ i
  fits : i + length ≤ data.size
  same : ∀ k < length, data[i + k]? = data[i + k - distance]?

theorem common_le (data : Array UInt8) (i j n : Nat) : common data i j n ≤ n := by
  induction n generalizing i j with
  | zero => exact Nat.le_refl 0
  | succ n ih =>
    rw [common]
    split
    · split
      · exact Nat.succ_le_succ (ih (i + 1) (j + 1))
      · exact Nat.zero_le _
    · exact Nat.zero_le _

theorem getElem?_of_lt_common {k : Nat} (h : k < common data i j n) :
    data[i + k]? = data[j + k]? := by
  induction n generalizing i j k with
  | zero => exact absurd h (Nat.not_lt_zero k)
  | succ n ih =>
    rw [common] at h
    split at h
    · rename_i a b ha hb
      split at h
      · rename_i heq
        rcases k with _ | k
        · rw [Nat.add_zero, Nat.add_zero, ha, hb, heq]
        · rw [← Nat.add_assoc, ← Nat.add_assoc, Nat.add_right_comm i k 1, Nat.add_right_comm j k 1]
          exact ih (Nat.lt_of_succ_lt_succ h)
      · exact absurd h (Nat.not_lt_zero k)
    · exact absurd h (Nat.not_lt_zero k)

theorem isCopy_common (hj : j < i) (hnear : i - j ≤ maxDistance)
    (hlong : minCopy ≤ common data j i (min maxCopy (data.size - i))) :
    IsCopy data i (common data j i (min maxCopy (data.size - i))) (i - j) := by
  have hle := common_le data j i (min maxCopy (data.size - i))
  rw [minCopy] at hlong
  refine ⟨hlong,
    hle.trans (Nat.min_le_left _ _), by omega, hnear, Nat.sub_le i j, by omega, fun k hk => ?_⟩
  rw [show i + k - (i - j) = j + k by omega]
  exact (getElem?_of_lt_common hk).symm

/-- The longest of some copies is one of them, and longer than the best one known before. -/
theorem isCopy_longest {tries farthest best length distance : Nat} {positions : List Nat}
    {found : Option (Nat × Nat)} (hbest : minCopy ≤ best + 1) (hfarthest : farthest ≤ maxDistance)
    (hpositions : ∀ j ∈ positions, j < i)
    (hfound : ∀ length distance, found = some (length, distance) → IsCopy data i length distance)
    (h : longest data i tries farthest positions best found = some (length, distance)) :
    IsCopy data i length distance := by
  induction tries generalizing farthest positions best found with
  | zero => exact hfound _ _ (by rwa [longest] at h)
  | succ tries ih =>
    rcases positions with _ | ⟨j, positions⟩
    · exact hfound _ _ (by rwa [longest] at h; simp)
    · obtain ⟨hj, hpositions⟩ := List.forall_mem_cons.mp hpositions
      rw [longest] at h
      dsimp only at h
      split at h
      · exact hfound _ _ h
      · rename_i hnear
        split at h
        · exact ih hbest (by decide) hpositions hfound h
        · split at h
          · exact ih hbest (by decide) hpositions hfound h
          · rename_i hlonger
            have hcopy := isCopy_common hj (Nat.le_trans (Nat.le_of_not_lt hnear) hfarthest)
              (Nat.le_trans hbest (Nat.lt_of_not_le hlonger))
            split at h
            · cases h
              exact hcopy
            · refine ih (by omega) (by decide) hpositions (fun _ _ hsome => ?_) h
              cases hsome
              exact hcopy

/-! ## Positions seen -/

/-- All positions seen are before one. -/
def Seen.Before (seen : Seen) (i : Nat) : Prop := ∀ key, ∀ j ∈ seen.getD key [], j < i

theorem before_empty (i : Nat) : Seen.Before ∅ i := by
  intro key j hj
  rw [Std.TreeMap.getD_emptyc] at hj
  exact absurd hj List.not_mem_nil

theorem Seen.Before.remember {seen : Seen} (h : seen.Before i) :
    (remember data i seen).Before (i + 1) := by
  have hlater : seen.Before (i + 1) := fun key j hj => (h key j hj).trans (Nat.lt_succ_self i)
  rw [Token.remember]
  split
  · exact hlater
  · intro k j hj
    rw [Std.TreeMap.getD_alter] at hj
    split at hj
    · rw [Option.getD_some, List.mem_cons] at hj
      rcases hj with rfl | hj
      · exact Nat.lt_succ_self _
      · rw [← Std.TreeMap.getD_eq_getD_getElem?] at hj
        exact hlater (key data i) j hj
    · exact hlater k j hj

theorem Seen.Before.rememberFrom {seen : Seen} (h : seen.Before i) (n : Nat) :
    (rememberFrom data i n seen).Before (i + n) := by
  induction n generalizing i seen with
  | zero => exact h
  | succ n ih =>
    rw [Token.rememberFrom, ← Nat.add_assoc, Nat.add_right_comm]
    exact ih h.remember

theorem isCopy_copy? {seen : Seen} {known length distance : Nat} (hseen : seen.Before i)
    (hknown : minCopy ≤ known + 1) (h : copy? data i known seen = some (length, distance)) :
    IsCopy data i length distance := by
  rw [copy?] at h
  split at h
  · cases h
  · refine isCopy_longest hknown (Nat.le_refl _) (hseen _) (fun _ _ hnone => ?_)
      (Option.filter_eq_some_iff.mp h).1
    cases hnone

/-! ## Data -/

/-- The tokens stand for the data from one position to another. -/
inductive Covers (data : Array UInt8) : Nat → List Token → Nat → Prop
  | nil (i : Nat) : Covers data i [] i
  | literal {i j : Nat} {b : UInt8} {tokens : List Token} :
    data[i]? = some b → Covers data (i + 1) tokens j → Covers data i (.literal b :: tokens) j
  | copy {i j length distance : Nat} {tokens : List Token} :
    IsCopy data i length distance → Covers data (i + length) tokens j →
      Covers data i (.copy length distance :: tokens) j

theorem Covers.append {tokens tokens' : List Token} (h : Covers data i tokens j)
    (h' : Covers data j tokens' n) : Covers data i (tokens ++ tokens') n := by
  induction h with
  | nil => exact h'
  | literal hb _ ih => exact .literal hb (ih h')
  | copy hcopy _ ih => exact .copy hcopy (ih h')

theorem Covers.of_append {tokens tokens' : List Token} (h : Covers data i (tokens ++ tokens') n) :
    ∃ j, Covers data i tokens j ∧ Covers data j tokens' n := by
  induction tokens generalizing i with
  | nil => exact ⟨i, .nil i, h⟩
  | cons token tokens ih =>
    cases h with
    | literal hb h =>
      obtain ⟨j, h, h'⟩ := ih h
      exact ⟨j, .literal hb h, h'⟩
    | copy hcopy h =>
      obtain ⟨j, h, h'⟩ := ih h
      exact ⟨j, .copy hcopy h, h'⟩

/-- The position goes on by what each token stands for. -/
theorem Covers.eq_add {tokens : List Token} (h : Covers data i tokens j) :
    j = i + (tokens.map size).sum := by
  induction h with
  | nil => rfl
  | literal _ _ ih =>
    rw [ih, List.map_cons, List.sum_cons, size, Nat.add_assoc]
  | copy _ _ ih =>
    rw [ih, List.map_cons, List.sum_cons, size, Nat.add_assoc]

/-- A copy in the data is one in the output so far. -/
theorem IsCopy.copied {length distance : Nat} (h : IsCopy data i length distance) :
    Format.Copied distance length (data.toList.take i) (data.toList.take (i + length)) := by
  have hfits := h.fits
  have hlength (n : Nat) (hn : n ≤ data.size) : (data.toList.take n).length = n :=
    List.length_take_of_le (by rwa [Array.length_toList])
  refine ⟨?_, fun k hk => ?_, fun k hk hlt => ?_⟩
  · rw [hlength _ hfits, hlength _ (by omega)]
  · rw [hlength _ (by omega)] at hk
    rw [List.getElem?_take_of_lt hk, List.getElem?_take_of_lt (Nat.lt_add_right length hk)]
  · rw [hlength _ (by omega)] at hk
    rw [hlength _ hfits] at hlt
    have hsame := h.same (k - i) (by omega)
    rw [Nat.add_sub_cancel' hk] at hsame
    rw [List.getElem?_take_of_lt hlt, List.getElem?_take_of_lt (by omega), Array.getElem?_toList,
      Array.getElem?_toList, hsame]

/-- A byte that is held has its place after the tokens written so far. -/
inductive Held.At (data : Array UInt8) : Nat → Nat → Held → Prop
  | nothing (i : Nat) : At data i i .nothing
  | byte {i : Nat} {b : UInt8} : data[i]? = some b → At data i (i + 1) (.byte b)
  | copy {i length distance : Nat} {b : UInt8} : data[i]? = some b → IsCopy data i length distance →
    At data i (i + 1) (.copy b length distance)

theorem Held.At.start {b : UInt8} {copy : Option (Nat × Nat)} (hb : data[i]? = some b)
    (hcopy : ∀ length distance, copy = some (length, distance) → IsCopy data i length distance) :
    Held.At data i (i + 1) (.start b copy) := by
  rcases copy with _ | ⟨length, distance⟩
  · exact .byte hb
  · exact .copy hb (hcopy length distance rfl)

/-- What is written so far always stands for the data up to the byte that is held. -/
theorem covers_scan {fuel start : Nat} {seen : Seen} {held : Held} {found : List Token}
    (hfuel : data.size < i + fuel) (hi : i ≤ data.size) (hseen : seen.Before i)
    (hheld : held.At data start i) (hfound : Covers data 0 found.reverse start) :
    Covers data 0 (scan data fuel i seen held found) data.size := by
  have next {i : Nat} {b : UInt8} (hb : data[i]? = some b) : i < data.size :=
    (Array.getElem?_eq_some_iff.mp hb).1
  have literal {start : Nat} {b : UInt8} {found : List Token} (hb : data[start]? = some b)
      (hfound : Covers data 0 found.reverse start) :
      Covers data 0 (Token.literal b :: found).reverse (start + 1) := by
    rw [List.reverse_cons]
    exact hfound.append (.literal hb (.nil _))
  induction fuel generalizing i start seen held found with
  | zero => omega
  | succ fuel ih =>
    rcases hb : data[i]? with _ | b
    · have hend : i = data.size := Nat.le_antisymm hi (Array.getElem?_eq_none_iff.mp hb)
      cases hheld with
      | nothing =>
        simp only [scan, hb]
        rwa [← hend]
      | byte ha =>
        simp only [scan, hb]
        rw [← hend]
        exact literal ha hfound
      | copy ha hcopy =>
        simp only [scan, hb]
        rw [← hend]
        exact literal ha hfound
    · have hlt := next hb
      cases hheld with
      | nothing =>
        simp only [scan, hb]
        refine ih (by omega) hlt hseen.remember (.start hb fun _ _ h => ?_) hfound
        exact isCopy_copy? hseen (by decide) h
      | byte ha =>
        simp only [scan, hb]
        refine ih (by omega) hlt hseen.remember (.start hb fun _ _ h => ?_) (literal ha hfound)
        exact isCopy_copy? hseen (by decide) h
      | @copy length _ _ ha hcopy =>
        have hlong := hcopy.min_le
        have hfits := hcopy.fits
        rw [minCopy] at hlong
        simp only [scan, hb]
        split
        · rename_i longer hlonger
          split at hlonger
          · refine ih (by omega) hlt hseen.remember (.start hb fun _ _ h => ?_) (literal ha hfound)
            exact isCopy_copy? hseen (by rw [minCopy]; omega) (hlonger.trans h)
          · cases hlonger
        · rw [Nat.add_sub_cancel]
          refine ih (by omega) hfits ?_ (.nothing _) ?_
          · rw [show start + length = start + 1 + (length - 1) by omega]
            exact hseen.rememberFrom (length - 1)
          · rw [List.reverse_cons]
            exact hfound.append (.copy hcopy (.nil _))

/-- The tokens stand for all of the data. -/
theorem covers_ofData (data : Bytes) : Covers data.toArray 0 (ofData data) data.length := by
  have hfuel : data.toArray.size < 0 + (data.toArray.size + 1) := by omega
  rw [← data.size_toArray]
  exact covers_scan hfuel (Nat.zero_le _) (before_empty 0) (.nothing 0) (.nil 0)

end JarRepair.Deflate.Token
