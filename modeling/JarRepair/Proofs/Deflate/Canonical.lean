import Mathlib.Algebra.BigOperators.Group.List.Basic
import Mathlib.Algebra.Order.Ring.Nat
import Mathlib.Data.List.Nodup
import JarRepair.Deflate.Huffman

/-! # Canonical codes

Lengths alone say what the words of a code are: those of one length are consecutive numbers, in the
order of their symbols, and the first of them comes right after the shorter words. The tree that is
filled from the lengths has exactly these words as its paths. -/

namespace JarRepair.Deflate

variable {lengths : List Nat} {l s depth : Nat} {w : List Bool} {o : Option Nat}

/-! ## Words -/

/-- The number that a word is, its most significant bit first. -/
def wordValue : List Bool → Nat
  | [] => 0
  | b :: w => b.toNat * 2 ^ w.length + wordValue w

/-- How many symbols have a word of a length; length 0 means that there is none. -/
def wordCount (lengths : List Nat) : Nat → Nat
  | 0 => 0
  | l + 1 => lengths.count (l + 1)

/-- The first word of a length: a word goes on where the shorter ones have ended. -/
def firstWord (lengths : List Nat) : Nat → Nat
  | 0 => 0
  | l + 1 => 2 * (firstWord lengths l + wordCount lengths l)

/-- The word of a symbol. -/
structure IsWord (lengths : List Nat) (symbol : Nat) (w : List Bool) : Prop where
  nonempty : w ≠ []
  length : lengths[symbol]? = some w.length
  value : wordValue w = firstWord lengths w.length + (lengths.take symbol).count w.length

theorem wordValue_lt (w : List Bool) : wordValue w < 2 ^ w.length := by
  induction w with
  | nil => exact Nat.one_pos
  | cons b w ih =>
    have hb : b.toNat * 2 ^ w.length ≤ 1 * 2 ^ w.length := Nat.mul_le_mul_right _ (Bool.toNat_le b)
    rw [wordValue, List.length_cons, Nat.pow_succ]
    omega

/-! ## Room

A word takes as much of the `2 ^ 15` words of the greatest length as go on from it. -/

/-- How many words of the greatest length go on from one of length `l`. -/
def room (l : Nat) : Nat := 2 ^ (maxCodeLength - l)

/-- How many words of the greatest length go on from those of some symbols. -/
def span (symbols : List (Nat × Nat)) : Nat := (symbols.map fun x => room x.1).sum

@[simp] theorem span_nil : span [] = 0 := rfl

@[simp] theorem span_cons (x : Nat × Nat) (symbols : List (Nat × Nat)) :
    span (x :: symbols) = room x.1 + span symbols := List.sum_cons

@[simp] theorem span_append (symbols symbols' : List (Nat × Nat)) :
    span (symbols ++ symbols') = span symbols + span symbols' := by
  rw [span, List.map_append, List.sum_append, span, span]

theorem room_pos (l : Nat) : 0 < room l := Nat.two_pow_pos _

theorem room_eq (h : depth < maxCodeLength) : room depth = 2 * room (depth + 1) := by
  rw [room, room, ← Nat.pow_succ']
  congr 1
  omega

theorem depth_cons (depth : Nat) (b : Bool) (w : List Bool) :
    depth + (b :: w).length = depth + 1 + w.length := by
  rw [List.length_cons, Nat.add_comm w.length 1, Nat.add_assoc]

/-- Where the words that go on from `w` start, counted from the first that goes on at a depth. -/
def start (depth : Nat) (w : List Bool) : Nat := wordValue w * room (depth + w.length)

theorem start_nil (depth : Nat) : start depth [] = 0 := Nat.zero_mul _

theorem start_zero (depth : Nat) (w : List Bool) :
    start depth (false :: w) = start (depth + 1) w := by
  rw [start, start, wordValue, Bool.toNat_false, Nat.zero_mul, Nat.zero_add, depth_cons]

theorem pow_mul_room {n : Nat} (h : depth + n ≤ maxCodeLength) :
    2 ^ n * room (depth + n) = room depth := by
  rw [room, room, ← Nat.pow_add]
  congr 1
  omega

theorem start_one (h : depth + 1 + w.length ≤ maxCodeLength) :
    start depth (true :: w) = room (depth + 1) + start (depth + 1) w := by
  rw [start, start, wordValue, Bool.toNat_true, Nat.one_mul, depth_cons, Nat.add_mul,
    pow_mul_room h]

theorem start_lt (h : depth + w.length ≤ maxCodeLength) : start depth w < room depth := by
  rw [start, ← pow_mul_room h]
  exact Nat.mul_lt_mul_of_pos_right (wordValue_lt w) (room_pos _)

theorem append_eq_append_cons {α : Type} {xs ys before after : List α} {x : α}
    (h : xs ++ ys = before ++ x :: after) :
    (∃ before', before = xs ++ before' ∧ ys = before' ++ x :: after) ∨
      ∃ after', xs = before ++ x :: after' ∧ after = after' ++ ys := by
  rcases List.append_eq_append_iff.mp h with ⟨before', rfl, rfl⟩ | ⟨_ | ⟨_, after'⟩, rfl, hxs⟩
  · exact .inl ⟨before', rfl, rfl⟩
  · exact .inl ⟨[], by simp, hxs.symm⟩
  · obtain ⟨rfl, rfl⟩ := List.cons.inj hxs
    exact .inr ⟨after', rfl, rfl⟩

/-! ## Paths -/

namespace Tree

/-- A word leads to a symbol or to a gap. -/
inductive Ends : Tree → List Bool → Option Nat → Prop
  | leaf (symbol : Nat) : Ends (.leaf symbol) [] (some symbol)
  | gap : Ends .gap [] none
  | zero {zero one : Tree} {w : List Bool} {o : Option Nat} :
    Ends zero w o → Ends (.node zero one) (false :: w) o
  | one {zero one : Tree} {w : List Bool} {o : Option Nat} :
    Ends one w o → Ends (.node zero one) (true :: w) o

/-- Each word that is long enough leads to a symbol. -/
def Full : Tree → Prop
  | .leaf _ => True
  | .gap => False
  | .node zero one => zero.Full ∧ one.Full

variable {t zero one : Tree} {used used' : List (Nat × Nat)}

theorem Full.symbol_of_ends (h : t.Full) (hends : t.Ends w o) : ∃ s, o = some s := by
  induction hends with
  | leaf symbol => exact ⟨symbol, rfl⟩
  | gap => exact h.elim
  | zero _ ih => exact ih h.1
  | one _ ih => exact ih h.2

/-- A subtree at a depth has just the words of some symbols, one after the other from the left: each
starts where the ones before it have ended. -/
structure Holds (t : Tree) (depth : Nat) (used : List (Nat × Nat)) : Prop where
  length_le : ∀ x ∈ used, x.1 ≤ maxCodeLength
  span_le : span used ≤ room depth
  full : span used = room depth → t.Full
  ends_iff : ∀ w s, t.Ends w (some s) ↔
    ∃ before after, used = before ++ (depth + w.length, s) :: after ∧ start depth w = span before

theorem holds_gap (depth : Nat) : Tree.gap.Holds depth [] where
  length_le := by simp
  span_le := Nat.zero_le _
  full h := absurd h (room_pos depth).ne
  ends_iff w s := by
    constructor
    · intro h
      cases h
    · rintro ⟨before, after, h, -⟩
      simp at h

theorem holds_leaf (h : depth ≤ maxCodeLength) (s : Nat) :
    (Tree.leaf s).Holds depth [(depth, s)] where
  length_le := by simpa using h
  span_le := by simp
  full _ := trivial
  ends_iff w s' := by
    constructor
    · intro h
      cases h
      exact ⟨[], [], rfl, start_nil depth⟩
    · rintro ⟨before, after, hsplit, -⟩
      rcases List.singleton_eq_append_iff.mp hsplit with ⟨-, hx⟩ | ⟨-, hx⟩
      · obtain ⟨⟨rfl, rfl⟩, -⟩ : (w = [] ∧ s' = s) ∧ after = [] := by simpa using hx
        exact .leaf s'
      · simp at hx

/-- What starts before the words on the right goes to the left. -/
theorem Holds.ends_zero (h : zero.Holds (depth + 1) used) (hdepth : depth < maxCodeLength)
    {before after : List (Nat × Nat)} (hused : used = before ++ (depth + w.length, s) :: after)
    (hstart : start depth w = span before) : (Tree.node zero one).Ends w (some s) := by
  have hlength := h.length_le (depth + w.length, s) (by simp [hused])
  have hle := h.span_le
  rw [hused, span_append, span_cons] at hle
  dsimp only at hlength hle
  rcases w with _ | ⟨_ | _, w⟩
  · -- The empty word would need the room of both sides.
    have hroom := room_pos (depth + 1)
    rw [List.length_nil, Nat.add_zero, room_eq hdepth] at hle
    omega
  · rw [start_zero] at hstart
    rw [depth_cons] at hused
    exact .zero ((h.ends_iff w s).mpr ⟨before, after, hused, hstart⟩)
  · have hroom := room_pos (depth + (true :: w).length)
    rw [depth_cons] at hlength
    rw [start_one hlength] at hstart
    omega

/-- What starts behind all words on the left goes to the right. -/
theorem Holds.ends_one (h : one.Holds (depth + 1) used) {before after : List (Nat × Nat)}
    (hused : used = before ++ (depth + w.length, s) :: after)
    (hstart : start depth w = room (depth + 1) + span before) :
    (Tree.node zero one).Ends w (some s) := by
  have hlength := h.length_le (depth + w.length, s) (by simp [hused])
  dsimp only at hlength
  rcases w with _ | ⟨_ | _, w⟩
  · have hroom := room_pos (depth + 1)
    rw [start_nil] at hstart
    omega
  · rw [depth_cons] at hlength
    rw [start_zero] at hstart
    have hlt := start_lt hlength
    omega
  · rw [depth_cons] at hlength hused
    rw [start_one hlength] at hstart
    exact .one ((h.ends_iff w s).mpr ⟨before, after, hused, Nat.add_left_cancel hstart⟩)

/-- Words come to the right only after those on the left have taken all the room there. -/
theorem Holds.node (hdepth : depth < maxCodeLength) (hzero : zero.Holds (depth + 1) used)
    (hone : one.Holds (depth + 1) used') (hnext : used' ≠ [] → span used = room (depth + 1)) :
    (Tree.node zero one).Holds depth (used ++ used') where
  length_le x hx := (List.mem_append.mp hx).elim (hzero.length_le x) (hone.length_le x)
  span_le := by
    rw [span_append, room_eq hdepth, Nat.two_mul]
    exact Nat.add_le_add hzero.span_le hone.span_le
  full hspan := by
    have hzero_le := hzero.span_le
    have hone_le := hone.span_le
    rw [span_append, room_eq hdepth] at hspan
    exact ⟨hzero.full (by omega), hone.full (by omega)⟩
  ends_iff w s := by
    constructor
    · intro hends
      cases hends with
      | @zero _ _ w _ hends =>
        obtain ⟨before, after, rfl, hstart⟩ := (hzero.ends_iff w s).mp hends
        refine ⟨before, after ++ used', ?_, (start_zero depth w).trans hstart⟩
        rw [depth_cons, List.append_assoc, List.cons_append]
      | @one _ _ w _ hends =>
        obtain ⟨before, after, rfl, hstart⟩ := (hone.ends_iff w s).mp hends
        refine ⟨used ++ before, after, ?_, ?_⟩
        · rw [depth_cons, List.append_assoc]
        · rw [start_one (hone.length_le (_, s) (by simp)), span_append, hnext (by simp), hstart]
    · rintro ⟨before, after, hsplit, hstart⟩
      rcases append_eq_append_cons hsplit with ⟨before, rfl, hused⟩ | ⟨after, hused, -⟩
      · rw [span_append, hnext (by simp [hused])] at hstart
        exact hone.ends_one hused hstart
      · exact hzero.ends_zero hdepth hused hstart

/-- A subtree has used up symbols from the front, and has left some over only if it got full. -/
def Fills (depth : Nat) (symbols : List (Nat × Nat)) (r : Tree × List (Nat × Nat)) : Prop :=
  ∃ used, symbols = used ++ r.2 ∧ r.1.Holds depth used ∧ (r.2 ≠ [] → span used = room depth)

variable {symbols : List (Nat × Nat)}

theorem fills_nil (fuel depth : Nat) : Fills depth [] (fill fuel depth []) := by
  rw [fill]
  exact ⟨[], rfl, holds_gap depth, fun h => absurd rfl h⟩

theorem fills_cons {fuel symbol : Nat} (h : depth ≤ maxCodeLength) :
    Fills depth ((depth, symbol) :: symbols) (fill fuel depth ((depth, symbol) :: symbols)) := by
  rw [fill.eq_def]
  dsimp only
  rw [if_pos (Nat.le_refl depth)]
  exact ⟨[(depth, symbol)], rfl, holds_leaf h symbol, fun _ => by simp⟩

theorem Fills.node {rest rest' : List (Nat × Nat)} (hdepth : depth < maxCodeLength)
    (hzero : Fills (depth + 1) symbols (zero, rest)) (hone : Fills (depth + 1) rest (one, rest')) :
    Fills depth symbols (.node zero one, rest') := by
  obtain ⟨used, rfl, hused, hfirst⟩ := hzero
  obtain ⟨used', rfl, hused', hsecond⟩ := hone
  dsimp only at hused hfirst hused' hsecond ⊢
  refine ⟨used ++ used', (List.append_assoc ..).symm, hused.node hdepth hused' fun hne => hfirst ?_,
    fun hne => ?_⟩
  · exact fun hnil => hne (List.append_eq_nil_iff.mp hnil).1
  · rw [span_append, hfirst fun hnil => hne (List.append_eq_nil_iff.mp hnil).2, hsecond hne,
      room_eq hdepth, Nat.two_mul]

theorem Fills.sublist {r : Tree × List (Nat × Nat)} (h : Fills depth symbols r) :
    r.2.Sublist symbols := by
  obtain ⟨used, rfl, -⟩ := h
  exact List.sublist_append_right used r.2

/-- Symbols that are ordered by the lengths of their words fill a tree from the left. -/
theorem fills_fill {fuel : Nat} (hfuel : depth + fuel = maxCodeLength)
    (hsorted : symbols.Pairwise fun x y => x.1 ≤ y.1)
    (hlength : ∀ x ∈ symbols, depth ≤ x.1 ∧ x.1 ≤ maxCodeLength) :
    Fills depth symbols (fill fuel depth symbols) := by
  -- The fuel is the number of levels below the depth: without any, all that fits is a symbol of
  -- this depth.
  induction fuel generalizing depth symbols with
  | zero =>
    rcases symbols with _ | ⟨⟨length, symbol⟩, symbols⟩
    · exact fills_nil 0 depth
    · obtain ⟨hlow, hhigh⟩ := hlength (length, symbol) List.mem_cons_self
      obtain rfl : length = depth := by
        dsimp only at hlow hhigh
        omega
      exact fills_cons hhigh
  | succ fuel ih =>
    rcases symbols with _ | ⟨⟨length, symbol⟩, symbols⟩
    · exact fills_nil (fuel + 1) depth
    · obtain ⟨hlow, hhigh⟩ := hlength (length, symbol) List.mem_cons_self
      rcases Nat.eq_or_lt_of_le hlow with rfl | hdeep
      · exact fills_cons hhigh
      · have hdeeper : ∀ x ∈ (length, symbol) :: symbols, depth + 1 ≤ x.1 ∧
            x.1 ≤ maxCodeLength := by
          intro x hx
          refine ⟨?_, (hlength x hx).2⟩
          rcases List.mem_cons.mp hx with rfl | hx
          · exact hdeep
          · exact Nat.lt_of_lt_of_le hdeep ((List.pairwise_cons.mp hsorted).1 x hx)
        have hzero := ih (by omega) hsorted hdeeper
        have hone := ih (by omega) (hsorted.sublist hzero.sublist) fun x hx =>
          hdeeper x (hzero.sublist.mem hx)
        rw [fill, if_neg (Nat.not_le.mpr hdeep)]
        exact Fills.node (by omega) hzero hone

/-! ## Symbols in order -/

/-- The symbols whose words have a length. -/
def ofLength (lengths : List Nat) (l : Nat) : List (Nat × Nat) :=
  lengths.zipIdx.filter fun x => x.1 == l

/-- The symbols with words up to a length. -/
def upToLength (lengths : List Nat) (l : Nat) : List (Nat × Nat) :=
  (List.range l).flatMap fun k => ofLength lengths (k + 1)

theorem inOrder_eq (lengths : List Nat) : inOrder lengths = upToLength lengths maxCodeLength := rfl

theorem upToLength_succ (lengths : List Nat) (l : Nat) :
    upToLength lengths (l + 1) = upToLength lengths l ++ ofLength lengths (l + 1) := by
  rw [upToLength, List.range_succ, List.flatMap_append, List.flatMap_singleton, upToLength]

theorem mem_ofLength_iff {x : Nat × Nat} :
    x ∈ ofLength lengths l ↔ x.1 = l ∧ lengths[x.2]? = some l := by
  rw [ofLength, List.mem_filter, List.mem_zipIdx_iff_getElem?, beq_iff_eq]
  constructor
  · rintro ⟨hx, rfl⟩
    exact ⟨rfl, hx⟩
  · rintro ⟨rfl, hx⟩
    exact ⟨hx, rfl⟩

theorem mem_upToLength_iff {x : Nat × Nat} :
    x ∈ upToLength lengths l ↔ 0 < x.1 ∧ x.1 ≤ l ∧ lengths[x.2]? = some x.1 := by
  simp only [upToLength, List.mem_flatMap, List.mem_range, mem_ofLength_iff]
  constructor
  · rintro ⟨k, hk, hx, hsymbol⟩
    rw [hx]
    exact ⟨k.succ_pos, hk, hsymbol⟩
  · rintro ⟨hpos, hle, hsymbol⟩
    exact ⟨x.1 - 1, by omega, by omega, by rw [hsymbol]; congr 1; omega⟩

theorem pairwise_upToLength (lengths : List Nat) (l : Nat) :
    (upToLength lengths l).Pairwise fun x y => x.1 ≤ y.1 := by
  induction l with
  | zero => exact List.Pairwise.nil
  | succ l ih =>
    rw [upToLength_succ]
    refine List.pairwise_append.mpr ⟨ih, ?_, fun x hx y hy => ?_⟩
    · exact List.pairwise_of_forall_mem_list fun x hx y hy =>
        ((mem_ofLength_iff.mp hx).1.trans (mem_ofLength_iff.mp hy).1.symm).le
    · rw [(mem_ofLength_iff.mp hy).1]
      exact (mem_upToLength_iff.mp hx).2.1.trans (Nat.le_succ l)

theorem nodup_zipIdx (lengths : List Nat) : lengths.zipIdx.Nodup := by
  refine List.Nodup.of_map Prod.snd ?_
  rw [List.zipIdx_map_snd]
  exact List.nodup_range'

theorem nodup_upToLength (lengths : List Nat) (l : Nat) : (upToLength lengths l).Nodup := by
  induction l with
  | zero => exact List.nodup_nil
  | succ l ih =>
    rw [upToLength_succ]
    refine List.nodup_append.mpr ⟨ih, ?_, fun x hx y hy => ?_⟩
    · exact (nodup_zipIdx lengths).filter _
    · rintro rfl
      have hle := (mem_upToLength_iff.mp hx).2.1
      rw [(mem_ofLength_iff.mp hy).1] at hle
      exact Nat.not_succ_le_self l hle

theorem span_filter_zipIdx (lengths : List Nat) (l n : Nat) :
    span ((lengths.zipIdx n).filter fun x => x.1 == l) = lengths.count l * room l := by
  induction lengths generalizing n with
  | nil => simp
  | cons length lengths ih =>
    rw [List.zipIdx_cons, List.filter_cons, List.count_cons]
    dsimp only
    split
    · rename_i heq
      obtain rfl := beq_iff_eq.mp heq
      rw [span_cons, ih, Nat.add_mul, Nat.one_mul, Nat.add_comm]
    · rw [ih, Nat.add_zero]

/-- Shorter words take the room up to the first word of a length. -/
theorem span_upToLength (lengths : List Nat) (h : l ≤ maxCodeLength) :
    span (upToLength lengths l) = (firstWord lengths l + wordCount lengths l) * room l := by
  induction l with
  | zero => simp [upToLength, firstWord, wordCount]
  | succ l ih =>
    rw [upToLength_succ, span_append,
      ih (by omega), ofLength, span_filter_zipIdx, room_eq h, firstWord,
      wordCount, Nat.add_mul (2 * _), Nat.mul_left_comm, Nat.mul_assoc]

theorem upToLength_prefix {m : Nat} (lengths : List Nat) (h : l ≤ m) :
    upToLength lengths l <+: upToLength lengths m := by
  induction h with
  | refl => exact List.prefix_rfl
  | step _ ih =>
    rw [upToLength_succ]
    exact ih.trans (List.prefix_append _ _)

theorem exists_ofLength_eq (h : lengths[s]? = some l) :
    ∃ before after, ofLength lengths l = before ++ (l, s) :: after ∧
      span before = (lengths.take s).count l * room l := by
  obtain ⟨hs, hl⟩ := List.getElem?_eq_some_iff.mp h
  have hsplit : lengths = lengths.take s ++ l :: lengths.drop (s + 1) := by
    rw [← hl, List.getElem_cons_drop, List.take_append_drop]
  have hlength : (lengths.take s).length = s := List.length_take_of_le hs.le
  refine ⟨(lengths.take s).zipIdx.filter fun x => x.1 == l,
    ((lengths.drop (s + 1)).zipIdx (s + 1)).filter fun x => x.1 == l, ?_, span_filter_zipIdx _ _ _⟩
  conv_lhs => rw [ofLength, hsplit]
  rw [List.zipIdx_append, List.zipIdx_cons, List.filter_append,
    List.filter_cons_of_pos (by simp), hlength, Nat.zero_add]

/-- The symbols before one take the room up to its word. -/
theorem exists_upToLength_eq (hpos : 0 < l) (hmax : l ≤ maxCodeLength) (h : lengths[s]? = some l) :
    ∃ before after, upToLength lengths maxCodeLength = before ++ (l, s) :: after ∧
      span before = (firstWord lengths l + (lengths.take s).count l) * room l := by
  obtain ⟨before, after, hsplit, hspan⟩ := exists_ofLength_eq h
  obtain ⟨k, rfl⟩ := Nat.exists_eq_add_of_lt hpos
  rw [Nat.zero_add] at hmax hsplit hspan ⊢
  obtain ⟨longer, hlonger⟩ := upToLength_prefix lengths hmax
  refine ⟨upToLength lengths k ++ before, after ++ longer, ?_, ?_⟩
  · rw [← hlonger, upToLength_succ, hsplit]
    simp
  · rw [span_append,
      span_upToLength lengths (by omega), hspan, room_eq hmax, firstWord, Nat.add_mul (2 * _),
      Nat.mul_left_comm, Nat.mul_assoc]

/-! ## Codes -/

theorem inOrder_perm (hmax : ∀ l ∈ lengths, l ≤ maxCodeLength) :
    (inOrder lengths).Perm (lengths.zipIdx.filter fun x => 0 < x.1) := by
  rw [inOrder_eq]
  refine (List.perm_ext_iff_of_nodup (nodup_upToLength _ _) ((nodup_zipIdx lengths).filter _)).mpr
    fun x => ?_
  rw [mem_upToLength_iff, List.mem_filter, List.mem_zipIdx_iff_getElem?, decide_eq_true_iff]
  constructor
  · rintro ⟨hpos, -, hsymbol⟩
    exact ⟨hsymbol, hpos⟩
  · rintro ⟨hsymbol, hpos⟩
    exact ⟨hpos, hmax x.1 (List.mem_of_getElem? hsymbol), hsymbol⟩

theorem span_filter_pos (lengths : List Nat) (n : Nat) :
    span ((lengths.zipIdx n).filter fun x => 0 < x.1) = weight lengths := by
  rw [weight, ← List.sum_eq_foldl]
  induction lengths generalizing n with
  | nil => rfl
  | cons length lengths ih =>
    rw [List.zipIdx_cons, List.filter_cons, List.map_cons, List.sum_cons, ← ih (n + 1)]
    rcases Nat.eq_zero_or_pos length with rfl | hpos
    · simp
    · rw [if_pos (by simpa using hpos), span_cons, if_neg hpos.ne']
      rfl

theorem weight_eq_span (hmax : ∀ l ∈ lengths, l ≤ maxCodeLength) :
    weight lengths = span (inOrder lengths) := by
  rw [← span_filter_pos lengths 0]
  exact ((inOrder_perm hmax).map _).sum_eq.symm

end Tree

/-- There is room for the words of a code. -/
structure Fits (lengths : List Nat) : Prop where
  length_le : ∀ l ∈ lengths, l ≤ maxCodeLength
  weight_le : weight lengths ≤ fullWeight

namespace Fits

open JarRepair.Deflate.Tree

theorem span_le (h : Fits lengths) : span (inOrder lengths) ≤ room 0 := by
  rw [← weight_eq_span h.length_le]
  exact h.weight_le

/-- The tree has all symbols with words. -/
theorem holds (h : Fits lengths) : (Tree.ofLengths lengths).Holds 0 (inOrder lengths) := by
  have hspan := h.span_le
  rw [Tree.ofLengths]
  split
  · rename_i hnone
    rw [hnone]
    exact (holds_gap 1).node (by decide) (holds_gap 1) fun h => absurd rfl h
  · obtain ⟨used, hused, hholds, hleft⟩ := fills_fill (Nat.zero_add maxCodeLength)
      (pairwise_upToLength lengths maxCodeLength)
      fun x hx => ⟨Nat.zero_le _, (mem_upToLength_iff.mp hx).2.1⟩
    rw [← inOrder_eq] at hused hholds hleft
    generalize fill maxCodeLength 0 (inOrder lengths) = r at hused hholds hleft ⊢
    obtain ⟨t, rest⟩ := r
    dsimp only at hused hholds hleft ⊢
    rcases rest with _ | ⟨x, rest⟩
    · rwa [hused, List.append_nil]
    · have hroom := room_pos x.1
      rw [hused, span_append, span_cons, hleft (by simp)] at hspan
      omega

/-- The paths to symbols are the words of the code. -/
theorem ends_iff (h : Fits lengths) :
    (Tree.ofLengths lengths).Ends w (some s) ↔ IsWord lengths s w := by
  rw [h.holds.ends_iff, Nat.zero_add, inOrder_eq, start, Nat.zero_add]
  constructor
  · rintro ⟨before, after, hsplit, hstart⟩
    have hmem : (w.length, s) ∈ upToLength lengths maxCodeLength := by
      rw [hsplit]
      simp
    obtain ⟨hpos, hle, hsymbol⟩ := mem_upToLength_iff.mp hmem
    obtain ⟨before', after', hsplit', hspan⟩ := exists_upToLength_eq hpos hle hsymbol
    have hnodup := nodup_upToLength lengths maxCodeLength
    rw [hsplit'] at hnodup hsplit
    have hnot := (List.nodup_cons.mp (List.nodup_middle.mp hnodup)).1
    rw [List.mem_append, not_or] at hnot
    obtain ⟨rfl, -⟩ := (List.append_cons_inj_of_notMem hnot.1 hnot.2).mp hsplit
    rw [hspan] at hstart
    exact ⟨List.length_pos_iff.mp hpos, hsymbol, Nat.eq_of_mul_eq_mul_right (room_pos _) hstart⟩
  · rintro ⟨hne, hsymbol, hvalue⟩
    obtain ⟨before, after, hsplit, hspan⟩ := exists_upToLength_eq (List.length_pos_iff.mpr hne)
      (h.length_le _ (List.mem_of_getElem? hsymbol)) hsymbol
    exact ⟨before, after, hsplit, by rw [hvalue, hspan]⟩

/-- Five symbols have words of three bits, one has the shortest word and two have the longest. -/
example : IsWord [3, 3, 3, 3, 3, 2, 4, 4] 1 [false, true, true] ∧
    IsWord [3, 3, 3, 3, 3, 2, 4, 4] 5 [false, false] ∧
    IsWord [3, 3, 3, 3, 3, 2, 4, 4] 7 [true, true, true, true] :=
  ⟨⟨by decide, by decide, by decide⟩, ⟨by decide, by decide, by decide⟩,
    ⟨by decide, by decide, by decide⟩⟩

theorem full (h : Fits lengths) (hweight : weight lengths = fullWeight) :
    (Tree.ofLengths lengths).Full :=
  h.holds.full ((weight_eq_span h.length_le).symm.trans hweight)

/-- A code that takes no room has no words. -/
theorem eq_gap (h : Fits lengths) (hweight : weight lengths = 0) :
    Tree.ofLengths lengths = .node .gap .gap := by
  rw [weight_eq_span h.length_le] at hweight
  rw [Tree.ofLengths]
  split
  · rfl
  · rename_i hsome
    rcases hsymbols : inOrder lengths with _ | ⟨x, symbols⟩
    · exact absurd hsymbols hsome
    · rw [hsymbols, span_cons] at hweight
      exact absurd hweight (Nat.add_pos_left (room_pos x.1) _).ne'

end Fits

end JarRepair.Deflate
