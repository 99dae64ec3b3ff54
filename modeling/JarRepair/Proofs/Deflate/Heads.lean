import Mathlib.Data.List.TakeWhile
import JarRepair.Proofs.Deflate.Chosen
import JarRepair.Proofs.Deflate.Writing

/-! # Heads of blocks

The runs that lengths are divided into stand for just these lengths, and each has a word in the code
that is made for them. So the head of a block gives the codes that its tokens are written in. -/

namespace JarRepair.Deflate

open Format

/-! ## Counts -/

variable {s size : Nat} {symbols : List Nat}

theorem size_countSymbols (size : Nat) (symbols : List Nat) :
    (countSymbols size symbols).size = size := by
  rw [countSymbols]
  induction symbols using List.reverseRecOn with
  | nil => exact Array.size_replicate
  | append_singleton symbols s ih =>
    rw [List.foldl_append, List.foldl_cons, List.foldl_nil, Array.size_modify, ih]

/-- The lengths that are made of the counts of symbols. -/
theorem chosen_countSymbols {limit : Nat} (symbols : List Nat) (hlimit : limit ≤ maxCodeLength)
    (hthree : 3 ≤ size) (hroom : size ≤ roomUpTo limit 0) :
    Chosen limit (countSymbols size symbols) (lengthsFor limit (countSymbols size symbols)) :=
  have hsize := size_countSymbols size symbols
  chosen_lengthsFor hlimit (hsize.symm ▸ hthree) (hsize.symm ▸ hroom)

theorem countSymbols_ne_zero (hs : s ∈ symbols) (hlt : s < size) :
    (countSymbols size symbols).getD s 0 ≠ 0 := by
  induction symbols using List.reverseRecOn with
  | nil => exact absurd hs List.not_mem_nil
  | append_singleton symbols s' ih =>
    have hsize : s < (countSymbols size symbols).size := by rwa [size_countSymbols]
    rw [countSymbols, List.foldl_append, List.foldl_cons, List.foldl_nil, ← countSymbols,
      Array.getD_eq_getD_getElem?, Array.getElem?_modify]
    split
    · rw [Array.getElem?_eq_getElem hsize]
      exact Nat.succ_ne_zero _
    · rename_i hne
      rw [← Array.getD_eq_getD_getElem?]
      refine ih ((List.mem_append.mp hs).resolve_right fun hlast => hne ?_)
      exact (List.mem_singleton.mp hlast).symm

/-! ## Runs -/

namespace LengthCode

variable {last : Option Nat} {c : LengthCode} {run found all code : List Nat}
  {bits rest : List Bool}
  {words : Words}

/-- The lengths that are given after the last one. -/
inductive Gives (last : Option Nat) : LengthCode → List Nat → Prop
  | one {l : Nat} : l ≤ maxCodeLength → Gives last (.one l) [l]
  | again {l n : Nat} : last = some l → 3 ≤ n → n ≤ 6 → Gives last (.again n) (List.replicate n l)
  | zeros {n : Nat} : 3 ≤ n → n ≤ 138 → Gives last (.zeros n) (List.replicate n 0)

theorem Gives.isRun (h : Gives found.getLast? c run) (rest : List Bool) :
    Run found c.symbol (c.extraBits ++ rest) run rest := by
  cases h with
  | one hl => exact .one rest hl
  | @again l n hlast hmin hmax =>
    obtain ⟨k, rfl⟩ := Nat.exists_eq_add_of_le hmin
    exact .again hlast ⟨by omega, by rw [extraBits, Nat.add_sub_cancel_left]⟩
  | @zeros n hmin hmax =>
    rw [symbol, extraBits]
    split
    · obtain ⟨k, rfl⟩ := Nat.exists_eq_add_of_le hmin
      exact .zeros ⟨by omega, by rw [Nat.add_sub_cancel_left]⟩
    · obtain ⟨k, rfl⟩ := Nat.exists_eq_add_of_le (show 11 ≤ n by omega)
      exact .moreZeros ⟨by omega, by rw [Nat.add_sub_cancel_left]⟩

/-- The bits of some length codes. -/
def codesBits (words : Words) (codes : List LengthCode) : List Bool :=
  codes.flatMap fun c => words.word c.symbol ++ c.extraBits

/-- Each of the length codes has a word. -/
def Worded (code : List Nat) (words : Words) (codes : List LengthCode) : Prop :=
  ∀ c ∈ codes, IsWord code c.symbol (words.word c.symbol)

theorem Gives.lengths {codes : List LengthCode} (hword : IsWord code c.symbol (words.word c.symbol))
    (h : Gives found.getLast? c run)
    (hlater : Lengths code (found ++ run) (codesBits words codes ++ bits) all rest) :
    Lengths code found (codesBits words (c :: codes) ++ bits) all rest := by
  rw [codesBits, List.flatMap_cons, List.append_assoc, List.append_assoc]
  exact .cons ⟨_, hword, rfl⟩ (h.isRun _) hlater

theorem lengths_replicate_one {l : Nat} (hl : l ≤ maxCodeLength) (n : Nat)
    (hword : Worded code words (List.replicate n (.one l)))
    (hlater : Lengths code (found ++ List.replicate n l) bits all rest) :
    Lengths code found (codesBits words (List.replicate n (.one l)) ++ bits) all rest := by
  induction n generalizing found with
  | zero => simpa [codesBits] using hlater
  | succ n ih =>
    obtain ⟨hfirst, hothers⟩ := List.forall_mem_cons.mp hword
    refine Gives.lengths hfirst (.one hl) (ih hothers ?_)
    rwa [List.append_assoc, List.singleton_append, ← List.replicate_succ]

/-- Short runs are given one by one; a longer one is of zeros, of the last length, or starts with a
length of its own. -/
theorem ofRun_cases {length n : Nat} (hn : n ≤ maxRun last length) :
    ofRun last length n = List.replicate n (.one length) ∨
      (length = 0 ∧ 3 ≤ n ∧ n ≤ 138 ∧ ofRun last length n = [.zeros n]) ∨
      (last = some length ∧ 3 ≤ n ∧ n ≤ 6 ∧ ofRun last length n = [.again n]) ∨
      (4 ≤ n ∧ n ≤ 7 ∧ ofRun last length n = [.one length, .again (n - 1)]) := by
  rw [maxRun] at hn
  rw [ofRun]
  split
  · rename_i hzero
    rw [if_pos hzero] at hn
    split
    · rename_i hshort
      exact .inl (by rw [hzero])
    · exact .inr (.inl ⟨hzero, by omega, hn, rfl⟩)
  · rename_i hnonzero
    rw [if_neg hnonzero] at hn
    split
    · rename_i hsame
      rw [if_pos hsame] at hn
      split
      · exact .inl rfl
      · exact .inr (.inr (.inl ⟨hsame, by omega, hn, rfl⟩))
    · rename_i hother
      rw [if_neg hother] at hn
      split
      · exact .inl rfl
      · exact .inr (.inr (.inr ⟨by omega, hn, rfl⟩))

/-- The codes of a run stand for it. -/
theorem lengths_ofRun {length n : Nat} (hlength : length ≤ maxCodeLength)
    (hlast : ∀ l, last = some l → found.getLast? = some l) (hn : n ≤ maxRun last length)
    (hword : Worded code words (ofRun last length n))
    (hlater : Lengths code (found ++ List.replicate n length) bits all rest) :
    Lengths code found (codesBits words (ofRun last length n) ++ bits) all rest := by
  rcases ofRun_cases hn with
      heq | ⟨rfl, hmin, hmax, heq⟩ | ⟨hsame, hmin, hmax, heq⟩ | ⟨hmin, hmax, heq⟩
  · rw [heq] at hword ⊢
    exact lengths_replicate_one hlength n hword hlater
  · rw [heq] at hword ⊢
    exact Gives.lengths (hword _ List.mem_cons_self) (.zeros hmin hmax) hlater
  · rw [heq] at hword ⊢
    exact Gives.lengths (hword _ List.mem_cons_self) (.again (hlast _ hsame) hmin hmax) hlater
  · rw [heq] at hword ⊢
    obtain ⟨hone, hagain⟩ := List.forall_mem_cons.mp hword
    refine Gives.lengths hone (.one hlength) (Gives.lengths (hagain _ List.mem_cons_self)
      (.again List.getLast?_concat (by omega) (by omega)) ?_)
    rwa [List.append_assoc, List.singleton_append, ← List.replicate_succ,
      Nat.sub_add_cancel (by omega)]

theorem symbol_lt (h : ∀ l, c = .one l → l ≤ maxCodeLength) : c.symbol < 19 := by
  cases c with
  | one length => exact Nat.lt_of_le_of_lt (h length rfl) (by decide)
  | again n => exact (by decide : 16 < 19)
  | zeros n =>
    rw [symbol]
    split <;> decide

theorem eq_of_one_mem_ofRun {l length n : Nat} (h : .one l ∈ ofRun last length n) : l = length := by
  rw [ofRun] at h
  split at h
  · split at h
    · rename_i hzero _
      cases List.eq_of_mem_replicate h
      exact hzero.symm
    · simp at h
  · split at h
    · split at h
      · cases List.eq_of_mem_replicate h
        rfl
      · simp at h
    · split at h
      · cases List.eq_of_mem_replicate h
        rfl
      · simpa using h

theorem mem_of_one_mem_ofLengths {fuel l : Nat} {lengths : List Nat}
    (h : .one l ∈ ofLengths fuel last lengths) :
    l ∈ lengths := by
  induction fuel generalizing last lengths with
  | zero => simp [ofLengths] at h
  | succ fuel ih =>
    rcases lengths with _ | ⟨length, lengths⟩
    · simp [ofLengths] at h
    · rw [ofLengths] at h
      rcases List.mem_append.mp h with h | h
      · rw [eq_of_one_mem_ofRun h]
        exact List.mem_cons_self
      · exact List.mem_cons_of_mem length (List.mem_of_mem_drop (ih h))

/-- A list starts with a run, and goes on behind it. -/
theorem run_append_drop (length n : Nat) (lengths : List Nat) :
    List.replicate ((lengths.take n).takeWhile (· == length)).length length ++
      lengths.drop ((lengths.take n).takeWhile (· == length)).length = lengths := by
  have hprefix := (List.takeWhile_prefix (· == length)).trans (List.take_prefix n lengths)
  have hrun : (lengths.take n).takeWhile (· == length) =
      List.replicate ((lengths.take n).takeWhile (· == length)).length length :=
    List.eq_replicate_of_mem fun l hl => by simpa using List.mem_takeWhile_imp hl
  rw [← hrun]
  exact List.prefix_iff_eq_append.mp hprefix

theorem maxRun_pos (last : Option Nat) (length : Nat) : 0 < maxRun last length := by
  rw [maxRun]
  split
  · decide
  · split <;> decide

/-- The codes of lengths stand for them. -/
theorem lengths_ofLengths {fuel : Nat} {lengths : List Nat} (hfuel : lengths.length ≤ fuel)
    (hle : ∀ l ∈ lengths, l ≤ maxCodeLength) (hlast : ∀ l, last = some l → found.getLast? = some l)
    (hword : Worded code words (ofLengths fuel last lengths))
    (hlater : Lengths code (found ++ lengths) bits all rest) :
    Lengths code found (codesBits words (ofLengths fuel last lengths) ++ bits) all rest := by
  induction fuel generalizing lengths last found with
  | zero =>
    obtain rfl := List.length_eq_zero_iff.mp (Nat.le_zero.mp hfuel)
    simpa [codesBits, ofLengths] using hlater
  | succ fuel ih =>
    rcases lengths with _ | ⟨length, lengths⟩
    · simpa [codesBits, ofLengths] using hlater
    · obtain ⟨hlength, hlengths⟩ := List.forall_mem_cons.mp hle
      have hsplit := run_append_drop length (maxRun last length - 1) lengths
      have hshort := (List.takeWhile_sublist (p := (· == length))
        (l := lengths.take (maxRun last length - 1))).length_le
      have hpos := maxRun_pos last length
      rw [List.length_take] at hshort
      rw [ofLengths] at hword ⊢
      generalize ((lengths.take (maxRun last length - 1)).takeWhile (· == length)).length = k
        at hsplit hshort hword ⊢
      rw [Nat.add_sub_cancel] at hword ⊢
      rw [List.length_cons] at hfuel
      rw [codesBits, List.flatMap_append, List.append_assoc]
      refine lengths_ofRun hlength hlast (by omega)
        (fun c hc => hword c (List.mem_append_left _ hc))
        (ih ?_ (fun l hl => hlengths l (List.mem_of_mem_drop hl)) ?_
          (fun c hc => hword c (List.mem_append_right _ hc)) ?_)
      · rw [List.length_drop]
        omega
      · rintro l hl
        rw [List.replicate_succ', ← List.append_assoc, List.getLast?_concat, hl]
      · rwa [List.append_assoc, List.replicate_succ, List.cons_append, hsplit]

section

variable {literals distances : List Nat} (hliterals : ∀ l ∈ literals, l ≤ maxCodeLength)
  (hdistances : ∀ l ∈ distances, l ≤ maxCodeLength)

include hliterals hdistances

theorem symbol_lt_of_mem (hc : c ∈ ofLengths literals.length none literals ++
    ofLengths distances.length none distances) : c.symbol < 19 := by
  refine symbol_lt fun l hl => ?_
  rcases List.mem_append.mp (hl ▸ hc) with hc | hc
  · exact hliterals l (mem_of_one_mem_ofLengths hc)
  · exact hdistances l (mem_of_one_mem_ofLengths hc)

/-- The lengths for literals and distances are given one after the other. -/
theorem lengths_append (hwords : Worded code words
      (ofLengths literals.length none literals ++ ofLengths distances.length none distances))
    (rest : List Bool) :
    Lengths code [] (codesBits words (ofLengths literals.length none literals ++
      ofLengths distances.length none distances) ++ rest) (literals ++ distances) rest := by
  obtain ⟨hfirst, hsecond⟩ := List.forall_mem_append.mp hwords
  rw [codesBits, List.flatMap_append, List.append_assoc]
  refine lengths_ofLengths (Nat.le_refl _) hliterals (fun _ h => nomatch h) hfirst ?_
  refine lengths_ofLengths (Nat.le_refl _) hdistances (fun _ h => nomatch h) hsecond ?_
  exact .nil _ _

end

end LengthCode

/-! ## The code of the lengths -/

section

variable {lengths : List Nat} {n : Nat}

theorem firstWord_append_zeros (lengths : List Nat) (n l : Nat) :
    firstWord (lengths ++ List.replicate n 0) l = firstWord lengths l := by
  induction l with
  | zero => rfl
  | succ l ih =>
    rw [firstWord, firstWord, ih]
    rcases l with _ | l
    · rfl
    · simp [wordCount, List.count_replicate]

/-- Symbols without words at the end make no difference. -/
theorem IsWord.append_zeros {w : List Bool} (h : IsWord lengths s w) (n : Nat) :
    IsWord (lengths ++ List.replicate n 0) s w := by
  have hlt := (List.getElem?_eq_some_iff.mp h.length).1
  refine ⟨h.nonempty, by rw [List.getElem?_append_left hlt, h.length], ?_⟩
  rw [h.value, firstWord_append_zeros, List.take_append_of_le_length hlt.le]

theorem weight_append_zeros (lengths : List Nat) (n : Nat) :
    weight (lengths ++ List.replicate n 0) = weight lengths := by
  rw [weight_eq_sum, weight_eq_sum, List.map_append, List.sum_append,
    List.map_replicate, if_pos rfl, List.sum_replicate_nat, Nat.mul_zero, Nat.add_zero]

/-- Behind the last of them that is not zero there are no others. -/
theorem getD_of_length_dropWhile_le {k : Nat}
    (h : (lengths.reverse.dropWhile (· == 0)).length ≤ k) :
    lengths.getD k 0 = 0 := by
  have hsplit : lengths = (lengths.reverse.dropWhile (· == 0)).reverse ++
      (lengths.reverse.takeWhile (· == 0)).reverse := by
    rw [← List.reverse_append, List.takeWhile_append_dropWhile, List.reverse_reverse]
  rw [hsplit, List.getD_eq_getElem?_getD, List.getElem?_append_right (by rwa [List.length_reverse])]
  rcases hget : (lengths.reverse.takeWhile (· == 0)).reverse[k -
    (lengths.reverse.dropWhile (· == 0)).reverse.length]? with _ | l
  · rfl
  · have hzero := List.mem_takeWhile_imp (List.mem_reverse.mp (List.mem_of_getElem? hget))
    exact beq_iff_eq.mp hzero

theorem getD_append_zeros (lengths : List Nat) (n k : Nat) :
    (lengths ++ List.replicate n 0).getD k 0 = lengths.getD k 0 := by
  simp only [List.getD_eq_getElem?_getD, List.getElem?_append, List.getElem?_replicate]
  split
  · rfl
  · rename_i hle
    rw [List.getElem?_eq_none (Nat.le_of_not_lt hle)]
    split <;> rfl

/-- The lengths that are given in their order, up to the last that is not zero. -/
theorem spread_take (hlength : lengths.length ≤ 19)
    (hn : ∀ k, n ≤ k → (codeLengthOrder.map fun symbol => lengths.getD symbol 0).getD k 0 = 0) :
    spread ((codeLengthOrder.map fun symbol => lengths.getD symbol 0).take n) =
      lengths ++ List.replicate (19 - lengths.length) 0 := by
  have hspread (symbol : Nat) (h : symbol < 19) :
      (((codeLengthOrder.map fun symbol => lengths.getD symbol 0).take n)[
        codeLengthOrder.idxOf symbol]?).getD 0 = lengths.getD symbol 0 := by
    have hmem : symbol ∈ codeLengthOrder := by
      have hall : ∀ symbol < 19, symbol ∈ codeLengthOrder := by decide
      exact hall symbol h
    have hget :
        (codeLengthOrder.map fun symbol => lengths.getD symbol 0)[codeLengthOrder.idxOf symbol]? =
        some (lengths.getD symbol 0) := by
      rw [List.getElem?_map, List.getElem?_idxOf hmem, Option.map_some]
    rcases Nat.lt_or_ge (codeLengthOrder.idxOf symbol) n with hlt | hge
    · rw [List.getElem?_take_of_lt hlt, hget, Option.getD_some]
    · have hzero := hn _ hge
      rw [List.getD_eq_getElem?_getD, hget, Option.getD_some] at hzero
      rw [List.getElem?_take_eq_none hge, hzero, Option.getD_none]
  refine List.ext_getElem ?_ fun i hi hi' => ?_
  · rw [length_spread, List.length_append, List.length_replicate, Nat.add_sub_cancel' hlength]
  · rw [length_spread] at hi
    have hright : (lengths ++ List.replicate (19 - lengths.length) 0)[i] = lengths.getD i 0 := by
      rw [← getD_append_zeros lengths (19 - lengths.length), List.getD_eq_getElem?_getD,
        List.getElem?_eq_getElem hi', Option.getD_some]
    rw [hright, ← hspread i hi]
    simp [spread]

theorem le_of_mem_ordered {limit l : Nat} (hle : ∀ l ∈ lengths, l ≤ limit)
    (hl : l ∈ codeLengthOrder.map fun symbol => lengths.getD symbol 0) : l ≤ limit := by
  obtain ⟨symbol, -, rfl⟩ := List.mem_map.mp hl
  rw [List.getD_eq_getElem?_getD]
  rcases hget : lengths[symbol]? with _ | l
  · exact Nat.zero_le limit
  · exact hle l (List.mem_of_getElem? hget)

theorem numbers_flatMap {width : Nat} {vs : List Nat} (h : ∀ v ∈ vs, v < 2 ^ width)
    (rest : List Bool) :
    Numbers width (vs.flatMap (lowBits width) ++ rest) vs rest := by
  induction vs with
  | nil => exact .nil rest
  | cons v vs ih =>
    obtain ⟨hv, hvs⟩ := List.forall_mem_cons.mp h
    rw [List.flatMap_cons, List.append_assoc]
    exact .cons ⟨hv, rfl⟩ (ih hvs)

end

/-! ## Heads -/

/-- Complete codes are usable. -/
theorem Chosen.usable {limit : Nat} {counts : Array Nat} {lengths : List Nat}
    (h : Chosen limit counts lengths) :
    isUsable lengths := by
  rw [isUsable, isComplete, h.weight_eq]
  rfl

theorem Chosen.fits {limit : Nat} {counts : Array Nat} {lengths : List Nat}
    (h : Chosen limit counts lengths) (hlimit : limit ≤ maxCodeLength) : Fits lengths :=
  ⟨fun l hl => (h.le l hl).trans hlimit, h.weight_eq.le⟩

theorem Chosen.length_pos {limit : Nat} {counts : Array Nat} {lengths : List Nat}
    (h : Chosen limit counts lengths) : 0 < lengths.length := by
  refine List.length_pos_iff.mpr fun hnil => ?_
  have hweight := h.weight_eq
  rw [hnil] at hweight
  exact absurd hweight (by decide)

/-- Each length code that is used has a word in the code that is made of the counts. -/
theorem worded_of_chosen {limit : Nat} {lengths : List Nat} {codes : List LengthCode}
    (hchosen : Chosen limit (countSymbols 19 (codes.map LengthCode.symbol)) lengths)
    (hlimit : limit ≤ maxCodeLength) (hcodes : ∀ c ∈ codes, c.symbol < 19) (n : Nat) :
    LengthCode.Worded (lengths ++ List.replicate n 0) (.ofLengths lengths) codes := fun c hc =>
  have hused := hchosen.used _ (countSymbols_ne_zero (List.mem_map_of_mem hc) (hcodes c hc))
  ((hchosen.fits hlimit).isWord_word hused).append_zeros n

/-- The head of a block gives the codes that it is made for. -/
theorem given_codeBits {literals distances : List Nat} (hmin : 257 ≤ literals.length)
    (hmax : literals.length ≤ 286) (hmin' : 1 ≤ distances.length) (hmax' : distances.length ≤ 30)
    (hliterals : ∀ l ∈ literals, l ≤ maxCodeLength)
    (hdistances : ∀ l ∈ distances, l ≤ maxCodeLength) (hends : literals.getD endOfBlock 0 ≠ 0)
    (husable : isUsable literals) (husable' : isUsable distances)
    (rest : List Bool) : Given (codeBits literals distances ++ rest) literals distances rest := by
  rw [codeBits]
  generalize hcodes : LengthCode.ofLengths literals.length none literals ++
    LengthCode.ofLengths distances.length none distances = codes
  have hsymbol (c : LengthCode) (hc : c ∈ codes) : c.symbol < 19 :=
    LengthCode.symbol_lt_of_mem hliterals hdistances (hcodes ▸ hc)
  have hchosen : Chosen maxLengthOfLengths (countSymbols 19 (codes.map LengthCode.symbol))
      (lengthsFor maxLengthOfLengths (countSymbols 19 (codes.map LengthCode.symbol))) :=
    chosen_countSymbols _ (by decide) (by decide) (by decide)
  generalize lengthsFor maxLengthOfLengths (countSymbols 19 (codes.map LengthCode.symbol)) = lengths
    at hchosen ⊢
  have hlength := hchosen.length_le
  rw [size_countSymbols] at hlength
  generalize hinOrder : (codeLengthOrder.map fun symbol => lengths.getD symbol 0) = inOrder
  generalize hn : max 4 (inOrder.reverse.dropWhile (· == 0)).length = n
  have hall : inOrder.length = 19 := by rw [← hinOrder, List.length_map]; rfl
  have hn' : n ≤ 19 := by
    have hdrop := (List.dropWhile_sublist (p := (· == 0)) (l := inOrder.reverse)).length_le
    rw [List.length_reverse] at hdrop
    omega
  have hspread : spread (inOrder.take n) = lengths ++ List.replicate (19 - lengths.length) 0 := by
    rw [← hinOrder]
    refine spread_take hlength fun k hk => ?_
    rw [hinOrder]
    exact getD_of_length_dropWhile_le (by omega)
  have hwords := worded_of_chosen hchosen (by decide) hsymbol (19 - lengths.length)
  have hlengths : Lengths (spread (inOrder.take n)) []
      (LengthCode.codesBits (.ofLengths lengths) codes ++ rest) (literals ++ distances) rest := by
    rw [← hcodes] at hwords ⊢
    exact hspread ▸ LengthCode.lengths_append hliterals hdistances hwords rest
  have hwidth (l : Nat) (hl : l ∈ inOrder.take n) : l < 2 ^ 3 :=
    Nat.lt_succ_of_le (le_of_mem_ordered hchosen.le (hinOrder ▸ List.mem_of_mem_take hl))
  simp only [List.append_assoc]
  refine .intro (l := literals.length - 257) (d := distances.length - 1) (g := n - 4)
    ⟨by omega, rfl⟩ ⟨by omega, rfl⟩ ⟨by omega, rfl⟩ (by omega) (by omega)
    (numbers_flatMap hwidth _) ?_
    ⟨?_, hlengths, by omega, by omega, hends, husable, husable'⟩
  · rw [List.length_take]
    omega
  · rw [hspread, weight_append_zeros, hchosen.weight_eq]

end JarRepair.Deflate
