import Mathlib.Data.List.Chain
import JarRepair.Deflate.Words
import JarRepair.Proofs.Deflate.Content
import JarRepair.Proofs.Deflate.Tokens

/-! # Writing tokens

The words that are read off the tree of a code are those of the code, and each symbol with a length
has one. So the bits of tokens are the content of a block that continues the data by what they stand
for. -/

namespace JarRepair.Deflate

variable {lengths : List Nat} {l n s v : Nat} {w w' : List Bool}

/-! ## Words -/

theorem exists_wordValue (h : v < 2 ^ n) : ∃ w, w.length = n ∧ wordValue w = v := by
  induction n generalizing v with
  | zero => exact ⟨[], rfl, (Nat.lt_one_iff.mp h).symm⟩
  | succ n ih =>
    rw [Nat.pow_succ'] at h
    rcases Nat.lt_or_ge v (2 ^ n) with hlow | hhigh
    · obtain ⟨w, rfl, hw⟩ := ih hlow
      exact ⟨false :: w, rfl, by rw [wordValue, hw, Bool.toNat_false, Nat.zero_mul, Nat.zero_add]⟩
    · obtain ⟨w, rfl, hw⟩ := ih (v := v - 2 ^ n) (by omega)
      exact ⟨true :: w, rfl, by
        rw [wordValue, hw, Bool.toNat_true, Nat.one_mul, Nat.add_sub_cancel' hhigh]⟩

theorem wordValue_inj (hlength : w.length = w'.length) (h : wordValue w = wordValue w') :
    w = w' := by
  induction w generalizing w' with
  | nil => exact (List.length_eq_zero_iff.mp hlength.symm).symm
  | cons b w ih =>
    rcases w' with _ | ⟨b', w'⟩
    · cases hlength
    · have hlt := wordValue_lt w
      have hlt' := wordValue_lt w'
      rw [List.length_cons, List.length_cons, Nat.succ_inj] at hlength
      rw [wordValue, wordValue, ← hlength] at h
      rw [← hlength] at hlt'
      cases b <;> cases b' <;>
        simp only [Bool.toNat_false, Bool.toNat_true, Nat.zero_mul, Nat.one_mul,
        Nat.zero_add] at h
      · rw [ih hlength h]
      · omega
      · omega
      · rw [ih hlength (Nat.add_left_cancel h)]

theorem IsWord.unique (h : IsWord lengths s w) (h' : IsWord lengths s w') : w = w' := by
  have hlength : w.length = w'.length := Option.some.inj (h.length.symm.trans h'.length)
  exact wordValue_inj hlength (by rw [h.value, h'.value, hlength])

/-- A symbol with a length has a word. -/
theorem Fits.exists_isWord (h : Fits lengths) (hs : lengths.getD s 0 ≠ 0) :
    ∃ w, IsWord lengths s w := by
  obtain ⟨l, hl⟩ : ∃ l, lengths[s]? = some l := by
    rcases hnone : lengths[s]? with _ | l
    · rw [List.getD_eq_getElem?_getD, hnone] at hs
      exact absurd rfl hs
    · exact ⟨l, rfl⟩
  rw [List.getD_eq_getElem?_getD, hl, Option.getD_some] at hs
  have hmax := h.length_le l (List.mem_of_getElem? hl)
  obtain ⟨before, after, hsplit, hspan⟩ := Tree.exists_upToLength_eq (Nat.pos_of_ne_zero hs) hmax hl
  have hle := h.span_le
  rw [Tree.inOrder_eq, hsplit, span_append, span_cons, hspan] at hle
  dsimp only at hle
  have hroom : 2 ^ l * room (0 + l) = room 0 := pow_mul_room (by omega)
  have hpos := room_pos l
  rw [Nat.zero_add] at hroom
  obtain ⟨w, hlength, hvalue⟩ : ∃ w, w.length = l ∧
      wordValue w = firstWord lengths l + (lengths.take s).count l := by
    refine exists_wordValue (Nat.lt_of_mul_lt_mul_right (a := room l) ?_)
    omega
  refine ⟨w, fun hnil => hs ?_, by rw [hlength, hl], by rw [hlength, hvalue]⟩
  rw [← hlength, hnil, List.length_nil]

namespace Words

theorem size_go (t : Tree) (path : List Bool) (words : Words) :
    (ofTree.go t path words).size = words.size := by
  induction t generalizing path words with
  | leaf symbol => exact Array.size_setIfInBounds
  | node zero one hzero hone => rw [ofTree.go, hone, hzero]
  | gap => rfl

/-- Words of symbols that are not in a tree stay as they are. -/
theorem word_go_of_not_ends {t : Tree} {words : Words} (h : ∀ w, ¬ t.Ends w (some s))
    (path : List Bool) :
    (ofTree.go t path words).word s = words.word s := by
  induction t generalizing path words with
  | leaf symbol =>
    have hne : symbol ≠ s := by
      rintro rfl
      exact h [] (.leaf symbol)
    simp only [ofTree.go, word, Array.getD_eq_getD_getElem?, Array.getElem?_setIfInBounds_ne hne]
  | node zero one hzero hone =>
    rw [ofTree.go, hone fun w hw => h _ (.one hw), hzero fun w hw => h _ (.zero hw)]
  | gap => rfl

/-- A symbol that is in a tree once gets its path. -/
theorem word_go_of_ends {t : Tree} {words : Words} (hsize : s < words.size) (h : t.Ends w (some s))
    (honce : ∀ w', t.Ends w' (some s) → w' = w) (path : List Bool) :
    (ofTree.go t path words).word s = path.reverse ++ w := by
  induction t generalizing path words w with
  | leaf symbol =>
    cases h
    simp [ofTree.go, word, hsize]
  | node zero one hzero hone =>
    rw [ofTree.go]
    cases h with
    | zero h =>
      have honly (w' : List Bool) (hw' : zero.Ends w' (some s)) :=
        List.tail_eq_of_cons_eq (honce _ (.zero hw'))
      have hnot (w' : List Bool) (hw' : one.Ends w' (some s)) : False := by
        simpa using honce _ (.one hw')
      rw [word_go_of_not_ends hnot, hzero hsize h honly, List.reverse_cons, List.append_assoc,
        List.singleton_append]
    | one h =>
      have honly (w' : List Bool) (hw' : one.Ends w' (some s)) :=
        List.tail_eq_of_cons_eq (honce _ (.one hw'))
      rw [hone (by rwa [size_go]) h honly, List.reverse_cons, List.append_assoc,
        List.singleton_append]
  | gap => cases h

end Words

/-- The word that is written for a symbol is that of the code. -/
theorem Fits.isWord_word (h : Fits lengths) (hs : lengths.getD s 0 ≠ 0) :
    IsWord lengths s ((Words.ofLengths lengths).word s) := by
  obtain ⟨w, hw⟩ := h.exists_isWord hs
  have hsize : s < (Array.replicate lengths.length ([] : List Bool)).size := by
    rw [Array.size_replicate]
    exact (List.getElem?_eq_some_iff.mp hw.length).1
  rw [Words.ofLengths, Words.ofTree, Words.word_go_of_ends hsize (h.ends_iff.mpr hw) fun w' hw' =>
    (h.ends_iff.mp hw').unique hw]
  exact hw

theorem Fits.coded_word (h : Fits lengths) (hs : lengths.getD s 0 ≠ 0) (rest : List Bool) :
    Format.Coded lengths ((Words.ofLengths lengths).word s ++ rest) s rest :=
  ⟨_, h.isWord_word hs, rfl⟩

/-! ## Amounts -/

/-- The values of each symbol go on up to the base of the next one, and those of the last one up to
a bound. -/
def Gapless (codes : List (Nat × Nat)) (bound : Nat) : Prop :=
  (codes ++ [(bound, 0)]).IsChain fun (c c' : Nat × Nat) => c'.1 ≤ c.1 + 2 ^ c.2

/-- The last base that is not above a value is that of its symbol. -/
theorem Gapless.exists_last {codes : List (Nat × Nat)} {bound : Nat} {c : Nat × Nat}
    (hcodes : Gapless (c :: codes) bound) (hfirst : c.1 ≤ v) (hv : v < bound) :
    ∃ k base extra, ((c :: codes).takeWhile fun c => decide (c.1 ≤ v)).length = k + 1 ∧
      (c :: codes)[k]? = some (base, extra) ∧ base ≤ v ∧ v < base + 2 ^ extra := by
  induction codes generalizing c with
  | nil =>
    obtain ⟨hnext, -⟩ := List.isChain_cons.mp hcodes
    rw [List.takeWhile_cons_of_pos (by simpa using hfirst)]
    exact ⟨0, c.1, c.2, rfl, rfl, hfirst, Nat.lt_of_lt_of_le hv (hnext _ rfl)⟩
  | cons c' codes ih =>
    obtain ⟨hnext, hcodes⟩ := List.isChain_cons.mp hcodes
    rw [List.takeWhile_cons_of_pos (by simpa using hfirst)]
    rcases Nat.lt_or_ge v c'.1 with hlt | hge
    · rw [List.takeWhile_cons_of_neg (by simpa using hlt)]
      exact ⟨0, c.1, c.2, rfl, rfl, hfirst, Nat.lt_of_lt_of_le hlt (hnext _ rfl)⟩
    · obtain ⟨k, base, extra, hk, hcode, hrange⟩ := ih hcodes hge
      exact ⟨k + 1, base, extra, by rw [List.length_cons, hk], hcode, hrange⟩

theorem Gapless.amount {codes : List (Nat × Nat)} {bound : Nat} {c : Nat × Nat}
    (hcodes : Gapless (c :: codes) bound) (hfirst : c.1 ≤ v) (hv : v < bound) (rest : List Bool) :
    Format.Amount (c :: codes) (symbolFor (c :: codes) v).1 ((symbolFor (c :: codes) v).2 ++ rest) v
      rest := by
  obtain ⟨k, base, extra, hk, hcode, hle, hlt⟩ := hcodes.exists_last hfirst hv
  have hsymbol : symbolFor (c :: codes) v = (k, lowBits extra (v - base)) := by
    rw [symbolFor, hk, Nat.add_sub_cancel, List.getD_eq_getElem?_getD, hcode]
    rfl
  rw [hsymbol]
  exact ⟨base, extra, v - base, hcode, ⟨by omega, rfl⟩, (Nat.add_sub_cancel' hle).symm⟩

theorem amount_length {length : Nat} (hmin : minCopy ≤ length) (hmax : length ≤ maxCopy)
    (rest : List Bool) : Format.Amount lengthCodes (symbolFor lengthCodes length).1
      ((symbolFor lengthCodes length).2 ++ rest) length rest := by
  have hcodes : Gapless lengthCodes 259 := by
    rw [Gapless]
    decide
  exact hcodes.amount hmin (Nat.lt_succ_of_le hmax) rest

theorem amount_distance {distance : Nat} (hpos : 0 < distance) (hmax : distance ≤ Token.maxDistance)
    (rest : List Bool) : Format.Amount distanceCodes (symbolFor distanceCodes distance).1
      ((symbolFor distanceCodes distance).2 ++ rest) distance rest := by
  have hcodes : Gapless distanceCodes 32769 := by
    rw [Gapless]
    decide
  exact hcodes.amount hpos (Nat.lt_of_le_of_lt hmax (by decide)) rest

/-! ## The content of a block -/

/-- Two codes with a word for each symbol of some tokens, and for the end of the block. -/
structure Serve (literals distances : List Nat) (tokens : List Token) : Prop where
  fits_literals : Fits literals
  fits_distances : Fits distances
  ends : literals.getD endOfBlock 0 ≠ 0
  literal : ∀ t ∈ tokens, literals.getD t.literalSymbol 0 ≠ 0
  distance : ∀ t ∈ tokens, ∀ s ∈ t.distanceSymbol?, distances.getD s 0 ≠ 0

theorem bodyBits_cons (words : WordPair) (t : Token) (tokens : List Token) :
    bodyBits words (t :: tokens) = t.bits words ++ bodyBits words tokens := List.append_assoc ..

/-- The bits of tokens continue the data by what the tokens stand for. -/
theorem Token.Covers.content {data : Array UInt8} {i j : Nat} {tokens : List Token}
    {literals distances : List Nat} (h : Covers data i tokens j)
    (hserve : Serve literals distances tokens) (rest : List Bool) :
    Format.Content literals distances (data.toList.take i)
      (bodyBits (.ofLengths literals distances) tokens ++ rest) (data.toList.take j) rest := by
  induction h with
  | nil i =>
    exact .endOfBlock ⟨_, _, hserve.fits_literals.coded_word hserve.ends rest, .endOfBlock rest⟩
  | @literal i j b tokens hb _ ih =>
    obtain ⟨hliteral, hliterals⟩ := List.forall_mem_cons.mp hserve.literal
    obtain ⟨-, hdistances⟩ := List.forall_mem_cons.mp hserve.distance
    have hstep : data.toList.take (i + 1) = data.toList.take i ++ [b] := by
      rw [List.take_add_one, Array.getElem?_toList, hb, Option.toList_some]
    rw [bodyBits_cons, List.append_assoc]
    refine .literal ⟨_, _, hserve.fits_literals.coded_word hliteral _, .literal b _⟩ ?_
    rw [← hstep]
    exact ih { hserve with literal := hliterals, distance := hdistances }
  | @copy i j length distance tokens hcopy _ ih =>
    obtain ⟨hliteral, hliterals⟩ := List.forall_mem_cons.mp hserve.literal
    obtain ⟨hdistance, hdistances⟩ := List.forall_mem_cons.mp hserve.distance
    have hle : distance ≤ (data.toList.take i).length := by
      rw [List.length_take_of_le
        (by rw [Array.length_toList]; exact Nat.le_of_add_right_le hcopy.fits)]
      exact hcopy.le
    rw [bodyBits_cons, Token.bits]
    simp only [List.append_assoc]
    exact .copy ⟨_, _, hserve.fits_literals.coded_word hliteral _, .copy
      (amount_length hcopy.min_le hcopy.le_max _)
      (hserve.fits_distances.coded_word (hdistance _ rfl) _)
      (amount_distance hcopy.pos hcopy.near _)⟩ hle hcopy.copied
      (ih { hserve with literal := hliterals, distance := hdistances })

end JarRepair.Deflate
