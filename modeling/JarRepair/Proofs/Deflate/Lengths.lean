import JarRepair.Proofs.Deflate.Parsing

/-! # Code lengths

A block may give its codes by the lengths of their words, and these in a code again. They are read
just as the format has them; a code for lengths that has no words gives none that a block could
use. -/

namespace JarRepair.Deflate

open Format

/-! ## Runs of lengths -/

variable {α : Type} {code found run all : List Nat} {bits rest : List Bool} {symbol total : Nat}

theorem Format.Run.pos (h : Run found symbol bits run rest) : 0 < run.length := by
  cases h with
  | one => simp
  | again => simp only [List.length_replicate]; omega
  | zeros => simp only [List.length_replicate]; omega
  | moreZeros => simp only [List.length_replicate]; omega

theorem Format.Run.le (h : Run found symbol bits run rest)
    (hfound : ∀ l ∈ found, l ≤ maxCodeLength) :
    ∀ l ∈ run, l ≤ maxCodeLength := by
  cases h with
  | one _ hl => simpa using hl
  | again hlast _ =>
    intro l hl
    rw [List.eq_of_mem_replicate hl]
    exact hfound _ (List.mem_of_getLast? hlast)
  | zeros =>
    intro l hl
    rw [List.eq_of_mem_replicate hl]
    exact Nat.zero_le _
  | moreZeros =>
    intro l hl
    rw [List.eq_of_mem_replicate hl]
    exact Nat.zero_le _

theorem Format.Lengths.le (h : Lengths code found bits all rest)
    (hfound : ∀ l ∈ found, l ≤ maxCodeLength) :
    ∀ l ∈ all, l ≤ maxCodeLength := by
  induction h with
  | nil => exact hfound
  | cons _ hrun _ ih =>
    exact ih fun l hl => (List.mem_append.mp hl).elim (hfound l) (hrun.le hfound l)

theorem Format.Lengths.length_le (h : Lengths code found bits all rest) :
    found.length ≤ all.length := by
  induction h with
  | nil => exact Nat.le_refl _
  | cons _ _ _ ih =>
    rw [List.length_append] at ih
    omega

/-- When there are enough lengths, no more are read. -/
theorem Format.lengths_of_le (h : all.length ≤ found.length) :
    Lengths code found bits all rest ↔ all = found ∧ rest = bits := by
  constructor
  · rintro (_ | ⟨-, hrun, hrest⟩)
    · exact ⟨rfl, rfl⟩
    · have hpos := hrun.pos
      have hle := hrest.length_le
      rw [List.length_append] at hle
      omega
  · rintro ⟨rfl, rfl⟩
    exact .nil _ _

theorem Format.run_one_iff (h : symbol < 16) :
    Run found symbol bits run rest ↔ run = [symbol] ∧ rest = bits := by
  constructor
  · intro hrun
    cases hrun with
    | one => exact ⟨rfl, rfl⟩
    | again => contradiction
    | zeros => contradiction
    | moreZeros => contradiction
  · rintro ⟨rfl, rfl⟩
    exact .one _ (Nat.le_of_lt_succ h)

theorem Format.run_again_iff {l : Nat} (h : found.getLast? = some l) :
    Run found 16 bits run rest ↔ ∃ n, Number 2 bits n rest ∧ run = List.replicate (3 + n) l := by
  constructor
  · intro hrun
    cases hrun with
    | one => contradiction
    | again hl hn =>
      obtain rfl := Option.some.inj (hl.symm.trans h)
      exact ⟨_, hn, rfl⟩
  · rintro ⟨n, hn, rfl⟩
    exact .again h hn

/-- There is no last length before the first one. -/
theorem Format.not_run_again : ¬ Run [] 16 bits run rest := by
  intro hrun
  cases hrun with
  | one => contradiction
  | again hl => cases hl

theorem Format.run_zeros_iff :
    Run found 17 bits run rest ↔ ∃ n, Number 3 bits n rest ∧ run = List.replicate (3 + n) 0 := by
  constructor
  · intro hrun
    cases hrun with
    | one => contradiction
    | zeros hn => exact ⟨_, hn, rfl⟩
  · rintro ⟨n, hn, rfl⟩
    exact .zeros hn

theorem Format.run_moreZeros_iff :
    Run found 18 bits run rest ↔ ∃ n, Number 7 bits n rest ∧ run = List.replicate (11 + n) 0 := by
  constructor
  · intro hrun
    cases hrun with
    | one => contradiction
    | moreZeros hn => exact ⟨_, hn, rfl⟩
  · rintro ⟨n, hn, rfl⟩
    exact .moreZeros hn

/-! ## All lengths -/

/-- Lengths are given until there are `total`. -/
def AllLengths (code : List Nat) (total : Nat) (found : List Nat) (bits : List Bool)
    (all : List Nat) (rest : List Bool) : Prop :=
  Lengths code found bits all rest ∧ all.length = total

theorem allLengths_of_eq (h : found.length = total) :
    AllLengths code total found bits all rest ↔ all = found ∧ rest = bits := by
  constructor
  · rintro ⟨hall, hlength⟩
    exact (lengths_of_le (by rw [hlength, h])).mp hall
  · rintro ⟨rfl, rfl⟩
    exact ⟨.nil _ _, h⟩

theorem allLengths_of_lt (h : found.length < total) : AllLengths code total found bits all rest ↔
    ∃ symbol mid, Coded code bits symbol mid ∧ ∃ run mid', Run found symbol mid run mid' ∧
      AllLengths code total (found ++ run) mid' all rest := by
  constructor
  · rintro ⟨_ | ⟨hsymbol, hrun, hall⟩, hlength⟩
    · exact absurd hlength h.ne
    · exact ⟨_, _, hsymbol, _, _, hrun, hall, hlength⟩
  · rintro ⟨symbol, mid, hsymbol, run, mid', hrun, hall, hlength⟩
    exact ⟨.cons hsymbol hrun hall, hlength⟩

theorem parses_found (h : found.length = total) :
    Parses (pure found.reverse) (AllLengths code total found.reverse) :=
  (parses_pure found.reverse).congr fun _ _ _ =>
    (allLengths_of_eq (List.length_reverse.trans h)).symm

theorem parses_replicate {next : List Nat → BitParser (List Nat)} {n : Nat}
    (found : List Nat) (l : Nat)
    (h : found.length + n ≤ total → Parses (next (List.replicate n l ++ found))
      (AllLengths code total (List.replicate n l ++ found).reverse)) :
    Parses (do
      if total < found.length + n then throw .corrupt
      next (List.replicate n l ++ found)) (AllLengths code total
        (found.reverse ++ List.replicate n l)) := by
  refine (Parses.unless fun hle => h (Nat.le_of_not_lt hle)).congr fun bits all rest => ?_
  rw [List.reverse_append, List.reverse_replicate]
  refine and_iff_right_of_imp fun hall => ?_
  have hle := hall.1.length_le
  rw [List.length_append, List.length_reverse, List.length_replicate, hall.2] at hle
  exact Nat.not_lt.mpr hle

theorem parses_repeated {next : Nat → BitParser (List Nat)} {width base l : Nat}
    (h : ∀ n, Parses (next n) (AllLengths code total (found ++ List.replicate (base + n) l))) :
    Parses (number width >>= next) fun bits all rest =>
      ∃ run mid, (∃ n, Number width bits n mid ∧ run = List.replicate (base + n) l) ∧
        AllLengths code total (found ++ run) mid all rest := by
  refine ((parses_number width).bind fun n _ _ _ => h n).congr fun bits all rest => ?_
  constructor
  · rintro ⟨n, mid, hn, hall⟩
    exact ⟨_, mid, ⟨n, hn, rfl⟩, hall⟩
  · rintro ⟨_, mid, ⟨n, hn, rfl⟩, hall⟩
    exact ⟨n, mid, hn, hall⟩

theorem parses_codeLengths (hcode : Fits code) (hfull : weight code = fullWeight)
    (hlength : code.length ≤ 19) (fuel : Nat) (found : List Nat)
    (hfuel : total ≤ found.length + fuel) (hfound : found.length ≤ total) :
    Parses (codeLengths (.ofLengths code) total fuel found)
      (AllLengths code total found.reverse) := by
  -- A run has one length at least, so as many symbols are enough as lengths are missing.
  induction fuel generalizing found with
  | zero => exact parses_found (Nat.le_antisymm hfound hfuel)
  | succ fuel ih =>
    have hrun (n l : Nat) (hn : 0 < n) := parses_replicate found l fun hle =>
      ih (List.replicate n l ++ found) (by rw [List.length_append, List.length_replicate]; omega)
        (by rw [List.length_append, List.length_replicate]; omega)
    rw [codeLengths]
    split
    · exact parses_found (Nat.le_antisymm hfound ‹_›)
    · rename_i hmissing
      refine ((hcode.parses_walk hfull).bind (Q := fun o bits all rest => ∃ run mid,
        Run found.reverse (o.getD 0) bits run mid ∧
          AllLengths code total (found.reverse ++ run) mid all rest) ?_).congr fun bits all rest =>
            ?_
      · rintro _ bits mid ⟨symbol, rfl, hsymbol⟩
        have hlt := hsymbol.symbol_lt
        dsimp only [Option.getD_some]
        split
        · rename_i hone
          simp only [run_one_iff hone]
          refine (ih (symbol :: found) (by rw [List.length_cons]; omega)
            (by rw [List.length_cons]; omega)).congr fun bits all rest => ?_
          rw [List.reverse_cons]
          constructor
          · exact fun hall => ⟨[symbol], bits, ⟨rfl, rfl⟩, hall⟩
          · rintro ⟨_, _, ⟨rfl, rfl⟩, hall⟩
            exact hall
        · split
          · cases found with
            | nil =>
              refine ((parses_number 2).bind fun n _ _ _ => parses_corrupt).congr
                fun bits all rest => ?_
              simp [not_run_again]
            | cons l found =>
              have hlast : (l :: found).reverse.getLast? = some l := List.getLast?_reverse
              refine (parses_repeated fun n => hrun (3 + n) l (by omega)).congr fun bits all rest =>
                ?_
              simp only [run_again_iff hlast]
          · simp only [run_zeros_iff]
            exact parses_repeated fun n => hrun (3 + n) 0 (by omega)
          · rename_i hne hne'
            obtain rfl : symbol = 18 := by
              have h16 : symbol ≠ 16 := hne
              have h17 : symbol ≠ 17 := hne'
              omega
            simp only [run_moreZeros_iff]
            exact parses_repeated fun n => hrun (11 + n) 0 (by omega)
      · rw [allLengths_of_lt (by rw [List.length_reverse]; omega)]
        constructor
        · rintro ⟨_, mid, ⟨symbol, rfl, hsymbol⟩, hall⟩
          exact ⟨symbol, mid, hsymbol, hall⟩
        · rintro ⟨symbol, mid, hsymbol, hall⟩
          exact ⟨some symbol, mid, ⟨symbol, rfl, hsymbol⟩, hall⟩

/-- A code without words gives lengths of 0 only; what fails for them fails. -/
theorem parses_gapLengths {f : List Nat → BitParser α}
    (hf : ∀ all, (∀ l ∈ all, l = 0) → Parses (f all) fun _ _ _ => False) (fuel : Nat)
    (hfound : ∀ l ∈ found, l = 0) :
    Parses (codeLengths (.node .gap .gap) total fuel found >>= f) fun _ _ _ => False := by
  induction fuel generalizing found with
  | zero =>
    rw [codeLengths, pure_bind]
    exact hf found.reverse fun l hl => hfound l (List.mem_reverse.mp hl)
  | succ fuel ih =>
    rw [codeLengths]
    split
    · rw [pure_bind]
      exact hf found.reverse fun l hl => hfound l (List.mem_reverse.mp hl)
    · rw [bind_assoc]
      refine ((Tree.parses_walk _).bind (Q := fun _ _ _ _ => False) fun o _ _ hwalk => ?_).congr
        fun _ _ _ => by simp
      obtain rfl : o = none := by
        obtain ⟨w, (_ | _ | ⟨⟨⟩⟩ | ⟨⟨⟩⟩), -⟩ := hwalk
        · rfl
        · rfl
      exact ih (List.forall_mem_cons.mpr ⟨rfl, hfound⟩)

/-! ## The head of a block -/

theorem parses_givenLengths (n : Nat) :
    Parses (givenLengths n) fun bits vs rest => Numbers 3 bits vs rest ∧ vs.length = n := by
  induction n with
  | zero =>
    refine (parses_pure []).congr fun bits vs rest => ?_
    constructor
    · rintro ⟨rfl, rfl⟩
      exact ⟨.nil _, rfl⟩
    · rintro ⟨_ | _, hlength⟩
      · exact ⟨rfl, rfl⟩
      · cases hlength
  | succ n ih =>
    refine ((parses_number 3).bind fun v _ _ _ => ih.bind fun vs _ _ _ =>
      parses_pure (v :: vs)).congr
      fun bits vs rest => ?_
    constructor
    · rintro ⟨v, mid, hv, vs, _, ⟨hvs, rfl⟩, rfl, rfl⟩
      exact ⟨.cons hv hvs, rfl⟩
    · rintro ⟨_ | ⟨hv, hvs⟩, hlength⟩
      · cases hlength
      · exact ⟨_, _, hv, _, _, ⟨hvs, Nat.succ.inj hlength⟩, rfl, rfl⟩

theorem Format.Numbers.lt {n : Nat} {vs : List Nat} (h : Numbers n bits vs rest) :
    ∀ v ∈ vs, v < 2 ^ n := by
  induction h with
  | nil => simp
  | cons hv _ ih => exact List.forall_mem_cons.mpr ⟨hv.1, ih⟩

theorem length_spread (given : List Nat) : (spread given).length = 19 := by
  rw [spread, List.length_map, List.length_range]

theorem spread_le {given : List Nat} {n : Nat} (h : ∀ l ∈ given, l ≤ n) :
    ∀ l ∈ spread given, l ≤ n := by
  intro l hl
  obtain ⟨symbol, -, rfl⟩ := List.mem_map.mp hl
  rcases hgiven : given[codeLengthOrder.idxOf symbol]? with _ | l
  · exact Nat.zero_le n
  · exact h l (List.mem_of_getElem? hgiven)

/-! ## The codes of a block -/

theorem fits_of_isComplete (hmax : ∀ l ∈ code, l ≤ maxCodeLength) (h : isComplete code) :
    Fits code := by
  refine ⟨hmax, ?_⟩
  rw [isComplete, Bool.or_eq_true, beq_iff_eq, beq_iff_eq] at h
  omega

theorem fits_of_isUsable (hmax : ∀ l ∈ code, l ≤ maxCodeLength) (h : isUsable code) :
    Fits code := by
  rw [isUsable, Bool.or_eq_true, Bool.and_eq_true, beq_iff_eq] at h
  rcases h with h | ⟨h, -⟩
  · exact fits_of_isComplete hmax h
  · exact ⟨hmax, h ▸ Nat.div_le_self _ _⟩

/-- The codes with some lengths. -/
def Codes.ofLengths (literals distances : List Nat) : Codes :=
  ⟨.ofLengths literals, .ofLengths distances⟩

/-- Reads the lengths of `l` words for literals and `d` for distances. -/
def readPair (code : List Nat) (l d : Nat) : BitParser Codes := do
  let all ← codeLengths (.ofLengths code) (l + d) (l + d) []
  if (all.take l).getD endOfBlock 0 = 0 then throw .corrupt
  if !isUsable (all.take l) || !isUsable (all.drop l) then throw .corrupt
  return .ofLengths (all.take l) (all.drop l)

/-- The head of a block is numbers, the code for the lengths, and the lengths. -/
theorem read_eq : Codes.read = (do
    let l ← number 5
    let d ← number 5
    let g ← number 4
    if 286 < l + 257 ∨ 30 < d + 1 then throw .corrupt
    let given ← givenLengths (g + 4)
    if !isComplete (spread given) then throw .corrupt
    readPair (spread given) (l + 257) (d + 1)) := rfl

variable {l d : Nat}

theorem parses_readPair_of_full (hcode : Fits code) (hlength : code.length ≤ 19)
    (hfull : weight code = fullWeight) : Parses (readPair code l d) fun bits codes rest =>
      ∃ literals distances, Pair code l d bits literals distances rest ∧
        codes = .ofLengths literals distances := by
  refine ((parses_codeLengths hcode hfull hlength _ [] (by simp) (by simp)).bind fun all _ _ _ =>
    Parses.unless fun hends => Parses.unless fun husable =>
      parses_pure _).congr fun bits codes rest => ?_
  simp only [Bool.or_eq_true, Bool.not_eq_true', not_or, Bool.not_eq_false, List.reverse_nil]
  constructor
  · rintro ⟨all, _, ⟨hall, htotal⟩, hends, ⟨hliterals, hdistances⟩, rfl, rfl⟩
    have htake : (all.take l).length = l := by
      rw [List.length_take]
      omega
    have hdrop : (all.drop l).length = d := by
      rw [List.length_drop]
      omega
    rw [← List.take_append_drop l all] at hall
    exact ⟨_, _, ⟨hfull, hall, htake, hdrop, hends, hliterals, hdistances⟩, rfl⟩
  · rintro ⟨literals, distances, ⟨-, hall, rfl, rfl, hends, hliterals, hdistances⟩, rfl⟩
    refine ⟨literals ++ distances, rest, ⟨hall, List.length_append⟩, ?_⟩
    rw [List.take_left, List.drop_left]
    exact ⟨hends, ⟨hliterals, hdistances⟩, rfl, rfl⟩

theorem parses_readPair_of_empty (hcode : Fits code) (hempty : weight code = 0) :
    Parses (readPair code l d) fun _ _ _ => False := by
  rw [readPair, hcode.eq_gap hempty]
  refine parses_gapLengths (fun all hall => ?_) _ (by simp)
  have hends : (all.take l).getD endOfBlock 0 = 0 := by
    rw [List.getD_eq_getElem?_getD]
    rcases hlast : (all.take l)[endOfBlock]? with _ | last
    · rfl
    · exact hall last (List.mem_of_mem_take (List.mem_of_getElem? hlast))
  exact (Parses.unless fun h => absurd hends h).congr fun _ _ _ => ⟨And.right, False.elim⟩

theorem parses_readPair (hcode : Fits code) (hlength : code.length ≤ 19)
    (hcomplete : isComplete code) :
    Parses (readPair code l d) fun bits codes rest =>
      ∃ literals distances, Pair code l d bits literals distances rest ∧
        codes = .ofLengths literals distances := by
  rw [isComplete, Bool.or_eq_true, beq_iff_eq, beq_iff_eq] at hcomplete
  rcases hcomplete with hfull | hempty
  · exact parses_readPair_of_full hcode hlength hfull
  · refine (parses_readPair_of_empty hcode hempty).congr fun bits codes rest => ⟨False.elim, ?_⟩
    rintro ⟨_, _, hpair, -⟩
    have hfull := hpair.full
    rw [hempty] at hfull
    cases hfull

theorem parses_read : Parses Codes.read fun bits codes rest =>
    ∃ literals distances, Given bits literals distances rest ∧
    codes = .ofLengths literals distances := by
  rw [read_eq]
  refine ((parses_number 5).bind fun l _ _ _ => (parses_number 5).bind fun d _ _ _ =>
    (parses_number 4).bind fun g _ _ _ => Parses.unless fun _ => (parses_givenLengths (g + 4)).bind
      (Q := fun given bits codes rest => ∃ literals distances,
        Pair (spread given) (l + 257) (d + 1) bits literals distances rest ∧
          codes = Codes.ofLengths literals distances)
      fun given _ _ hgiven => ?_).congr fun bits codes rest => ?_
  · have hcode : ∀ l ∈ spread given, l ≤ maxCodeLength :=
      spread_le fun l hl => (Nat.le_of_lt_succ (hgiven.1.lt l hl)).trans (by decide)
    refine (Parses.unless fun hcomplete => ?_).congr fun bits codes rest => and_iff_right_of_imp ?_
    · rw [Bool.not_eq_true', Bool.not_eq_false] at hcomplete
      exact parses_readPair (fits_of_isComplete hcode hcomplete) (length_spread given).le hcomplete
    · rintro ⟨literals, distances, hpair, -⟩
      rw [isComplete, hpair.full]
      simp
  · constructor
    · rintro ⟨l, _, hl, d, _, hd, g, _, hg, hle, given, _, ⟨hgiven, hlength⟩, _, _, hpair, rfl⟩
      exact ⟨_, _, .intro hl hd hg (by omega) (by omega) hgiven hlength hpair, rfl⟩
    · rintro ⟨literals, distances, ⟨hl, hd, hg, hl286, hd30, hgiven, hlength, hpair⟩, rfl⟩
      exact ⟨_, _, hl, _, _, hd, _, _, hg, by omega, _, _, ⟨hgiven, hlength⟩, _, _, hpair, rfl⟩

/-- There is room for the words of the codes that a block gives. -/
theorem Format.Given.fits {literals distances : List Nat} (h : Given bits literals distances rest) :
    Fits literals ∧ Fits distances := by
  obtain ⟨-, -, -, -, -, -, -, hpair⟩ := h
  have hle := hpair.lengths.le (by simp)
  exact ⟨fits_of_isUsable (fun l hl => hle l (List.mem_append_left _ hl)) hpair.usable_literals,
    fits_of_isUsable (fun l hl => hle l (List.mem_append_right _ hl)) hpair.usable_distances⟩

theorem Format.Given.length_le {literals distances : List Nat}
    (h : Given bits literals distances rest) :
    rest.length ≤ bits.length := by
  have hbits : ({ ahead := bits, rest := [] } : BitSource).bits = bits := List.append_nil bits
  rw [← hbits] at h ⊢
  obtain ⟨s', hrun, rfl⟩ := parses_read.complete ⟨literals, distances, h, rfl⟩
  exact (takes_read _ _ _ hrun).1

end JarRepair.Deflate
