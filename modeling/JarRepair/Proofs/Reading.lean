import Mathlib.Data.List.Forall2
import JarRepair.ClassFile.Parser
import JarRepair.Proofs.Outcome
import JarRepair.Proofs.Words

/-! # What a parser reads

A parser reads a byte string as a value if it takes exactly these bytes off the front of any data.
The parsers of class files are local: a success hangs on the bytes taken, not on what follows. For
them the relation says all about the successful runs, and it can be computed along the parser. -/

namespace JarRepair.ClassFile.Parser

variable {ε ε' α β : Type}

/-- The parser takes `bs` off the front of any data, with the value `x`. -/
def Reads (p : Parser ε α) (bs : Bytes) (x : α) : Prop :=
  ∀ offset rest, p ⟨offset, bs ++ rest⟩ = .ok (x, ⟨offset + bs.length, rest⟩)

/-- A parser whose successes depend on the bytes taken only. -/
class Local (p : Parser ε α) : Prop where
  exists_reads : ∀ {c : Cursor} {x : α} {c' : Cursor}, p c = .ok (x, c') →
    ∃ bs, c.rest = bs ++ c'.rest ∧ c'.offset = c.offset + bs.length ∧ Reads p bs x

theorem run_eq_ok_iff {p : Parser ε α} [Local p] {c c' : Cursor} {x : α} :
    p c = .ok (x, c') ↔
      ∃ bs, c.rest = bs ++ c'.rest ∧ c'.offset = c.offset + bs.length ∧ Reads p bs x := by
  constructor
  · exact Local.exists_reads
  · rintro ⟨bs, hrest, hoffset, h⟩
    obtain ⟨offset, rest⟩ := c
    obtain ⟨offset', rest'⟩ := c'
    simp only at hrest hoffset
    rw [hrest, hoffset]
    exact h offset rest'

/-! ## Combining parsers -/

section Combining

variable {p : Parser ε α} {f : α → Parser ε β} {bs : Bytes}

theorem bind_apply (p : Parser ε α) (f : α → Parser ε β) (c : Cursor) :
    (p >>= f) c = (p c).bind fun r => f r.1 r.2 := by
  cases h : p c <;> simp [bind, StateT.bind, Except.bind, h]

theorem pure_apply (x : α) (c : Cursor) : (pure x : Parser ε α) c = .ok (x, c) := rfl

theorem run_bind_eq_ok_iff {y : β} {c c' : Cursor} :
    (p >>= f) c = .ok (y, c') ↔ ∃ x c₁, p c = .ok (x, c₁) ∧ f x c₁ = .ok (y, c') := by
  rw [bind_apply]
  cases h : p c with
  | error e => simp [Except.bind]
  | ok r =>
    obtain ⟨x, c₁⟩ := r
    simp only [Except.bind, Except.ok.injEq, Prod.mk.injEq]
    constructor
    · exact fun hf => ⟨x, c₁, ⟨rfl, rfl⟩, hf⟩
    · rintro ⟨_, _, ⟨rfl, rfl⟩, hf⟩
      exact hf

theorem Reads.bind {b₁ b₂ : Bytes} {x : α} {y : β} (h : Reads p b₁ x) (h' : Reads (f x) b₂ y) :
    Reads (p >>= f) (b₁ ++ b₂) y := by
  intro offset rest
  rw [bind_apply, List.append_assoc, h offset (b₂ ++ rest), Except.bind, h', List.length_append,
    Nat.add_assoc]

/-- What follows a parser that takes its bytes goes on behind them. -/
theorem Reads.bind_apply {x : α} (h : Reads p bs x) (offset : Nat) (rest : Bytes) :
    (p >>= f) ⟨offset, bs ++ rest⟩ = f x ⟨offset + bs.length, rest⟩ := by
  rw [Parser.bind_apply, h offset rest]
  rfl

instance [Local p] [∀ x, Local (f x)] : Local (p >>= f) where
  exists_reads {c y c'} h := by
    obtain ⟨x, c₁, hp, hf⟩ := run_bind_eq_ok_iff.mp h
    obtain ⟨b₁, hrest, hoffset, h₁⟩ := Local.exists_reads hp
    obtain ⟨b₂, hrest', hoffset', h₂⟩ := Local.exists_reads hf
    refine ⟨b₁ ++ b₂, ?_, ?_, h₁.bind h₂⟩
    · rw [hrest, hrest', List.append_assoc]
    · rw [hoffset', hoffset, List.length_append, Nat.add_assoc]

@[simp] theorem reads_bind_iff [Local p] [∀ x, Local (f x)] {y : β} :
    Reads (p >>= f) bs y ↔ ∃ x b₁, Reads p b₁ x ∧ ∃ b₂, Reads (f x) b₂ y ∧ bs = b₁ ++ b₂ := by
  constructor
  · intro h
    obtain ⟨x, c₁, hp, hf⟩ := run_bind_eq_ok_iff.mp (h 0 [])
    obtain ⟨b₁, hrest, -, h₁⟩ := Local.exists_reads hp
    obtain ⟨b₂, hrest', -, h₂⟩ := Local.exists_reads hf
    exact ⟨x, b₁, h₁, b₂, h₂, by simpa [hrest'] using hrest⟩
  · rintro ⟨x, b₁, h₁, b₂, h₂, rfl⟩
    exact h₁.bind h₂

theorem Reads.mono_bind [Local p] [∀ x, Local (f x)] {f' : α → Parser ε β}
    [∀ x, Local (f' x)] {y : β} (hf : ∀ x b y, Reads (f x) b y → Reads (f' x) b y)
    (h : Reads (p >>= f) bs y) :
    Reads (p >>= f') bs y := by
  rw [reads_bind_iff] at h ⊢
  obtain ⟨x, b₁, h₁, b₂, h₂, rfl⟩ := h
  exact ⟨x, b₁, h₁, b₂, hf x b₂ y h₂, rfl⟩

theorem reads_pure (x : α) : Reads (pure x : Parser ε α) [] x := fun _ _ => rfl

theorem Reads.bind_pure {x : α} (h : Reads p bs x) (g : α → β) :
    Reads (p >>= fun x => pure (g x)) bs (g x) := by
  simpa only [List.append_nil] using h.bind (f := fun x => pure (g x)) (reads_pure (g x))

instance (x : α) : Local (pure x : Parser ε α) where
  exists_reads h := by
    simp only [pure_apply, Except.ok.injEq, Prod.mk.injEq] at h
    obtain ⟨rfl, rfl⟩ := h
    exact ⟨[], rfl, rfl, reads_pure _⟩

@[simp] theorem reads_pure_iff {x y : α} : Reads (pure x : Parser ε α) bs y ↔ bs = [] ∧ y = x := by
  constructor
  · intro h
    have hrun := h 0 []
    simp only [pure_apply, Except.ok.injEq, Prod.mk.injEq, Cursor.mk.injEq] at hrun
    exact ⟨by simpa using hrun.2.2, hrun.1.symm⟩
  · rintro ⟨rfl, rfl⟩
    exact reads_pure _

instance (e : ε) : Local (throw e : Parser ε α) where
  exists_reads h := nomatch h

@[simp] theorem not_reads_throw {e : ε} {y : α} : ¬ Reads (throw e : Parser ε α) bs y :=
  fun h => nomatch h 0 []

theorem liftM_apply (x : Except ε α) (c : Cursor) :
    (liftM x : Parser ε α) c = x.map (·, c) := by
  cases x <;> rfl

instance (x : Except ε α) : Local (liftM x : Parser ε α) where
  exists_reads {c y c'} h := by
    cases x with
    | error e => simp [liftM_apply, Except.map] at h
    | ok x =>
      simp only [liftM_apply, Except.map, Except.ok.injEq, Prod.mk.injEq] at h
      obtain ⟨rfl, rfl⟩ := h
      exact ⟨[], rfl, rfl, fun _ _ => rfl⟩

@[simp] theorem reads_liftM_iff {x : Except ε α} {y : α} :
    Reads (liftM x : Parser ε α) bs y ↔ x = .ok y ∧ bs = [] := by
  cases x with
  | error e => simp [Reads, liftM_apply, Except.map]
  | ok x =>
    have h : (liftM (Except.ok x : Except ε α) : Parser ε α) = pure x := rfl
    rw [h, reads_pure_iff, Except.ok.injEq, and_comm, eq_comm]

instance {c : Prop} [Decidable c] {q : Parser ε α} [Local p] [Local q] :
    Local (if c then p else q) := by
  split <;> infer_instance

@[simp] theorem reads_mapError_iff {g : ε → ε'} {x : α} :
    Reads (p.mapError g) bs x ↔ Reads p bs x := by
  refine forall_congr' fun offset => forall_congr' fun rest => ?_
  cases h : p ⟨offset, bs ++ rest⟩ <;> simp [Parser.mapError, Except.mapError, h]

instance {g : ε → ε'} [Local p] : Local (p.mapError g) where
  exists_reads {c x c'} h := by
    have hp : p c = .ok (x, c') := by
      cases hc : p c <;> simp_all [Parser.mapError, Except.mapError]
    simpa using Local.exists_reads hp

end Combining

/-! ## Single items -/

theorem reads_byte (b : UInt8) : Reads byte [b] b := fun _ _ => rfl

instance : Local byte where
  exists_reads {c b c'} h := by
    obtain ⟨offset, rest⟩ := c
    match rest, h with
    | b :: rest, h =>
      simp only [byte, Except.ok.injEq, Prod.mk.injEq] at h
      obtain ⟨rfl, rfl⟩ := h
      exact ⟨[b], rfl, rfl, reads_byte b⟩

@[simp] theorem reads_byte_iff {bs : Bytes} {b : UInt8} : Reads byte bs b ↔ bs = [b] := by
  refine ⟨fun h => ?_, fun h => h ▸ reads_byte b⟩
  match bs, h 0 [] with
  | c :: bs, h =>
    simp only [byte, List.cons_append, Except.ok.injEq, Prod.mk.injEq, Cursor.mk.injEq] at h
    obtain ⟨rfl, -, hrest⟩ := h
    simpa using hrest

theorem reads_word (v : UInt16) : Reads word (Bytes.word v) v := by
  obtain ⟨hi, lo, rfl⟩ := exists_wordOf v
  rw [word_wordOf]
  exact fun _ _ => rfl

instance : Local word where
  exists_reads {c v c'} h := by
    obtain ⟨offset, rest⟩ := c
    match rest, h with
    | hi :: lo :: rest, h =>
      simp only [word, Except.ok.injEq, Prod.mk.injEq] at h
      obtain ⟨rfl, rfl⟩ := h
      exact ⟨[hi, lo], rfl, rfl, by simpa using reads_word (wordOf hi lo)⟩

@[simp] theorem reads_word_iff {bs : Bytes} {v : UInt16} : Reads word bs v ↔ bs = Bytes.word v := by
  refine ⟨fun h => ?_, fun h => h ▸ reads_word v⟩
  match bs ++ [], h 0 [], List.append_nil bs with
  | hi :: lo :: rest, h, hbs =>
    simp only [word, Except.ok.injEq, Prod.mk.injEq, Cursor.mk.injEq] at h
    obtain ⟨rfl, -, rfl⟩ := h
    rw [← hbs, word_wordOf]

theorem reads_dword (v : UInt32) : Reads dword (Bytes.dword v) v := by
  obtain ⟨a, b, c, d, rfl⟩ := exists_dwordOf v
  rw [dword_dwordOf]
  exact fun _ _ => rfl

instance : Local dword where
  exists_reads {c v c'} h := by
    obtain ⟨offset, rest⟩ := c
    match rest, h with
    | b₀ :: b₁ :: b₂ :: b₃ :: rest, h =>
      simp only [dword, Except.ok.injEq, Prod.mk.injEq] at h
      obtain ⟨rfl, rfl⟩ := h
      exact ⟨[b₀, b₁, b₂, b₃], rfl, rfl, by simpa using reads_dword (dwordOf b₀ b₁ b₂ b₃)⟩

@[simp] theorem reads_dword_iff {bs : Bytes} {v : UInt32} :
    Reads dword bs v ↔ bs = Bytes.dword v := by
  refine ⟨fun h => ?_, fun h => h ▸ reads_dword v⟩
  match bs ++ [], h 0 [], List.append_nil bs with
  | b₀ :: b₁ :: b₂ :: b₃ :: rest, h, hbs =>
    simp only [dword, Except.ok.injEq, Prod.mk.injEq, Cursor.mk.injEq] at h
    obtain ⟨rfl, -, rfl⟩ := h
    rw [← hbs, dword_dwordOf]

@[simp] theorem reads_bytes_iff {n : Nat} {bs x : Bytes} :
    Reads (bytes n) bs x ↔ x = bs ∧ bs.length = n := by
  constructor
  · intro h
    have hrun := h 0 []
    simp only [bytes, List.append_nil, Bytes.atLeast_iff] at hrun
    split at hrun
    · simp only [Except.ok.injEq, Prod.mk.injEq, Cursor.mk.injEq] at hrun
      obtain ⟨rfl, hlength, -⟩ := hrun
      have hn : bs.length = n := by omega
      exact ⟨List.take_of_length_le (by omega), hn⟩
    · simp at hrun
  · rintro ⟨rfl, rfl⟩ offset rest
    simp [bytes, Bytes.atLeast_iff]

instance {n : Nat} : Local (bytes n) where
  exists_reads {c x c'} h := by
    simp only [bytes, Bytes.atLeast_iff] at h
    split at h
    · rename_i hn
      simp only [Except.ok.injEq, Prod.mk.injEq] at h
      obtain ⟨rfl, rfl⟩ := h
      have hlength : (c.rest.take n).length = n := List.length_take_of_le hn
      exact ⟨c.rest.take n, (List.take_append_drop n c.rest).symm, by simp only [hlength],
        reads_bytes_iff.mpr ⟨rfl, hlength⟩⟩
    · simp at h

theorem skip_eq (n : Nat) : skip n = bytes n >>= fun _ => pure () := by
  funext c
  rw [bind_apply, skip, bytes]
  split <;> rfl

instance {n : Nat} : Local (skip n) := by
  rw [skip_eq]
  infer_instance

@[simp] theorem reads_skip_iff {n : Nat} {bs : Bytes} {u : Unit} :
    Reads (skip n) bs u ↔ bs.length = n := by
  rw [skip_eq, reads_bind_iff]
  simp

/-! ## Repetition -/

section Repetition

variable {p : Parser ε α} {bs : Bytes}

theorem timesOnto_succ (p : Parser ε α) (n : Nat) (found : List α) :
    timesOnto p (n + 1) found = p >>= fun x => timesOnto p n (x :: found) := by
  funext c
  rw [bind_apply]
  dsimp only [timesOnto]
  cases p c <;> rfl

instance [Local p] {n : Nat} {found : List α} : Local (timesOnto p n found) := by
  induction n generalizing found with
  | zero => exact inferInstanceAs (Local (pure found))
  | succ n ih =>
    rw [timesOnto_succ]
    infer_instance

theorem reads_timesOnto_iff [Local p] {n : Nat} {found ys : List α} :
    Reads (timesOnto p n found) bs ys ↔
      ∃ parts xs, List.Forall₂ (Reads p) parts xs ∧ xs.length = n ∧ bs = parts.flatten ∧
        ys = xs.reverse ++ found := by
  induction n generalizing found bs with
  | zero =>
    rw [timesOnto, reads_pure_iff]
    constructor
    · rintro ⟨rfl, rfl⟩
      exact ⟨[], [], .nil, rfl, rfl, rfl⟩
    · rintro ⟨parts, xs, hall, hlength, rfl, rfl⟩
      obtain rfl := List.length_eq_zero_iff.mp hlength
      cases hall
      exact ⟨rfl, rfl⟩
  | succ n ih =>
    rw [timesOnto_succ, reads_bind_iff]
    constructor
    · rintro ⟨x, b, hx, b', hrest, rfl⟩
      obtain ⟨parts, xs, hall, rfl, rfl, rfl⟩ := ih.mp hrest
      exact ⟨b :: parts, x :: xs, .cons hx hall, rfl, rfl, by simp⟩
    · rintro ⟨parts, xs, hall, hlength, rfl, rfl⟩
      cases hall with
      | nil => simp at hlength
      | @cons b x parts xs hx hall =>
        exact ⟨x, b, hx, parts.flatten, ih.mpr ⟨parts, xs, hall, by simpa using hlength, rfl,
          by simp⟩, rfl⟩

theorem times_eq (p : Parser ε α) (n : Nat) :
    times n p = timesOnto p n [] >>= fun xs => pure xs.reverse := by
  funext c
  rw [bind_apply, times]
  cases h : timesOnto p n [] c with
  | error e => simp only [Functor.map, StateT.map, bind, Except.bind, h]
  | ok r =>
    simp only [Functor.map, StateT.map, bind, Except.bind, h]
    rfl

instance [Local p] {n : Nat} : Local (times n p) := by
  rw [times_eq]
  infer_instance

theorem reads_times_iff [Local p] {n : Nat} {xs : List α} :
    Reads (times n p) bs xs ↔
      ∃ parts, List.Forall₂ (Reads p) parts xs ∧ xs.length = n ∧ bs = parts.flatten := by
  rw [times_eq, reads_bind_iff]
  simp only [reads_timesOnto_iff, reads_pure_iff]
  constructor
  · rintro ⟨ys, b, ⟨parts, xs', hall, rfl, rfl, rfl⟩, b', ⟨rfl, rfl⟩, rfl⟩
    exact ⟨parts, by simpa using hall, by simp, by simp⟩
  · rintro ⟨parts, hall, rfl, rfl⟩
    exact ⟨xs.reverse, _, ⟨parts, xs, hall, rfl, rfl, by simp⟩, [], by simp⟩

/-- Items that are read from what is written for them, as long as they are good. -/
theorem forall₂_reads_iff_mapM {write : α → Except ε' Bytes} {Good : α → Prop}
    (h : ∀ {b x}, Reads p b x ↔ write x = .ok b ∧ Good x) {parts : List Bytes} {xs : List α} :
    List.Forall₂ (Reads p) parts xs ↔ xs.mapM write = .ok parts ∧ ∀ x ∈ xs, Good x := by
  rw [Outcome.mapM_eq_ok_iff]
  induction xs generalizing parts with
  | nil => simp
  | cons x xs ih =>
    simp only [List.forall₂_cons_right_iff, List.forall₂_cons_left_iff, h, ih, List.forall_mem_cons]
    constructor
    · rintro ⟨b, parts, ⟨hb, hx⟩, ⟨hparts, hxs⟩, rfl⟩
      exact ⟨⟨b, parts, hb, hparts, rfl⟩, hx, hxs⟩
    · rintro ⟨⟨b, parts, hb, hparts, rfl⟩, hx, hxs⟩
      exact ⟨b, parts, ⟨hb, hx⟩, ⟨hparts, hxs⟩, rfl⟩

theorem forall₂_reads_iff_map {write : α → Bytes} {Good : α → Prop}
    (h : ∀ {b x}, Reads p b x ↔ b = write x ∧ Good x) {parts : List Bytes} {xs : List α} :
    List.Forall₂ (Reads p) parts xs ↔ parts = xs.map write ∧ ∀ x ∈ xs, Good x := by
  induction xs generalizing parts with
  | nil => simp
  | cons x xs ih =>
    simp only [List.forall₂_cons_right_iff, h, ih, List.map_cons, List.forall_mem_cons]
    constructor
    · rintro ⟨_, _, ⟨rfl, hx⟩, ⟨rfl, hxs⟩, rfl⟩
      exact ⟨rfl, hx, hxs⟩
    · rintro ⟨rfl, hx, hxs⟩
      exact ⟨_, _, ⟨rfl, hx⟩, ⟨rfl, hxs⟩, rfl⟩

theorem reads_times_iff_flatMap [Local p] {write : α → Bytes} {Good : α → Prop}
    (h : ∀ {b x}, Reads p b x ↔ b = write x ∧ Good x) {n : Nat} {xs : List α} :
    Reads (times n p) bs xs ↔ bs = xs.flatMap write ∧ xs.length = n ∧ ∀ x ∈ xs, Good x := by
  simp only [reads_times_iff, forall₂_reads_iff_map h, List.flatMap_def]
  constructor
  · rintro ⟨_, ⟨rfl, hxs⟩, hlength, rfl⟩
    exact ⟨rfl, hlength, hxs⟩
  · rintro ⟨rfl, hlength, hxs⟩
    exact ⟨_, ⟨rfl, hxs⟩, hlength, rfl⟩

theorem skipTimes_succ (p : Parser ε Unit) (n : Nat) :
    skipTimes p (n + 1) = p >>= fun _ => skipTimes p n := by
  funext c
  rw [bind_apply]
  dsimp only [skipTimes]
  cases p c <;> rfl

instance {p : Parser ε Unit} [Local p] {n : Nat} : Local (skipTimes p n) := by
  induction n with
  | zero => exact inferInstanceAs (Local (pure ()))
  | succ n ih =>
    rw [skipTimes_succ]
    infer_instance

/-- A parser that also gives its source gives the bytes that it took. -/
@[simp] theorem reads_withSource_iff {x : α} {source : Bytes} :
    Reads p.withSource bs (x, source) ↔ Reads p bs x ∧ source = bs := by
  constructor
  · intro h
    have hsource : source = bs := by
      have hrun := h 0 []
      simp only [withSource] at hrun
      split at hrun
      · simp only [Except.ok.injEq, Prod.mk.injEq] at hrun
        obtain ⟨⟨-, rfl⟩, rfl⟩ := hrun
        simp
      · simp at hrun
    refine ⟨fun offset rest => ?_, hsource⟩
    have hrun := h offset rest
    simp only [withSource] at hrun
    split at hrun
    · rename_i hp
      simp only [Except.ok.injEq, Prod.mk.injEq] at hrun
      obtain ⟨⟨rfl, -⟩, rfl⟩ := hrun
      exact hp
    · simp at hrun
  · rintro ⟨h, rfl⟩ offset rest
    simp [withSource, h offset rest]

instance [Local p] : Local p.withSource where
  exists_reads {c x c'} h := by
    simp only [withSource] at h
    split at h
    · rename_i x₁ c₁ hp
      simp only [Except.ok.injEq, Prod.mk.injEq] at h
      obtain ⟨rfl, rfl⟩ := h
      obtain ⟨bs, hrest, hoffset, hreads⟩ := Local.exists_reads hp
      refine ⟨bs, hrest, hoffset, reads_withSource_iff.mpr ⟨hreads, ?_⟩⟩
      simp [hoffset, hrest]
    · simp at h

theorem whole_eq_ok_iff {p : Parser Fault α} [Local p] {info : Bytes} {x : α} :
    whole p info = .ok x ↔ Reads p info x := by
  constructor
  · intro h
    rw [whole] at h
    split at h
    · rename_i x' c hp
      obtain ⟨bs, hrest, -, hreads⟩ := Local.exists_reads hp
      split at h
      · rename_i hnil
        simp only [Except.ok.injEq] at h
        have hbs : info = bs := by simpa [hnil] using hrest
        rw [hbs, ← h]
        exact hreads
      · simp at h
    · simp at h
  · intro h
    have hrun := h 0 []
    rw [List.append_nil] at hrun
    simp [whole, hrun]

end Repetition

end JarRepair.ClassFile.Parser
