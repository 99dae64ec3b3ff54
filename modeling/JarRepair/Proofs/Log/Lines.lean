import Mathlib.Data.List.Basic
import JarRepair.Log.Note
import JarRepair.Proofs.Log.Json

/-! # Log lines are read as JSON

A line in JSON is one object, which gives back the time, the level, the component and the message,
unless the message has a control character that no letter stands for: such a character is written as
it is, and then the line is no JSON at all. -/

namespace JarRepair

/-! ## Characters as bytes -/

namespace Bytes

def utf8 (cs : List Char) : Bytes := cs.flatMap String.utf8EncodeChar

@[simp] theorem utf8_nil : utf8 [] = [] := rfl

@[simp] theorem utf8_cons (c : Char) (cs : List Char) :
    utf8 (c :: cs) = String.utf8EncodeChar c ++ utf8 cs := List.flatMap_cons

@[simp] theorem utf8_append (cs ds : List Char) : utf8 (cs ++ ds) = utf8 cs ++ utf8 ds :=
  List.flatMap_append

theorem utf8_injective {cs ds : List Char} (h : utf8 cs = utf8 ds) : cs = ds := by
  have hencode : cs.utf8Encode = ds.utf8Encode := congrArg List.toByteArray h
  have hdecode := congrArg ByteArray.utf8Decode? hencode
  rw [List.utf8Decode?_utf8Encode, List.utf8Decode?_utf8Encode] at hdecode
  exact List.toArray_inj (Option.some.inj hdecode)

theorem utf8EncodeChar_of_ascii {c : Char} (h : c.toNat ≤ 127) :
    String.utf8EncodeChar c = [char c] := by
  rw [String.utf8EncodeChar]
  exact if_pos h

theorem le_of_mem_utf8EncodeChar {c : Char} (h : 127 < c.toNat) {b : UInt8}
    (hb : b ∈ String.utf8EncodeChar c) : 128 ≤ b.toNat := by
  have hlarge : ¬ c.val.toNat ≤ 127 := Nat.not_le.mpr h
  rw [String.utf8EncodeChar] at hb
  simp only [if_neg hlarge] at hb
  split at hb
  · simp only [List.mem_cons, List.not_mem_nil, or_false] at hb
    rcases hb with rfl | rfl <;> simp only [UInt8.toNat_ofNat'] <;> omega
  · split at hb
    · simp only [List.mem_cons, List.not_mem_nil, or_false] at hb
      rcases hb with rfl | rfl | rfl <;> simp only [UInt8.toNat_ofNat'] <;> omega
    · simp only [List.mem_cons, List.not_mem_nil, or_false] at hb
      rcases hb with rfl | rfl | rfl | rfl <;> simp only [UInt8.toNat_ofNat'] <;> omega

theorem char_injOn {c d : Char} (hc : c.toNat ≤ 127) (hd : d.toNat ≤ 127) (h : char c = char d) :
    c = d := by
  have hnat := congrArg UInt8.toNat h
  simp only [char, UInt8.toNat_ofNat', Nat.toUInt8_eq] at hnat
  refine Char.toNat_inj.mp ?_
  omega

end Bytes

/-- The bytes are the UTF-8 of a JSON text. -/
def Json.Denotes (bs : Bytes) (v : Json.Value) : Prop :=
  ∃ text, bs = Bytes.utf8 text ∧ Json.Text text v

namespace Log.Note

open Bytes (char utf8)

/-! ## Escapes -/

/-- The characters that are written as a backslash and a letter. -/
def escapes : List (Char × Char) :=
  [('"', '"'), ('\\', '\\'), ('\n', 'n'), ('\r', 'r'), ('\t', 't')]

/-- What is written for a character of a message. -/
def written (c : Char) : List Char :=
  match escapes.lookup c with
  | some e => ['\\', e]
  | none => [c]

theorem written_cases (c : Char) : (∃ e, (c, e) ∈ escapes ∧ written c = ['\\', e]) ∨
    (∀ x ∈ escapes, c ≠ x.1) ∧ written c = [c] := by
  rw [written]
  split
  · rename_i e he
    obtain ⟨l₁, l₂, hl, -⟩ := List.lookup_eq_some_iff.mp he
    exact .inl ⟨e, by rw [hl]; simp, rfl⟩
  · rename_i hnone
    refine .inr ⟨fun x hx => ?_, rfl⟩
    simpa using List.lookup_eq_none_iff.mp hnone x hx

theorem escape_of_mem : ∀ x ∈ escapes, escape (char x.1) = utf8 ['\\', x.2] := by decide

theorem escape_of_ne {b : UInt8} (h : ∀ x ∈ escapes, b ≠ char x.1) : escape b = [b] := by
  simp only [escapes, List.forall_mem_cons] at h
  obtain ⟨h₁, h₂, h₃, h₄, h₅, -⟩ := h
  rw [escape, if_neg h₁, if_neg h₂, if_neg h₃, if_neg h₄, if_neg h₅]

theorem flatMap_escape_utf8EncodeChar (c : Char) :
    (String.utf8EncodeChar c).flatMap escape = utf8 (written c) := by
  have hascii : ∀ x ∈ escapes, x.1.toNat ≤ 127 := by decide
  rcases written_cases c with ⟨e, he, hwritten⟩ | ⟨hne, hwritten⟩
  · rw [hwritten, Bytes.utf8EncodeChar_of_ascii (hascii _ he), List.flatMap_singleton,
      escape_of_mem _ he]
  · have hsame : ∀ b ∈ String.utf8EncodeChar c, escape b = [b] := by
      intro b hb
      refine escape_of_ne fun x hx => ?_
      rcases Nat.lt_or_ge 127 c.toNat with hlarge | hsmall
      · rintro rfl
        have hlow : ∀ x ∈ escapes, (char x.1).toNat < 128 := by decide
        exact absurd (Bytes.le_of_mem_utf8EncodeChar hlarge hb) (Nat.not_le.mpr (hlow x hx))
      · rw [Bytes.utf8EncodeChar_of_ascii hsmall, List.mem_singleton] at hb
        rw [hb]
        exact fun heq => hne x hx (Bytes.char_injOn hsmall (hascii x hx) heq)
    rw [hwritten, Bytes.utf8_cons, Bytes.utf8_nil, List.append_nil, List.flatMap_congr hsame,
      List.flatMap_singleton']

theorem flatMap_escape_utf8 (text : List Char) :
    (utf8 text).flatMap escape = utf8 (text.flatMap written) := by
  induction text with
  | nil => rfl
  | cons c text ih =>
    rw [Bytes.utf8_cons, List.flatMap_append, flatMap_escape_utf8EncodeChar, ih, List.flatMap_cons,
      Bytes.utf8_append]

/-! ## Strings -/

open Json (Chars Item Reads Text Value chars_close_iff chars_escape_iff chars_plain_iff escaped?
  number? reads_members_iff reads_number_iff reads_object_iff reads_string_iff skip skip_cons)

/-- A character that a line can hold: no control character but those with a letter of their own. -/
def Escapable (c : Char) : Prop := ' ' ≤ c ∨ c = '\n' ∨ c = '\r' ∨ c = '\t'

instance (c : Char) : Decidable (Escapable c) := inferInstanceAs (Decidable (_ ∨ _ ∨ _ ∨ _))

theorem escaped?_of_mem (rest : List Char) :
    ∀ x ∈ escapes, escaped? (x.2 :: rest) = some (x.1, rest) := by
  simp only [escapes, List.forall_mem_cons]
  exact ⟨rfl, rfl, rfl, rfl, rfl, by simp⟩

variable {c : Char} {s text cs rest : List Char} {v : Value}

theorem chars_written_iff : Chars s (written c ++ cs) rest ↔
    Escapable c ∧ ∃ s', Chars s' cs rest ∧ s = c :: s' := by
  rcases written_cases c with ⟨e, he, hwritten⟩ | ⟨hne, hwritten⟩
  · have hall : ∀ x ∈ escapes, Escapable x.1 := by decide
    rw [hwritten, List.cons_append, List.singleton_append,
      chars_escape_iff (escaped?_of_mem cs _ he)]
    exact (and_iff_right (hall _ he)).symm
  · have hplain : ' ' ≤ c ↔ Escapable c := by
      have hn := hne ('\n', 'n') (by simp [escapes])
      have hr := hne ('\r', 'r') (by simp [escapes])
      have ht := hne ('\t', 't') (by simp [escapes])
      simp [Escapable, hn, hr, ht]
    rw [hwritten, List.singleton_append, ← hplain]
    exact chars_plain_iff
      (hne ('"', '"') (by simp [escapes])) (hne ('\\', '\\') (by simp [escapes]))

theorem chars_text_iff : Chars s (text.flatMap written ++ '"' :: cs) rest ↔
    (∀ c ∈ text, Escapable c) ∧ s = text ∧ rest = cs := by
  induction text generalizing s with
  | nil => simp [chars_close_iff]
  | cons c text ih =>
    rw [List.flatMap_cons, List.append_assoc, chars_written_iff]
    simp only [ih, List.forall_mem_cons]
    constructor
    · rintro ⟨hc, s', ⟨hall, rfl, rfl⟩, rfl⟩
      exact ⟨⟨hc, hall⟩, rfl, rfl⟩
    · rintro ⟨⟨hc, hall⟩, rfl, rfl⟩
      exact ⟨hc, _, ⟨hall, rfl, rfl⟩, rfl⟩

/-- A string with its quotes, and what follows. -/
def quoted (text rest : List Char) : List Char := '"' :: (text.flatMap written ++ '"' :: rest)

theorem reads_quoted_iff : Reads (.value v) (quoted text cs) rest ↔
    (∀ c ∈ text, Escapable c) ∧ v = .string text ∧ rest = cs := by
  rw [quoted, reads_string_iff]
  simp only [chars_text_iff]
  constructor
  · rintro ⟨s, ⟨hall, rfl, rfl⟩, rfl⟩
    exact ⟨hall, rfl, rfl⟩
  · rintro ⟨hall, rfl, rfl⟩
    exact ⟨text, ⟨hall, rfl, rfl⟩, rfl⟩

/-! ## Numbers -/

/-- The digits of a number, after its sign if it is negative. -/
def digits (n : Int) : List Char :=
  if n < 0 then '-' :: Nat.toDigits 10 n.natAbs else Nat.toDigits 10 n.toNat

theorem head?_toDigits_ne {n : Nat} (hn : 0 < n) : (Nat.toDigits 10 n).head? ≠ some '0' := by
  induction n using Nat.strongRecOn with
  | ind n ih =>
    rcases Nat.lt_or_ge n 10 with hsmall | hlarge
    · have hdigit : ∀ n < 10, 0 < n → [Nat.digitChar n].head? ≠ some '0' := by decide
      rw [Nat.toDigits_of_lt_base hsmall]
      exact hdigit n hsmall hn
    · rw [Nat.toDigits_of_base_le (by decide) hlarge,
        List.head?_append_of_ne_nil _ Nat.toDigits_ne_nil]
      exact ih (n / 10) (by omega) (by omega)

theorem isDigit_of_mem_toDigits {n : Nat} {c : Char} (hc : c ∈ Nat.toDigits 10 n) :
    c.isDigit = true :=
  Nat.isDigit_of_mem_toDigits (by decide) (by decide) hc

theorem digits?_toDigits (n : Nat) (cs : List Char) :
    Json.digits? (Nat.toDigits 10 n ++ ',' :: cs) = some (Nat.toDigits 10 n, ',' :: cs) := by
  have htake : (Nat.toDigits 10 n ++ ',' :: cs).takeWhile Char.isDigit = Nat.toDigits 10 n := by
    rw [List.takeWhile_append_of_pos fun _ => isDigit_of_mem_toDigits,
      List.takeWhile_cons_of_neg (by decide), List.append_nil]
  have hdrop : (Nat.toDigits 10 n ++ ',' :: cs).dropWhile Char.isDigit = ',' :: cs := by
    rw [List.dropWhile_append_of_pos fun _ => isDigit_of_mem_toDigits,
      List.dropWhile_cons_of_neg (by decide)]
  rw [Json.digits?, htake, hdrop, if_neg Nat.toDigits_ne_nil]

theorem magnitude?_toDigits (n : Nat) (cs : List Char) :
    Json.magnitude? (Nat.toDigits 10 n ++ ',' :: cs) = some (n, 0, ',' :: cs) := by
  have hzero : ¬ (1 < (Nat.toDigits 10 n).length ∧ (Nat.toDigits 10 n).head? = some '0') := by
    rintro ⟨hlength, hhead⟩
    rcases Nat.eq_zero_or_pos n with rfl | hn
    · simp at hlength
    · exact head?_toDigits_ne hn hhead
  rw [Json.magnitude?, digits?_toDigits]
  simp only [Option.bind_eq_bind, Option.bind_some, if_neg hzero]
  show some (Nat.ofDigitChars 10 (Nat.toDigits 10 n ++ []) 0, ((0 : Int) - ((0 : Nat) : Int)),
      ',' :: cs) = _
  rw [List.append_nil, Nat.ofDigitChars_ten_toDigits]
  rfl

/-- A number begins with a digit or its sign. -/
theorem exists_cons_digits (n : Int) :
    ∃ c ds, digits n = c :: ds ∧ (c = '-' ∨ c.isDigit = true) := by
  rw [digits]
  split
  · exact ⟨_, _, rfl, .inl rfl⟩
  · obtain ⟨c, ds, hds⟩ := List.exists_cons_of_ne_nil (Nat.toDigits_ne_nil (b := 10) (n := n.toNat))
    exact ⟨c, ds, hds, .inr (isDigit_of_mem_toDigits (hds ▸ List.mem_cons_self))⟩

theorem number?_digits (n : Int) (cs : List Char) :
    number? (digits n ++ ',' :: cs) = some (n, 0, ',' :: cs) := by
  rw [digits]
  split
  · rename_i hneg
    rw [List.cons_append, number?, magnitude?_toDigits, Option.map_some]
    simp only [Option.some.injEq, Prod.mk.injEq, and_true]
    omega
  · rename_i hpos
    rw [number?, magnitude?_toDigits, Option.map_some]
    · simp only [Option.some.injEq, Prod.mk.injEq, and_true]
      omega
    · intro ds hds
      obtain ⟨c, digits, hdigits⟩ :=
        List.exists_cons_of_ne_nil (Nat.toDigits_ne_nil (b := 10) (n := n.toNat))
      have hc : c.isDigit = true := isDigit_of_mem_toDigits (hdigits ▸ List.mem_cons_self)
      rw [hdigits, List.cons_append, List.cons.injEq] at hds
      rw [hds.1] at hc
      simp at hc

theorem reads_digits_iff {n : Int} : Reads (.value v) (skip (digits n ++ ',' :: cs)) rest ↔
    v = .number n 0 ∧ rest = ',' :: cs := by
  obtain ⟨c, ds, hds, hc⟩ := exists_cons_digits n
  have hspace : Json.isSpace c = false := by
    cases hspace : Json.isSpace c with
    | false => rfl
    | true =>
      simp only [Json.isSpace, Bool.or_eq_true, beq_iff_eq] at hspace
      rcases hspace with ((rfl | rfl) | rfl) | rfl <;> simp at hc
  have hnumber := number?_digits n cs
  rw [hds, List.cons_append] at hnumber ⊢
  rw [skip_cons hspace, reads_number_iff hc, hnumber]
  constructor
  · rintro ⟨_, _, ⟨⟩, rfl⟩
    exact ⟨rfl, rfl⟩
  · rintro ⟨rfl, rfl⟩
    exact ⟨_, _, rfl, rfl⟩

/-! ## Lines -/

/-- A word without control characters, quotes and backslashes. -/
def Plain (word : Bytes) : Prop := ∀ b ∈ word, 32 ≤ b ∧ b ≤ 126 ∧ b ≠ char '"' ∧ b ≠ char '\\'

instance (word : Bytes) : Decidable (Plain word) := List.decidableBAll _ word

/-- The characters of a plain word. -/
def letters (word : Bytes) : List Char := word.map fun b => Char.ofNat b.toNat

theorem toNat_letter (b : UInt8) : (Char.ofNat b.toNat).toNat = b.toNat := by
  have hvalid : b.toNat.isValidChar := .inl (Nat.lt_trans b.toNat_lt (by decide))
  rw [Char.ofNat, dif_pos hvalid]
  rfl

theorem Plain.utf8_letters {word : Bytes} (h : Plain word) : utf8 (letters word) = word := by
  have hbyte : ∀ b ∈ word, String.utf8EncodeChar (Char.ofNat b.toNat) = [b] := by
    intro b hb
    have hle : b.toNat ≤ 126 := UInt8.le_iff_toNat_le.mp (h b hb).2.1
    rw [Bytes.utf8EncodeChar_of_ascii (by rw [toNat_letter]; omega), char, toNat_letter]
    simp
  rw [utf8, letters, List.flatMap_map, List.flatMap_congr hbyte, List.flatMap_singleton']

theorem Plain.escapable {word : Bytes} (h : Plain word) : ∀ c ∈ letters word, Escapable c := by
  intro c hc
  obtain ⟨b, hb, rfl⟩ := List.mem_map.mp hc
  refine .inl (UInt32.le_iff_toNat_le.mpr ?_)
  have hle : 32 ≤ b.toNat := UInt8.le_iff_toNat_le.mp (h b hb).1
  show 32 ≤ (Char.ofNat b.toNat).toNat
  rwa [toNat_letter]

theorem Plain.flatMap_escape {word : Bytes} (h : Plain word) : word.flatMap escape = word := by
  have hbyte : ∀ b ∈ word, escape b = [b] := by
    intro b hb
    obtain ⟨hle, -, hquote, hbackslash⟩ := h b hb
    have hcontrol (c : UInt8) (hc : c < 32) : b ≠ c := by
      rintro rfl
      exact absurd hle (UInt8.not_le.mpr hc)
    refine escape_of_ne ?_
    simp only [escapes, List.forall_mem_cons]
    exact ⟨hquote, hbackslash,
      hcontrol _ (by decide), hcontrol _ (by decide), hcontrol _ (by decide), by simp⟩
  rw [List.flatMap_congr hbyte, List.flatMap_singleton']

theorem utf8_quoted (text rest : List Char) :
    utf8 (quoted text rest) =
      char '"' :: ((utf8 text).flatMap escape ++ char '"' :: utf8 rest) := by
  rw [quoted, Bytes.utf8_cons, Bytes.utf8_append, Bytes.utf8_cons, ← flatMap_escape_utf8]
  rfl

theorem Plain.utf8_quoted {word : Bytes} (h : Plain word) (rest : List Char) :
    utf8 (quoted (letters word) rest) = char '"' :: (word ++ char '"' :: utf8 rest) := by
  rw [Note.utf8_quoted, h.utf8_letters, h.flatMap_escape]

theorem toNat_le_of_isDigit {c : Char} (h : c.isDigit = true) : c.toNat ≤ 127 := by
  simp only [Char.isDigit, Bool.and_eq_true, decide_eq_true_eq] at h
  exact Nat.le_trans (UInt32.le_iff_toNat_le.mp h.2) (by decide)

theorem utf8_toDigits (n : Nat) : utf8 (Nat.toDigits 10 n) = Bytes.decimal n := by
  have hascii : ∀ c ∈ Nat.toDigits 10 n, String.utf8EncodeChar c = [char c] := fun c hc =>
    Bytes.utf8EncodeChar_of_ascii (toNat_le_of_isDigit (isDigit_of_mem_toDigits hc))
  rw [utf8, List.flatMap_congr hascii, Bytes.decimal, List.map_eq_flatMap]

theorem utf8_digits (n : Int) : utf8 (digits n) = Bytes.decimalInt n := by
  rw [digits, Bytes.decimalInt]
  split
  · rw [Bytes.utf8_cons, utf8_toDigits]
    rfl
  · exact utf8_toDigits _

/-! ## Lines -/

/-- A member of an object whose name is a plain word. -/
def member (name : Bytes) (value : List Char) : List Char := quoted (letters name) (':' :: value)

section

variable {P : Prop} {name : Bytes} {value : Value} {ms : List (List Char × Value)}

theorem chars_name_iff (hname : Plain name) (s rest : List Char) :
    Chars s ((letters name).flatMap written ++ '"' :: ':' :: text) rest ↔
      s = letters name ∧ rest = ':' :: text := by
  rw [chars_text_iff, and_iff_right hname.escapable]

theorem reads_member_comma_iff (hname : Plain name)
    (hvalue : ∀ v r, Reads (.value v) (skip text) r ↔ v = value ∧ r = ',' :: cs) :
    Reads (.members ms) (member name text) rest ↔
      ∃ ms', Reads (.members ms') cs rest ∧ ms = (letters name, value) :: ms' := by
  rw [member, quoted, reads_members_iff (P := True) (chars_name_iff hname)
    (fun v r => by rw [hvalue, true_and])]
  simp [skip_cons (show Json.isSpace ',' = false by decide)]

theorem reads_member_close_iff (hname : Plain name)
    (hvalue : ∀ v r, Reads (.value v) (skip text) r ↔ P ∧ v = value ∧ r = '}' :: cs) :
    Reads (.members ms) (member name text) rest ↔ P ∧ ms = [(letters name, value)] ∧ rest = cs := by
  rw [member, quoted, reads_members_iff (chars_name_iff hname) hvalue]
  simp [skip_cons (show Json.isSpace '}' = false by decide), eq_comm, and_comm]

end

/-- The characters of a line behind its first. -/
def membersText (clock : Clock) (n : Note) (text : List Char) : List Char :=
  member "ts" (digits clock.millis ++ ',' ::
    member "level" (quoted (letters n.level.name) (',' ::
      member "module" (quoted (letters n.module) (',' ::
        member "msg" (quoted text ['}']))))))

/-- What a line says. -/
def members (clock : Clock) (n : Note) (text : List Char) : List (List Char × Value) :=
  [("ts".toList, .number clock.millis 0), ("level".toList, .string (letters n.level.name)),
    ("module".toList, .string (letters n.module)), ("msg".toList, .string text)]

theorem plain_levelName (l : Level) : Plain l.name := by
  have hall : ∀ x ∈ Level.names, Plain x.2.1 := by decide
  rw [Level.name]
  cases hname : Level.names.lookup l with
  | none => exact (by decide : Plain ("???" : Bytes))
  | some x =>
    obtain ⟨l₁, l₂, hl, -⟩ := List.lookup_eq_some_iff.mp hname
    exact hall (l, x) (by rw [hl]; simp)

variable {clock : Clock} {n : Note}

theorem json_eq_utf8 (hmodule : Plain n.module) (hmessage : n.message = utf8 text) :
    n.json clock = utf8 ('{' :: membersText clock n text) := by
  have hnames : Plain "ts" ∧ Plain "level" ∧ Plain "module" ∧ Plain "msg" := by decide
  obtain ⟨hts, hlevel, hname, hmsg⟩ := hnames
  rw [json, membersText]
  simp only [member, Bytes.utf8_cons, Bytes.utf8_append, Bytes.utf8_nil, utf8_digits,
    hts.utf8_quoted, hlevel.utf8_quoted, hname.utf8_quoted, hmsg.utf8_quoted,
    (plain_levelName n.level).utf8_quoted, hmodule.utf8_quoted, utf8_quoted, ← hmessage,
    List.append_assoc]
  rfl

theorem skip_quoted (text rest : List Char) : skip (quoted text rest) = quoted text rest :=
  skip_cons (by decide)

theorem reads_plain_iff {word : Bytes} (h : Plain word) (v : Value) (rest : List Char) :
    Reads (.value v) (skip (quoted (letters word) cs)) rest ↔ v = .string (letters word) ∧
      rest = cs := by
  rw [skip_quoted, reads_quoted_iff, and_iff_right h.escapable]

theorem reads_membersText_iff (hmodule : Plain n.module) {ms : List (List Char × Value)} :
    Reads (.members ms) (membersText clock n text) rest ↔
      (∀ c ∈ text, Escapable c) ∧ ms = members clock n text ∧ rest = [] := by
  have hnames : Plain "ts" ∧ Plain "level" ∧ Plain "module" ∧ Plain "msg" := by decide
  obtain ⟨hts, hlevel, hname, hmsg⟩ := hnames
  have hmessage (v : Value) (r : List Char) : Reads (.value v) (skip (quoted text ['}'])) r ↔
      (∀ c ∈ text, Escapable c) ∧ v = .string text ∧ r = ['}'] := by
    rw [skip_quoted, reads_quoted_iff]
  rw [membersText, reads_member_comma_iff hts fun v r => reads_digits_iff]
  simp only [reads_member_comma_iff hlevel (reads_plain_iff (plain_levelName n.level)),
    reads_member_comma_iff hname (reads_plain_iff hmodule), reads_member_close_iff hmsg hmessage]
  constructor
  · rintro ⟨_, ⟨_, ⟨_, ⟨hall, rfl, rfl⟩, rfl⟩, rfl⟩, rfl⟩
    exact ⟨hall, rfl, rfl⟩
  · rintro ⟨hall, rfl, rfl⟩
    exact ⟨_, ⟨_, ⟨_, ⟨hall, rfl, rfl⟩, rfl⟩, rfl⟩, rfl⟩

/-- The characters of a line are read in one way, or in none if there is one that a line cannot
hold. -/
theorem text_line_iff (hmodule : Plain n.module) : Text ('{' :: membersText clock n text) v ↔
    (∀ c ∈ text, Escapable c) ∧ v = .object (members clock n text) := by
  have hend (rest : List Char) : skip (membersText clock n text) ≠ '}' :: rest := by
    rw [membersText, member, skip_quoted, quoted]
    simp
  rw [Text, skip_cons (by decide)]
  simp only [reads_object_iff hend, reads_membersText_iff hmodule]
  constructor
  · rintro ⟨_, ⟨_, ⟨hall, rfl, rfl⟩, rfl⟩, -⟩
    exact ⟨hall, rfl⟩
  · rintro ⟨hall, rfl⟩
    exact ⟨_, ⟨_, ⟨hall, rfl, rfl⟩, rfl⟩, rfl⟩

theorem denotes_json_iff (hmodule : Plain n.module) (hmessage : n.message = utf8 text) :
    Json.Denotes (n.json clock) v ↔
      (∀ c ∈ text, Escapable c) ∧ v = .object (members clock n text) := by
  rw [← text_line_iff hmodule, json_eq_utf8 hmodule hmessage]
  constructor
  · rintro ⟨text', hsame, h⟩
    rwa [Bytes.utf8_injective hsame]
  · exact fun h => ⟨_, rfl, h⟩

/-! ## Ends of lines -/

def OneLine (bs : Bytes) : Prop := ∀ b ∈ bs, b ≠ char '\n' ∧ b ≠ char '\r'

instance (bs : Bytes) : Decidable (OneLine bs) := List.decidableBAll _ bs

theorem OneLine.append {bs bs' : Bytes} (h : OneLine bs) (h' : OneLine bs') : OneLine (bs ++ bs') :=
  List.forall_mem_append.mpr ⟨h, h'⟩

theorem Plain.oneLine {word : Bytes} (h : Plain word) : OneLine word := by
  intro b hb
  have hle := (h b hb).1
  constructor
  · rintro rfl
    exact absurd hle (by decide)
  · rintro rfl
    exact absurd hle (by decide)

theorem oneLine_escape (b : UInt8) : OneLine (escape b) := by
  rw [escape]
  split
  · decide
  · split
    · decide
    · split
      · decide
      · rename_i hn
        split
        · decide
        · rename_i hr
          split
          · decide
          · exact List.forall_mem_singleton.mpr ⟨hn, hr⟩

theorem oneLine_decimal (k : Nat) : OneLine (Bytes.decimal k) := by
  intro b hb
  obtain ⟨c, hc, rfl⟩ := List.mem_map.mp hb
  have hdigit := isDigit_of_mem_toDigits hc
  have hne {d : Char} (hd : d.toNat ≤ 127) (hnot : d.isDigit = false) : char c ≠ char d := by
    intro heq
    rw [Bytes.char_injOn (toNat_le_of_isDigit hdigit) hd heq, hnot] at hdigit
    cases hdigit
  exact ⟨hne (by decide) (by decide), hne (by decide) (by decide)⟩

theorem oneLine_decimalInt (k : Int) : OneLine (Bytes.decimalInt k) := by
  rw [Bytes.decimalInt]
  split
  · exact List.forall_mem_cons.mpr ⟨by decide, oneLine_decimal _⟩
  · exact oneLine_decimal _

theorem oneLine_json (hmodule : Plain n.module) (clock : Clock) : OneLine (n.json clock) := by
  have hmessage : OneLine (n.message.flatMap escape) := by
    intro x hx
    obtain ⟨b, -, hx⟩ := List.mem_flatMap.mp hx
    exact oneLine_escape b x hx
  have hpieces : OneLine "\x7b\"ts\":" ∧ OneLine ",\"level\":\"" ∧ OneLine "\",\"module\":\"" ∧
      OneLine "\",\"msg\":\"" ∧ OneLine "\"\x7d" := by decide
  obtain ⟨hts, hlevel, hname, hmsg, hend⟩ := hpieces
  exact (((((((hts.append (oneLine_decimalInt clock.millis)).append hlevel).append
    (plain_levelName n.level).oneLine).append hname).append hmodule.oneLine).append hmsg).append
    hmessage).append hend

/-- The documented components. -/
def components : List Bytes :=
  [Module.codec, Module.archive, Module.cache, Module.fix, Module.pipeline, "cli"]

theorem plain_of_mem_components : ∀ name ∈ components, Plain name := by decide

/-- A record is written on a line of its own. As JSON the line is one object, which gives back the
time, the level, the component and all of the message, provided that the message has no control
character that no letter stands for. If it has one, the line is not JSON. -/
theorem json_reads_back (hmodule : n.module ∈ components) (hmessage : n.message = utf8 text)
    (clock : Clock) : OneLine (n.json clock) ∧ ∀ v, Json.Denotes (n.json clock) v ↔
      (∀ c ∈ text, Escapable c) ∧ v = .object (members clock n text) :=
  ⟨oneLine_json (plain_of_mem_components _ hmodule) clock,
    fun _ => denotes_json_iff (plain_of_mem_components _ hmodule) hmessage⟩

/-- A message with all that is escaped, and with a character beyond ASCII. -/
def quoting : List Char := ['"', '\\', '\n', '\r', '\t', 'ü']

theorem json_reads_back_quoting : Json.Denotes
    (json { timeOfDay := [], millis := -70 }
      { level := .warn, module := "cli", message := utf8 quoting })
    (.object [("ts".toList, .number (-70) 0), ("level".toList, .string "WARN".toList),
      ("module".toList, .string "cli".toList), ("msg".toList, .string quoting)]) := by
  have hmodule : ("cli" : Bytes) ∈ components := by decide
  have hback := json_reads_back (n := { level := .warn, module := "cli", message := utf8 quoting })
    hmodule rfl { timeOfDay := [], millis := -70 }
  have hall : ∀ c ∈ quoting, Escapable c := by
    simp only [quoting, List.forall_mem_cons]
    exact ⟨by decide, by decide, by decide, by decide, by decide, by decide, by simp⟩
  exact (hback.2 _).mpr ⟨hall, rfl⟩

/-- The character with the number 1 is written as it is. -/
theorem json_not_read_back :
    ∃ (n : Note) (clock : Clock) (text : List Char), n.module ∈ components ∧
    n.message = utf8 text ∧ ¬ ∃ v, Json.Denotes (n.json clock) v := by
  refine ⟨{ level := .info, module := Module.codec, message := utf8 ['\x01'] },
    { timeOfDay := [], millis := 0 }, ['\x01'], by decide, rfl, ?_⟩
  rintro ⟨v, hv⟩
  have hmessage : utf8 ['\x01'] = utf8 ['\x01'] := rfl
  obtain ⟨hall, -⟩ := (denotes_json_iff (by decide) hmessage).mp hv
  exact absurd (hall '\x01' (by simp)) (by decide)

end Log.Note

end JarRepair
