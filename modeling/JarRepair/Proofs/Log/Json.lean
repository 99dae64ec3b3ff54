import Mathlib.Data.List.Basic
import JarRepair.Bytes

/-! # JSON texts

The grammar of RFC 8259, with the value that a text stands for. What reads one item from the front
of a text relates it to the item and to the text behind it. -/

namespace JarRepair.Json

inductive Value where
  | null
  | bool (b : Bool)
  /-- The number `mantissa * 10 ^ exponent`. -/
  | number (mantissa exponent : Int)
  | string (s : List Char)
  | array (elements : List Value)
  | object (members : List (List Char × Value))

def isSpace (c : Char) : Bool := c == ' ' || c == '\t' || c == '\n' || c == '\r'

def skip (cs : List Char) : List Char := cs.dropWhile isSpace

/-! ## Strings -/

/-- The characters that stand for others behind a backslash. -/
def shortEscapes : List (Char × Char) := [
  ('"', '"'), ('\\', '\\'), ('/', '/'), ('b', '\x08'), ('f', '\x0c'), ('n', '\n'), ('r', '\r'),
  ('t', '\t')]

def hexDigit? (c : Char) : Option Nat :=
  if '0' ≤ c ∧ c ≤ '9' then some (c.toNat - '0'.toNat)
  else if 'a' ≤ c ∧ c ≤ 'f' then some (c.toNat - 'a'.toNat + 10)
  else if 'A' ≤ c ∧ c ≤ 'F' then some (c.toNat - 'A'.toNat + 10)
  else none

/-- The number that four hexadecimal digits give. -/
def unit? : List Char → Option (Nat × List Char)
  | a :: b :: c :: d :: cs => do
    let digits ← [a, b, c, d].mapM hexDigit?
    return (digits.foldl (fun n digit => 16 * n + digit) 0, cs)
  | _ => none

/-- Characters outside of the basic plane are given by two surrogates. One alone stands for none. -/
def unicode? (cs : List Char) : Option (Char × List Char) := do
  let (high, cs) ← unit? cs
  if 0xD800 ≤ high ∧ high < 0xDC00 then
    match cs with
    | '\\' :: 'u' :: cs =>
      let (low, cs) ← unit? cs
      if 0xDC00 ≤ low ∧ low < 0xE000 then
        return (Char.ofNat (0x10000 + 0x400 * (high - 0xD800) + (low - 0xDC00)), cs)
      else none
    | _ => none
  else if 0xDC00 ≤ high ∧ high < 0xE000 then none
  else return (Char.ofNat high, cs)

/-- What stands behind a backslash. -/
def escaped? : List Char → Option (Char × List Char)
  | [] => none
  | e :: cs => if e = 'u' then unicode? cs else (shortEscapes.lookup e).map fun c => (c, cs)

/-- The rest of a string up to its closing quote, and what is behind it. -/
inductive Chars : (s text rest : List Char) → Prop
  | close (rest : List Char) : Chars [] ('"' :: rest) rest
  | plain {c : Char} {s text rest : List Char} (hcontrol : ' ' ≤ c) (hquote : c ≠ '"')
    (hbackslash : c ≠ '\\') (h : Chars s text rest) : Chars (c :: s) (c :: text) rest
  | escape {c : Char} {s text text' rest : List Char} (hescape : escaped? text = some (c, text'))
    (h : Chars s text' rest) : Chars (c :: s) ('\\' :: text) rest

/-! ## Numbers -/

/-- All digits at the front, of which there is one at least. -/
def digits? (cs : List Char) : Option (List Char × List Char) :=
  if cs.takeWhile Char.isDigit = [] then none
  else some (cs.takeWhile Char.isDigit, cs.dropWhile Char.isDigit)

def fraction? : List Char → Option (List Char × List Char)
  | '.' :: cs => digits? cs
  | cs => some ([], cs)

def exponent? : List Char → Option (Int × List Char)
  | e :: cs =>
    if e = 'e' ∨ e = 'E' then
      match cs with
      | '-' :: cs => (digits? cs).map fun (ds, cs) => (-Nat.ofDigitChars 10 ds 0, cs)
      | '+' :: cs => (digits? cs).map fun (ds, cs) => (Nat.ofDigitChars 10 ds 0, cs)
      | cs => (digits? cs).map fun (ds, cs) => (Nat.ofDigitChars 10 ds 0, cs)
    else some (0, e :: cs)
  | [] => some (0, [])

/-- A number without its sign. Its whole part has no superfluous zero. -/
def magnitude? (cs : List Char) : Option (Nat × Int × List Char) := do
  let (whole, cs) ← digits? cs
  if 1 < whole.length ∧ whole.head? = some '0' then none
  else
    let (fraction, cs) ← fraction? cs
    let (exponent, cs) ← exponent? cs
    return (Nat.ofDigitChars 10 (whole ++ fraction) 0, exponent - fraction.length, cs)

def number? : List Char → Option (Int × Int × List Char)
  | '-' :: cs => (magnitude? cs).map fun (n, e, cs) => (-n, e, cs)
  | cs => (magnitude? cs).map fun (n, e, cs) => (n, e, cs)

/-! ## Values -/

inductive Item where
  | value (v : Value)
  /-- The elements of an array and its end. -/
  | elements (vs : List Value)
  /-- The members of an object and its end. -/
  | members (ms : List (List Char × Value))

inductive Reads : Item → (text rest : List Char) → Prop
  | null (rest : List Char) : Reads (.value .null) ('n' :: 'u' :: 'l' :: 'l' :: rest) rest
  | true (rest : List Char) : Reads (.value (.bool true)) ('t' :: 'r' :: 'u' :: 'e' :: rest) rest
  | false (rest : List Char) : Reads (.value (.bool false))
      ('f' :: 'a' :: 'l' :: 's' :: 'e' :: rest) rest
  | number {text rest : List Char} {mantissa exponent : Int}
    (h : number? text = some (mantissa, exponent, rest)) :
    Reads (.value (.number mantissa exponent)) text rest
  | string {s text rest : List Char} (h : Chars s text rest) : Reads (.value (.string s))
      ('"' :: text) rest
  | emptyArray {text rest : List Char} (hend : skip text = ']' :: rest) :
    Reads (.value (.array [])) ('[' :: text) rest
  | array {vs : List Value} {text rest : List Char} (h : Reads (.elements vs) text rest) :
    Reads (.value (.array vs)) ('[' :: text) rest
  | emptyObject {text rest : List Char} (hend : skip text = '}' :: rest) :
    Reads (.value (.object [])) ('{' :: text) rest
  | object {ms : List (List Char × Value)} {text rest : List Char}
      (h : Reads (.members ms) text rest) :
    Reads (.value (.object ms)) ('{' :: text) rest
  | lastElement {v : Value} {text text₁ rest : List Char} (h : Reads (.value v) (skip text) text₁)
    (hend : skip text₁ = ']' :: rest) : Reads (.elements [v]) text rest
  | element {v : Value} {vs : List Value} {text text₁ text₂ rest : List Char}
    (h : Reads (.value v) (skip text) text₁) (hcomma : skip text₁ = ',' :: text₂)
    (hrest : Reads (.elements vs) text₂ rest) : Reads (.elements (v :: vs)) text rest
  | lastMember {name : List Char} {v : Value} {text text₁ text₂ text₃ text₄ rest : List Char}
    (hquote : skip text = '"' :: text₁) (hname : Chars name text₁ text₂)
    (hcolon : skip text₂ = ':' :: text₃)
    (h : Reads (.value v) (skip text₃) text₄) (hend : skip text₄ = '}' :: rest) :
    Reads (.members [(name, v)]) text rest
  | member {name : List Char} {v : Value} {ms : List (List Char × Value)}
    {text text₁ text₂ text₃ text₄ text₅ rest : List Char}
    (hquote : skip text = '"' :: text₁) (hname : Chars name text₁ text₂)
      (hcolon : skip text₂ = ':' :: text₃)
    (h : Reads (.value v) (skip text₃) text₄) (hcomma : skip text₄ = ',' :: text₅)
    (hrest : Reads (.members ms) text₅ rest) : Reads (.members ((name, v) :: ms)) text rest

/-- A text that is one value, with nothing but space around it. -/
def Text (text : List Char) (v : Value) : Prop :=
  ∃ rest, Reads (.value v) (skip text) rest ∧ skip rest = []

/-! ## Reading -/

variable {c : Char} {s name cs rest : List Char} {v : Value} {ms : List (List Char × Value)}

@[simp] theorem skip_nil : skip [] = [] := rfl

@[simp] theorem skip_cons (hc : isSpace c = false) : skip (c :: cs) = c :: cs :=
  List.dropWhile_cons_of_neg (by simp [hc])

theorem chars_close_iff : Chars s ('"' :: cs) rest ↔ s = [] ∧ rest = cs := by
  constructor
  · intro h
    cases h with
    | close => exact ⟨rfl, rfl⟩
    | plain _ hquote => exact absurd rfl hquote
  · rintro ⟨rfl, rfl⟩
    exact .close rest

theorem chars_plain_iff (hquote : c ≠ '"') (hbackslash : c ≠ '\\') :
    Chars s (c :: cs) rest ↔ ' ' ≤ c ∧ ∃ s', Chars s' cs rest ∧ s = c :: s' := by
  constructor
  · intro h
    cases h with
    | close => exact absurd rfl hquote
    | plain hcontrol _ _ h => exact ⟨hcontrol, _, h, rfl⟩
    | escape => exact absurd rfl hbackslash
  · rintro ⟨hcontrol, s', h, rfl⟩
    exact .plain hcontrol hquote hbackslash h

theorem chars_escape_iff (hescape : escaped? cs = some (c, rest)) {rest' : List Char} :
    Chars s ('\\' :: cs) rest' ↔ ∃ s', Chars s' rest rest' ∧ s = c :: s' := by
  constructor
  · intro h
    cases h with
    | plain _ _ hbackslash => exact absurd rfl hbackslash
    | escape hescape' h =>
      obtain ⟨rfl, rfl⟩ := Prod.mk.inj (Option.some.inj (hescape.symm.trans hescape'))
      exact ⟨_, h, rfl⟩
  · rintro ⟨s', h, rfl⟩
    exact .escape hescape h

theorem reads_string_iff :
    Reads (.value v) ('"' :: cs) rest ↔ ∃ s, Chars s cs rest ∧ v = .string s := by
  constructor
  · intro h
    cases h with
    | number h => simp [number?, magnitude?, digits?] at h
    | string h => exact ⟨_, h, rfl⟩
  · rintro ⟨s, h, rfl⟩
    exact .string h

theorem reads_number_iff (hc : c = '-' ∨ c.isDigit = true) : Reads (.value v) (c :: cs) rest ↔
    ∃ mantissa exponent, number? (c :: cs) = some (mantissa, exponent, rest) ∧
      v = .number mantissa exponent := by
  constructor
  · intro h
    cases h with
    | number h => exact ⟨_, _, h, rfl⟩
    | _ => simp at hc
  · rintro ⟨mantissa, exponent, h, rfl⟩
    exact .number h

theorem reads_object_iff (hend : ∀ rest, skip cs ≠ '}' :: rest) :
    Reads (.value v) ('{' :: cs) rest ↔ ∃ ms, Reads (.members ms) cs rest ∧ v = .object ms := by
  constructor
  · intro h
    cases h with
    | number h => simp [number?, magnitude?, digits?] at h
    | emptyObject h => exact absurd h (hend _)
    | object h => exact ⟨_, h, rfl⟩
  · rintro ⟨ms, h, rfl⟩
    exact .object h

/-- A member whose value is read in one way only. -/
theorem reads_members_iff {P : Prop} {value : Value} {text text' : List Char}
    (hname : ∀ s r, Chars s cs r ↔ s = name ∧ r = ':' :: text)
    (hvalue : ∀ v r, Reads (.value v) (skip text) r ↔ P ∧ v = value ∧ r = text') :
    Reads (.members ms) ('"' :: cs) rest ↔ P ∧ ((skip text' = '}' :: rest ∧ ms = [(name, value)]) ∨
      ∃ cs' ms', skip text' = ',' :: cs' ∧ Reads (.members ms') cs' rest ∧
      ms = (name, value) :: ms') := by
  have hmember {s text₁ text₂ text₃ text₄ : List Char} {v : Value}
      (hquote : skip ('"' :: cs) = '"' :: text₁)
      (hchars : Chars s text₁ text₂) (hcolon : skip text₂ = ':' :: text₃)
      (h : Reads (.value v) (skip text₃) text₄) : P ∧ s = name ∧ v = value ∧ text₄ = text' := by
    rw [skip_cons (by decide), List.cons.injEq] at hquote
    obtain ⟨-, rfl⟩ := hquote
    obtain ⟨rfl, rfl⟩ := (hname _ _).mp hchars
    rw [skip_cons (by decide), List.cons.injEq] at hcolon
    obtain ⟨-, rfl⟩ := hcolon
    obtain ⟨hP, rfl, rfl⟩ := (hvalue _ _).mp h
    exact ⟨hP, rfl, rfl, rfl⟩
  constructor
  · intro h
    cases h with
    | lastMember hquote hchars hcolon h hend =>
      obtain ⟨hP, rfl, rfl, rfl⟩ := hmember hquote hchars hcolon h
      exact ⟨hP, .inl ⟨hend, rfl⟩⟩
    | member hquote hchars hcolon h hcomma hrest =>
      obtain ⟨hP, rfl, rfl, rfl⟩ := hmember hquote hchars hcolon h
      exact ⟨hP, .inr ⟨_, _, hcomma, hrest, rfl⟩⟩
  · have hquote : skip ('"' :: cs) = '"' :: cs := skip_cons (by decide)
    have hcolon : skip (':' :: text) = ':' :: text := skip_cons (by decide)
    have hchars : Chars name cs (':' :: text) := (hname _ _).mpr ⟨rfl, rfl⟩
    rintro ⟨hP, ⟨hend, rfl⟩ | ⟨cs', ms', hcomma, hrest, rfl⟩⟩
    · exact .lastMember hquote hchars hcolon ((hvalue _ _).mpr ⟨hP, rfl, rfl⟩) hend
    · exact .member hquote hchars hcolon ((hvalue _ _).mpr ⟨hP, rfl, rfl⟩) hcomma hrest

end JarRepair.Json
