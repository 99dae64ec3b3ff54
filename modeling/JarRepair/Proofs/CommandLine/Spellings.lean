import JarRepair.CommandLine.Arguments
import JarRepair.Proofs.Bytes
import JarRepair.Proofs.Outcome

/-! # Spellings of a command line

A command line is a sequence of options and logging flags, where an option is spelled in one
argument or in two. Such lines are described here without a reader. Only they are read successfully,
and an argument means the same in each of them unless it is the value of the argument before, which
may look like anything. -/

namespace JarRepair.CommandLine

open Bytes (char)

abbrev IsFlag (argument : Bytes) : Prop := (Log.Flag.ofArgument? argument).isSome = true

/-- An option in one argument. -/
def joined (key : Key) (value : Bytes) : Bytes := key.name ++ char '=' :: value

/-- The two spellings of an option. -/
inductive Spells (key : Key) (value : Bytes) : List Bytes → Prop where
  | joined : Spells key value [joined key value]
  | apart : Spells key value [key.name, value]

/-- A command line with its options in order. Logging flags may stand in between. -/
inductive Line : List Bytes → List (Key × Bytes) → Prop where
  | nil : Line [] []
  | flag {argument : Bytes} {rest : List Bytes} {options : List (Key × Bytes)}
      (flag : IsFlag argument) : Line rest options → Line (argument :: rest) options
  | option {key : Key} {value : Bytes} {spelling rest : List Bytes} {options : List (Key × Bytes)}
      (spells : Spells key value spelling) (nonempty : value ≠ []) :
      Line rest options → Line (spelling ++ rest) ((key, value) :: options)

/-- The argument that comes next is the value of the last one here. -/
def AwaitsValue (arguments : List Bytes) : Prop :=
  ∃ before options key, Line before options ∧ arguments = before ++ [Key.name key]

variable {argument value : Bytes} {key : Key} {rest spelling : List Bytes} {g : Given}

/-! ## One argument -/

theorem not_isFlag_name (key : Key) : ¬ IsFlag key.name := by
  cases key <;> decide

theorem not_isFlag_joined (key : Key) (value : Bytes) : ¬ IsFlag (joined key value) := by
  cases key <;> exact Bool.false_ne_true

theorem ofName?_name (key : Key) : Key.ofName? key.name = some key := by
  cases key <;> decide

theorem name_of_ofName? {name : Bytes} (h : Key.ofName? name = some key) : name = key.name := by
  rw [Key.ofName?] at h
  have hfound := List.find?_some h
  exact (beq_iff_eq.mp hfound).symm

theorem splitValue_name (key : Key) : splitValue key.name = (key.name, none) := by
  cases key <;> decide

theorem splitValue_joined (key : Key) (value : Bytes) :
    splitValue (joined key value) = (key.name, some value) := by
  have hplain : char '=' ∉ key.name := by cases key <;> decide
  have hdashes : ((joined key value).dropStart? "--").isSome = true := by cases key <;> rfl
  rw [splitValue, if_pos hdashes, joined, Bytes.cut?_eq_some_iff.mpr ⟨hplain, rfl⟩]

theorem splitValue_cases (argument : Bytes) : splitValue argument = (argument, none) ∨
    ∃ name value, splitValue argument = (name, some value) ∧
    argument = name ++ char '=' :: value := by
  rw [splitValue]
  split
  · split
    · rename_i name value hcut
      exact .inr ⟨name, value, rfl, (Bytes.cut?_eq_some_iff.mp hcut).2⟩
    · exact .inl rfl
  · exact .inl rfl

theorem read_flag (h : IsFlag argument) : read (argument :: rest) g = read rest g := by
  rw [read, if_pos h]

theorem read_joined : read (joined key value :: rest) g =
    if value = [] then .error (.emptyValue key) else read rest (g.set value key) := by
  rw [read, if_neg (not_isFlag_joined key value), splitValue_joined]
  simp only [ofName?_name]

theorem read_apart : read (key.name :: value :: rest) g =
    if value = [] then .error (.emptyValue key) else read rest (g.set value key) := by
  rw [read, if_neg (not_isFlag_name key), splitValue_name]
  simp only [ofName?_name]

theorem read_name : read [key.name] g = .error (.missingValue key) := by
  rw [read, if_neg (not_isFlag_name key), splitValue_name]
  simp only [ofName?_name]

theorem Spells.read_append (h : Spells key value spelling) : read (spelling ++ rest) g =
    if value = [] then .error (.emptyValue key) else read rest (g.set value key) := by
  cases h with
  | joined => exact read_joined
  | apart => exact read_apart

/-- An argument is a logging flag, an option with its value or without, or reading ends with it. -/
theorem argument_cases (argument : Bytes) :
    IsFlag argument ∨ (∃ key value, argument = joined key value) ∨
      (∃ key, argument = Key.name key) ∨
      ∀ rest g, read (argument :: rest) g = .error (.unknown argument) := by
  by_cases hflag : IsFlag argument
  · exact .inl hflag
  · refine .inr ?_
    obtain hsplit | ⟨name, value, hsplit, rfl⟩ := splitValue_cases argument
    · cases hkey : Key.ofName? argument with
      | some key => exact .inr (.inl ⟨key, name_of_ofName? hkey⟩)
      | none =>
        refine .inr (.inr fun rest g => ?_)
        rw [read, if_neg hflag, hsplit]
        simp only [hkey]
    · cases hkey : Key.ofName? name with
      | some key =>
        obtain rfl := name_of_ofName? hkey
        exact .inl ⟨key, value, rfl⟩
      | none =>
        refine .inr (.inr fun rest g => ?_)
        rw [read, if_neg hflag, hsplit]
        simp only [hkey]

/-! ## A line from its front -/

/-- What is in front of more arguments: a line, one that lacks its last value, or one that reading
does not get past. -/
inductive Front (before : List Bytes) : Prop where
  | line {options : List (Key × Bytes)} (line : Line before options)
  | awaits (awaits : AwaitsValue before)
  | stops (fault : Fault) (stops : ∀ after g, read (before ++ after) g = .error fault)

/-- A piece that can stand in front of a line, and that reading gets past, does not change what
comes behind. -/
theorem Front.prepend {piece before : List Bytes}
    (hline : ∀ {rest options}, Line rest options → ∃ options', Line (piece ++ rest) options')
    (hread : ∀ rest g, ∃ g', read (piece ++ rest) g = read rest g') (h : Front before) :
    Front (piece ++ before) := by
  cases h with
  | line line => exact .line (hline line).choose_spec
  | awaits awaits =>
    obtain ⟨first, options, key, line, rfl⟩ := awaits
    obtain ⟨options', line'⟩ := hline line
    exact .awaits ⟨piece ++ first, options', key, line', by rw [List.append_assoc]⟩
  | stops fault stops =>
    refine .stops fault fun after g => ?_
    obtain ⟨g', hg'⟩ := hread (before ++ after) g
    rw [List.append_assoc, hg']
    exact stops after g'

theorem Front.option {before : List Bytes} (hspells : Spells key value spelling)
    (h : Front before) :
    Front (spelling ++ before) := by
  by_cases hvalue : value = []
  · refine .stops (.emptyValue key) fun after g => ?_
    rw [List.append_assoc, hspells.read_append, if_pos hvalue]
  · refine h.prepend (fun line => ⟨_, .option hspells hvalue line⟩) fun rest g =>
      ⟨g.set value key, ?_⟩
    rw [hspells.read_append, if_neg hvalue]

theorem front : (before : List Bytes) → Front before
  | [] => .line .nil
  | argument :: rest => by
    obtain hflag | ⟨key, value, rfl⟩ | ⟨key, rfl⟩ | hunknown := argument_cases argument
    · exact show Front ([argument] ++ rest) from
        (front rest).prepend (fun line => ⟨_, .flag hflag line⟩) fun _ _ => ⟨_, read_flag hflag⟩
    · exact (front rest).option .joined
    · cases rest with
      | nil => exact .awaits ⟨[], [], key, .nil, rfl⟩
      | cons value rest => exact (front rest).option .apart
    · exact .stops (.unknown argument) fun after g => hunknown (rest ++ after) g

/-! ## The values of the options -/

def Given.get (g : Given) : Key → Option Bytes
  | .input => g.input
  | .fallback => g.fallback
  | .output => g.output

/-- The value of the last option with the key. -/
def lastValue (options : List (Key × Bytes)) (key : Key) : Option Bytes :=
  options.reverse.lookup key

/-- What options add to the values given before. -/
def Given.setAll (g : Given) (options : List (Key × Bytes)) : Given :=
  options.foldl (fun g option => g.set option.2 option.1) g

theorem Given.get_set (g : Given) (value : Bytes) (key key' : Key) :
    (g.set value key).get key' = if key' = key then some value else g.get key' := by
  cases key <;> cases key' <;> rfl

theorem Given.set_comm (g : Given) {key key' : Key} (h : key ≠ key') (value value' : Bytes) :
    (g.set value key).set value' key' = (g.set value' key').set value key := by
  cases key <;> cases key' <;> first | rfl | exact absurd rfl h

theorem Given.get_setAll (g : Given) (options : List (Key × Bytes)) (key : Key) :
    (g.setAll options).get key = (lastValue options key).or (g.get key) := by
  induction options generalizing g with
  | nil => rfl
  | cons option options ih =>
    obtain ⟨key', value⟩ := option
    rw [setAll, List.foldl_cons, ← setAll, ih, get_set, lastValue, lastValue, List.reverse_cons,
      List.lookup_append, Option.or_assoc]
    by_cases hkey : key = key'
    · simp [hkey]
    · have hne : (key == key') = false := beq_eq_false_iff_ne.mpr hkey
      simp [List.lookup_cons, hkey, hne]

theorem Line.read_append {line : List Bytes} {options : List (Key × Bytes)} (h : Line line options)
    (after : List Bytes) (g : Given) : read (line ++ after) g = read after (g.setAll options) := by
  induction h generalizing g with
  | nil => rfl
  | flag hflag _ ih => rw [List.cons_append, read_flag hflag, ih]
  | option hspells hvalue _ ih =>
    rw [List.append_assoc, hspells.read_append, if_neg hvalue, ih]
    rfl

theorem Line.read_eq {line : List Bytes} {options : List (Key × Bytes)} (h : Line line options)
    (g : Given) :
    read line g = .ok (g.setAll options) := by
  rw [← List.append_nil line, h.read_append, read]

theorem AwaitsValue.exists_read_eq_error {arguments : List Bytes} (h : AwaitsValue arguments)
    (g : Given) :
    ∃ fault, read arguments g = .error fault := by
  obtain ⟨before, options, key, line, rfl⟩ := h
  exact ⟨.missingValue key, by rw [line.read_append, read_name]⟩

/-- Reading succeeds exactly on lines, and gives the values of their options. -/
theorem read_eq_ok_iff {arguments : List Bytes} {g g' : Given} :
    read arguments g = .ok g' ↔ ∃ options, Line arguments options ∧ g.setAll options = g' := by
  constructor
  · intro h
    cases front arguments with
    | @line options line => exact ⟨options, line, Except.ok.inj ((line.read_eq g).symm.trans h)⟩
    | awaits awaits =>
      obtain ⟨fault, hfault⟩ := awaits.exists_read_eq_error g
      cases hfault.symm.trans h
    | stops fault stops =>
      have hfault := stops [] g
      rw [List.append_nil] at hfault
      cases hfault.symm.trans h
  · rintro ⟨options, line, rfl⟩
    exact line.read_eq g

theorem Given.options_eq_ok_iff {g : Given} {o : Repair.Options} : g.options = .ok o ↔
    g.get .input = some o.input ∧ g.get .output = some o.output ∧ g.get .fallback = o.fallback := by
  obtain ⟨input, fallback, output⟩ := g
  obtain ⟨i, f, u⟩ := o
  cases input with
  | none => simp [options, get]
  | some input =>
    cases output with
    | none => simp [options, get]
    | some output =>
      simp only [options, get, Except.ok.injEq, Repair.Options.mk.injEq, Option.some.injEq,
        @and_comm (fallback = f)]

/-! ## Lines that mean the same -/

/-- Reading goes the same way behind a line, and does not get to what is behind other arguments. -/
theorem parse_congr {before after after' : List Bytes} (hbefore : ¬ AwaitsValue before)
    (h : ∀ g, read after g = read after' g) :
    parse (before ++ after) = parse (before ++ after') := by
  rw [parse, parse]
  cases front before with
  | line line => rw [line.read_append, line.read_append, h]
  | awaits awaits => exact absurd awaits hbefore
  | stops fault stops => rw [stops, stops]

/-- A successful result comes from behind a line. -/
theorem parse_ok_congr {before after after' : List Bytes} {o : Repair.Options}
    (hbefore : ¬ AwaitsValue before)
    (h : ∀ g g', read after g = .ok g' → read after' g = .ok g')
    (hok : parse (before ++ after) = .ok o) :
    parse (before ++ after') = .ok o := by
  rw [parse, Outcome.bind_eq_ok_iff] at hok ⊢
  obtain ⟨g, hread, hoptions⟩ := hok
  refine ⟨g, ?_, hoptions⟩
  cases front before with
  | line line =>
    rw [line.read_append] at hread ⊢
    exact h _ _ hread
  | awaits awaits => exact absurd awaits hbefore
  | stops fault stops =>
    rw [stops] at hread
    cases hread

theorem parse_eq_ok_iff {arguments : List Bytes} {o : Repair.Options} : parse arguments = .ok o ↔
    ∃ options, Line arguments options ∧ lastValue options .input = some o.input ∧
      lastValue options .output = some o.output ∧ lastValue options .fallback = o.fallback := by
  rw [parse, Outcome.bind_eq_ok_iff]
  have hget (options : List (Key × Bytes)) (key : Key) :
      (Given.setAll {} options).get key = lastValue options key := by
    rw [Given.get_setAll]
    cases key <;> exact Option.or_none
  constructor
  · rintro ⟨g, hread, hoptions⟩
    obtain ⟨options, line, rfl⟩ := read_eq_ok_iff.mp hread
    rw [Given.options_eq_ok_iff, hget, hget, hget] at hoptions
    exact ⟨options, line, hoptions⟩
  · rintro ⟨options, line, hoptions⟩
    refine ⟨_, line.read_eq {}, ?_⟩
    rw [Given.options_eq_ok_iff, hget, hget, hget]
    exact hoptions

theorem read_swap {key key' : Key} {value value' : Bytes} {spelling spelling' : List Bytes}
    (hspells : Spells key value spelling) (hspells' : Spells key' value' spelling')
    (hkey : key ≠ key') (rest : List Bytes) {g g' : Given}
    (h : read (spelling ++ (spelling' ++ rest)) g = .ok g') :
    read (spelling' ++ (spelling ++ rest)) g = .ok g' := by
  rw [hspells.read_append] at h
  split at h
  · cases h
  · rename_i hvalue
    rw [hspells'.read_append] at h
    split at h
    · cases h
    · rename_i hvalue'
      rw [hspells'.read_append, if_neg hvalue', hspells.read_append, if_neg hvalue,
        ← g.set_comm hkey]
      exact h

/-- An option means the same in both spellings, wherever it is read as an option. A logging flag
means nothing anywhere but as a value. Neighbouring options for different keys may trade places in a
command line that is accepted, and each key has the value of its last option in it. -/
theorem parse_respelled :
    (∀ before key value after, ¬ AwaitsValue before →
        parse (before ++ joined key value :: after) = parse
          (before ++ key.name :: value :: after)) ∧
      (∀ before flag after, IsFlag flag → ¬ AwaitsValue before →
        parse (before ++ flag :: after) = parse (before ++ after)) ∧
      (∀ before key value spelling key' value' spelling' after o, ¬ AwaitsValue before →
        Spells key value spelling → Spells key' value' spelling' → key ≠ key' →
        parse (before ++ (spelling ++ (spelling' ++ after))) = .ok o →
          parse (before ++ (spelling' ++ (spelling ++ after))) = .ok o) ∧
      ∀ arguments o, parse arguments = .ok o ↔
        ∃ options, Line arguments options ∧ lastValue options .input = some o.input ∧
          lastValue options .output = some o.output ∧ lastValue options .fallback = o.fallback := by
  refine ⟨?_, ?_, ?_, fun _ _ => parse_eq_ok_iff⟩
  · intro before key value after hbefore
    exact parse_congr hbefore fun g => by rw [read_joined, read_apart]
  · intro before flag after hflag hbefore
    exact parse_congr hbefore fun g => read_flag hflag
  · intro before key value spelling key' value' spelling' after o hbefore hspells hspells' hkey
    exact parse_ok_congr hbefore fun _ _ => read_swap hspells hspells' hkey after

/-- A line that ends with a value, though it looks like an option. -/
def dashed : List Bytes := ["-v", "--input", "--output"]

def ending : List Bytes := ["--output=x"]

theorem not_awaitsValue_dashed : ¬ AwaitsValue dashed := by
  intro h
  obtain ⟨fault, hfault⟩ := h.exists_read_eq_error {}
  have hread : read dashed {} = .ok { input := some (Bytes.ascii "--output") } := rfl
  cases hread.symm.trans hfault

theorem parse_respelled_dashed : ¬ AwaitsValue dashed ∧ IsFlag "-q" ∧
    parse (dashed ++ joined .fallback "a=b" :: ending) =
      parse (dashed ++ Key.name .fallback :: Bytes.ascii "a=b" :: ending) ∧
    parse (dashed ++ Bytes.ascii "-q" :: ending) = parse (dashed ++ ending) ∧
    parse (dashed ++ ([Key.name .fallback, Bytes.ascii "-v"] ++ (ending ++ []))) =
      .ok { input := "--output", fallback := some (Bytes.ascii "-v"), output := "x" } := by
  have hbefore := not_awaitsValue_dashed
  have hflag : IsFlag "-q" := by decide
  obtain ⟨hjoined, hskip, hswap, -⟩ := parse_respelled
  refine ⟨hbefore, hflag, hjoined dashed .fallback "a=b" ending hbefore,
    hskip dashed "-q" ending hflag hbefore, ?_⟩
  exact hswap dashed .output "x" [joined .output "x"] .fallback "-v" [Key.name .fallback, "-v"]
    [] _ hbefore .joined .apart (by decide) rfl

end JarRepair.CommandLine
