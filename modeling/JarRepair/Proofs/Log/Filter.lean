import Mathlib.Order.Defs.LinearOrder
import JarRepair.Log.Filter
import JarRepair.Proofs.Bytes

/-! # What a specification asks for

Each token of a specification is for one module or for all modules that have no level of their own.
Of the tokens that are for the same modules the last one counts. What a specification leaves open is
as it was, except that no module keeps a level of its own. -/

namespace JarRepair.Log

open Bytes (char)

/-- Levels in the order of their severity. -/
instance : LinearOrder Level where
  le_refl l := Int.le_refl l.severity
  le_trans _ _ _ h h' := Int.le_trans h h'
  le_antisymm := by
    rintro ⟨m⟩ ⟨n⟩ h h'
    exact congrArg Level.mk (Int.le_antisymm h h')
  le_total l l' := Int.le_total l.severity l'.severity
  lt_iff_le_not_ge _ _ := Int.lt_iff_le_and_not_ge
  toDecidableLE := inferInstance

namespace Filter

variable {f : Filter} {token module : Bytes} {l : Level}

/-! ## Tokens -/

/-- A token for a module: `module=level`, or the module alone, to log it in full. -/
inductive SetsModule (module : Bytes) : Bytes → Level → Prop where
  | level (word : Bytes) (plain : char '=' ∉ module) (named : module ≠ "*") :
      SetsModule module (module ++ char '=' :: word) (.ofName word)
  | alone (plain : char '=' ∉ module) (nonempty : module ≠ []) : SetsModule module module .trace

/-- A token for the modules without a level of their own: `*=level`. -/
inductive SetsDefault : Bytes → Level → Prop where
  | level (word : Bytes) : SetsDefault ("*=" ++ word) (.ofName word)

theorem setsDefault_iff : SetsDefault token l ↔
    ∃ word, token.cut? (char '=') = some (("*" : Bytes), word) ∧ l = .ofName word := by
  simp only [Bytes.cut?_eq_some_iff]
  constructor
  · rintro ⟨word⟩
    exact ⟨word, ⟨by decide, rfl⟩, rfl⟩
  · rintro ⟨word, ⟨-, rfl⟩, rfl⟩
    exact .level word

theorem setsModule_iff : SetsModule module token l ↔
    (∃ word, token.cut? (char '=') = some (module, word) ∧ module ≠ "*" ∧ l = .ofName word) ∨
      token.cut? (char '=') = none ∧ token = module ∧ token ≠ [] ∧ l = .trace := by
  simp only [Bytes.cut?_eq_some_iff, Bytes.cut?_eq_none_iff]
  constructor
  · rintro (⟨word, plain, named⟩ | ⟨plain, nonempty⟩)
    · exact .inl ⟨word, ⟨plain, rfl⟩, named, rfl⟩
    · exact .inr ⟨plain, rfl, nonempty, rfl⟩
  · rintro (⟨word, ⟨plain, rfl⟩, named, rfl⟩ | ⟨plain, rfl, nonempty, rfl⟩)
    · exact .level word plain named
    · exact .alone plain nonempty

theorem not_setsModule_of_cut? {name word : Bytes} (h : token.cut? (char '=') = some (name, word))
    (hne : name ≠ module) (l : Level) : ¬ SetsModule module token l := by
  rw [setsModule_iff, h]
  simp [hne]

theorem not_setsDefault_of_cut? {name word : Bytes} (h : token.cut? (char '=') = some (name, word))
    (hne : name ≠ "*") (l : Level) : ¬ SetsDefault token l := by
  rw [setsDefault_iff, h]
  simp [hne]

/-- A token is for all modules without a level, for one module, or for none, and sets one level. -/
theorem refine_cases (f : Filter) (token : Bytes) :
    (∃ l, (∀ l', SetsDefault token l' ↔ l' = l) ∧ (∀ module l', ¬ SetsModule module token l') ∧
        f.refine token = { f with defaultLevel := l }) ∨
      (∃ name l, (∀ l', ¬ SetsDefault token l') ∧
        (∀ module l', SetsModule module token l' ↔ name = module ∧ l' = l) ∧
        f.refine token = { f with modules := f.modules.insert name l }) ∨
      (∀ l', ¬ SetsDefault token l') ∧ (∀ module l', ¬ SetsModule module token l') ∧
        f.refine token = f := by
  simp only [setsDefault_iff, setsModule_iff, refine]
  cases hcut : token.cut? (char '=') with
  | some cut =>
    obtain ⟨name, word⟩ := cut
    by_cases hname : name = "*"
    · refine .inl ⟨.ofName word, by simp [hname], ?_, if_pos hname⟩
      simp only [Option.some.injEq, Prod.mk.injEq, reduceCtorEq, false_and, or_false]
      rintro module l' ⟨w, ⟨rfl, -⟩, hmodule, -⟩
      exact hmodule hname
    · refine .inr (.inl ⟨name, .ofName word, by simp [hname], ?_, if_neg hname⟩)
      simp only [Option.some.injEq, Prod.mk.injEq, reduceCtorEq, false_and, or_false]
      refine fun module l' => ⟨?_, ?_⟩
      · rintro ⟨_, ⟨rfl, rfl⟩, -, rfl⟩
        exact ⟨rfl, rfl⟩
      · rintro ⟨rfl, rfl⟩
        exact ⟨word, ⟨rfl, rfl⟩, hname, rfl⟩
  | none =>
    by_cases htoken : token = []
    · exact .inr (.inr ⟨by simp, by simp [htoken], if_pos htoken⟩)
    · exact .inr (.inl ⟨token, .trace, by simp, by simp [htoken], if_neg htoken⟩)

theorem defaultLevel_refine (f : Filter) (token : Bytes) (l : Level) :
    (f.refine token).defaultLevel = l ↔
      SetsDefault token l ∨ (∀ l', ¬ SetsDefault token l') ∧ f.defaultLevel = l := by
  obtain ⟨d, hd, -, hrefine⟩ | ⟨name, m, hd, -, hrefine⟩ | ⟨hd, -, hrefine⟩ := refine_cases f token
  · simp [hrefine, hd, eq_comm]
  · simp [hrefine, hd]
  · simp [hrefine, hd]

theorem getElem?_modules_refine (f : Filter) (token : Bytes) (l : Level) :
    (f.refine token).modules[module]? = some l ↔ SetsModule module token l ∨
      (∀ l', ¬ SetsModule module token l') ∧ f.modules[module]? = some l := by
  obtain ⟨d, -, hm, hrefine⟩ | ⟨name, m, -, hm, hrefine⟩ | ⟨-, hm, hrefine⟩ := refine_cases f token
  · simp [hrefine, hm]
  · rw [hrefine, Std.TreeMap.getElem?_insert]
    by_cases hname : name = module
    · simp [hm, hname, eq_comm]
    · simp [hm, hname]
  · simp [hrefine, hm]

/-! ## The last token counts -/

/-- The tokens of a specification. -/
def tokens (spec : Bytes) : List Bytes := spec.split (char ',')

/-- The last of the tokens that set a level sets it to `l`. -/
def LastSets (sets : Bytes → Level → Prop) (ts : List Bytes) (l : Level) : Prop :=
  ∃ before token after, ts = before ++ token :: after ∧ sets token l ∧
    ∀ t ∈ after, ∀ l', ¬ sets t l'

def NoneSets (sets : Bytes → Level → Prop) (ts : List Bytes) : Prop := ∀ t ∈ ts, ∀ l, ¬ sets t l

section

variable {sets : Bytes → Level → Prop} {t : Bytes} {ts : List Bytes}

theorem NoneSets.not_lastSets (h : NoneSets sets ts) : ¬ LastSets sets ts l := by
  rintro ⟨before, token, after, rfl, hsets, -⟩
  exact h token (by simp) l hsets

theorem lastSets_cons_iff :
    LastSets sets (t :: ts) l ↔ LastSets sets ts l ∨ NoneSets sets ts ∧ sets t l := by
  constructor
  · rintro ⟨before, token, after, h, hsets, hafter⟩
    cases before with
    | nil =>
      obtain ⟨rfl, rfl⟩ := List.cons.inj h
      exact .inr ⟨hafter, hsets⟩
    | cons b before =>
      obtain ⟨rfl, rfl⟩ := List.cons.inj h
      exact .inl ⟨before, token, after, rfl, hsets, hafter⟩
  · rintro (⟨before, token, after, rfl, hsets, hafter⟩ | ⟨hafter, hsets⟩)
    · exact ⟨t :: before, token, after, rfl, hsets, hafter⟩
    · exact ⟨[], t, ts, rfl, hsets, hafter⟩

/-- What each token sets or leaves alone, the last token that sets it decides. -/
theorem foldl_iff_lastSets {σ : Type} {step : σ → Bytes → σ} (view : σ → Level → Prop)
    (hstep : ∀ s t l, view (step s t) l ↔ sets t l ∨ (∀ l', ¬ sets t l') ∧ view s l) (s : σ) :
    view (ts.foldl step s) l ↔ LastSets sets ts l ∨ NoneSets sets ts ∧ view s l := by
  induction ts generalizing s with
  | nil =>
    have hnone : NoneSets sets [] := List.forall_mem_nil _
    simp [hnone, hnone.not_lastSets]
  | cons t ts ih =>
    rw [List.foldl_cons, ih, hstep, lastSets_cons_iff, NoneSets, NoneSets, List.forall_mem_cons,
      and_or_left, or_assoc, and_left_comm, and_assoc]

end

/-- A module has a level of its own after a specification if and only if a token is for it. -/
theorem getElem?_modules_apply {spec : Bytes} :
    (f.apply spec).modules[module]? = some l ↔ LastSets (SetsModule module) (tokens spec) l := by
  refine (foldl_iff_lastSets (fun (f : Filter) l => f.modules[module]? = some l)
    getElem?_modules_refine { f with modules := ∅ }).trans (or_iff_left ?_)
  rintro ⟨-, h⟩
  simp at h

theorem getElem?_modules_apply_eq_none {spec : Bytes}
    (h : NoneSets (SetsModule module) (tokens spec)) :
    (f.apply spec).modules[module]? = none :=
  Option.eq_none_iff_forall_ne_some.mpr fun _ hl => h.not_lastSets (getElem?_modules_apply.mp hl)

theorem defaultLevel_apply {spec : Bytes} :
    (f.apply spec).defaultLevel = l ↔
      LastSets SetsDefault (tokens spec) l ∨
        NoneSets SetsDefault (tokens spec) ∧ f.defaultLevel = l :=
  foldl_iff_lastSets (fun (f : Filter) l => f.defaultLevel = l) defaultLevel_refine
    { f with modules := ∅ }

/-! ## Levels of modules -/

theorem levelFor_of_getElem? (h : f.modules[module]? = some l) : f.levelFor module = l := by
  rw [levelFor, Std.TreeMap.getD_eq_getD_getElem?, h, Option.getD_some]

theorem levelFor_of_getElem?_eq_none (h : f.modules[module]? = none) :
    f.levelFor module = f.defaultLevel := by
  rw [levelFor, Std.TreeMap.getD_eq_getD_getElem?, h, Option.getD_none]

theorem foldl_min_le (xs : List (Bytes × Level)) (l : Level) :
    xs.foldl (fun least x => min x.2 least) l ≤ l ∧
      ∀ x ∈ xs, xs.foldl (fun least x => min x.2 least) l ≤ x.2 := by
  induction xs generalizing l with
  | nil => simp
  | cons x xs ih =>
    obtain ⟨hstart, hall⟩ := ih (min x.2 l)
    rw [List.foldl_cons, List.forall_mem_cons]
    exact ⟨le_trans hstart (min_le_right _ _), le_trans hstart (min_le_left _ _), hall⟩

/-- No module is logged below the least level. -/
theorem minLevel_le_levelFor (f : Filter) (module : Bytes) : f.minLevel ≤ f.levelFor module := by
  rw [minLevel, Std.TreeMap.foldl_eq_foldl_toList]
  obtain ⟨hdefault, hall⟩ := foldl_min_le f.modules.toList f.defaultLevel
  cases h : f.modules[module]? with
  | none => rwa [levelFor_of_getElem?_eq_none h]
  | some l =>
    rw [levelFor_of_getElem? h]
    exact hall (module, l) (Std.TreeMap.mem_toList_iff_getElem?_eq_some.mpr h)

end Filter

end JarRepair.Log
