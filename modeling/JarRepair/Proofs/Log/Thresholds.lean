import Mathlib.Data.List.Induction
import JarRepair.Log.Logger
import JarRepair.Proofs.Log.Filter

/-! # Which records a logger admits

The level of a logger turns records away before its filter is asked. After a specification was read
it turns away none that the filter admits. A level that is set without a specification is one for
all modules: their own levels stay in the filter, but do not count where they are lower. -/

namespace JarRepair.Log.Logger

open JarRepair.Log.Filter

variable {g : Logger} {level : Level} {module : Bytes}

theorem admits_iff :
    g.admits level module = true ↔ g.level ≤ level ∧ g.filter.admits level module = true := by
  rw [admits, Bool.and_eq_true, decide_eq_true_iff]

theorem filter_admits_iff {f : Filter} :
    f.admits level module = true ↔ f.levelFor module ≤ level := by
  rw [Filter.admits, decide_eq_true_iff]

/-- A logger whose level is the least of its filter admits what the filter admits. -/
theorem admits_eq_of_level_eq (h : g.level = g.filter.minLevel) :
    g.admits level module = g.filter.admits level module := by
  rw [Bool.eq_iff_iff, admits_iff, and_iff_right_iff_imp, filter_admits_iff, h]
  exact le_trans (minLevel_le_levelFor _ _)

/-! ## Setting up -/

/-- A filter whose default is at most `level`. -/
def lowered (level : Level) (f : Filter) : Filter :=
  { f with defaultLevel := min level f.defaultLevel }

theorem lowered_eq (level : Level) (f : Filter) :
    (if level < f.defaultLevel then { f with defaultLevel := level } else f) = lowered level f := by
  rw [lowered]
  split
  · rename_i hlt
    rw [min_eq_left (le_of_lt hlt)]
  · rename_i hge
    rw [min_eq_right (not_lt.mp hge)]

theorem setThresholds_of_ne_nil {spec : Bytes} (h : spec ≠ []) : g.setThresholds level spec =
    { g with
      filter := lowered level (g.filter.apply spec)
      level := (lowered level (g.filter.apply spec)).minLevel } := by
  rw [setThresholds, if_neg h]
  exact congrArg (fun f => { g with filter := f, level := f.minLevel }) (lowered_eq level _)

theorem clear_fst (g : Logger) (o : Outlet) : (g.clear o).1 = { g with sinks := [] } := rfl

/-- The sinks are set up apart from the thresholds. -/
theorem configure_fst (c : Config) (terminal : Terminal) (g : Logger) (o : Outlet) :
    ∃ sinks, (configure c terminal g o).1 = { g.setThresholds c.level c.filter with sinks } := by
  have hclear : ({ g with sinks := [] } : Logger).setThresholds c.level c.filter =
      { g.setThresholds c.level c.filter with sinks := [] } := by
    rw [setThresholds, setThresholds]
    split <;> rfl
  simp only [configure, clear_fst, hclear]
  split
  · split <;> exact ⟨_, rfl⟩
  · split <;> split <;> exact ⟨_, rfl⟩

theorem admits_configure (c : Config) (terminal : Terminal) (g : Logger) (o : Outlet) :
    (configure c terminal g o).1.admits level module =
      (g.setThresholds c.level c.filter).admits level module := by
  obtain ⟨sinks, h⟩ := configure_fst c terminal g o
  rw [h]
  rfl

/-- After a specification was read, the lowered filter alone decides. -/
theorem admits_setThresholds_iff {l : Level} {spec : Bytes} (h : spec ≠ []) :
    (g.setThresholds l spec).admits level module ↔
      (lowered l (g.filter.apply spec)).levelFor module ≤ level := by
  rw [setThresholds_of_ne_nil h, admits_eq_of_level_eq rfl, filter_admits_iff]

/-! ## The default that applies -/

section

variable {f : Filter} {l m : Level} {spec : Bytes}

theorem levelFor_lowered_of_lastSets (h : LastSets (SetsModule module) (tokens spec) m) :
    (lowered l (f.apply spec)).levelFor module = m :=
  levelFor_of_getElem? (f := lowered l (f.apply spec)) (getElem?_modules_apply.mpr h)

theorem levelFor_lowered_of_noneSets (h : NoneSets (SetsModule module) (tokens spec)) :
    (lowered l (f.apply spec)).levelFor module = min l (f.apply spec).defaultLevel :=
  levelFor_of_getElem?_eq_none (f := lowered l (f.apply spec)) (getElem?_modules_apply_eq_none h)

end

/-- A logger that is set up with a specification admits for a module what is at least at the level
of the last token for it. For a module that no token names, the level is the last default of the
specification, or a warning if it has none, but never above the level that is set up with it. -/
theorem admits_configure_fresh {c : Config} (hspec : c.filter ≠ []) (sinks : List Sink)
    (terminal : Terminal) (o : Outlet) (level : Level) (module : Bytes) :
    (∀ l, LastSets (SetsModule module) (tokens c.filter) l →
        ((configure c terminal { sinks } o).1.admits level module ↔ l ≤ level)) ∧
      (NoneSets (SetsModule module) (tokens c.filter) →
        (∀ d, LastSets SetsDefault (tokens c.filter) d →
          ((configure c terminal { sinks } o).1.admits level module ↔ min c.level d ≤ level)) ∧
        (NoneSets SetsDefault (tokens c.filter) →
          ((configure c terminal { sinks } o).1.admits level module ↔
            min c.level .warn ≤ level))) := by
  rw [admits_configure, admits_setThresholds_iff hspec]
  refine ⟨fun l hl => ?_, fun hnone => ⟨fun d hd => ?_, fun hd => ?_⟩⟩
  · rw [levelFor_lowered_of_lastSets hl]
  · rw [levelFor_lowered_of_noneSets hnone, defaultLevel_apply.mpr (.inl hd)]
  · rw [levelFor_lowered_of_noneSets hnone, defaultLevel_apply.mpr (.inr ⟨hd, rfl⟩)]

/-- One module is named twice, and the default is set above the level beside it. -/
def overruled : Config := { filter := "fix=debug,*=error,fix=info" }

theorem tokens_overruled : tokens overruled.filter =
    [Bytes.ascii "fix=debug", Bytes.ascii "*=error", Bytes.ascii "fix=info"] := by decide

theorem noneSets_codec_overruled : NoneSets (SetsModule "codec") (tokens overruled.filter) := by
  rw [tokens_overruled]
  simp only [NoneSets, List.forall_mem_cons]
  refine ⟨?_, ?_, ?_, List.forall_mem_nil _⟩
  · exact not_setsModule_of_cut?
      (show _ = some (Bytes.ascii "fix", Bytes.ascii "debug") by decide) (by decide)
  · exact not_setsModule_of_cut?
      (show _ = some (Bytes.ascii "*", Bytes.ascii "error") by decide) (by decide)
  · exact not_setsModule_of_cut?
      (show _ = some (Bytes.ascii "fix", Bytes.ascii "info") by decide) (by decide)

theorem lastSets_overruled : LastSets (SetsModule "fix") (tokens overruled.filter) .info ∧
    LastSets SetsDefault (tokens overruled.filter) .error := by
  rw [tokens_overruled]
  refine ⟨⟨[_, _], _, [], rfl, .level "info" (by decide) (by decide), List.forall_mem_nil _⟩,
    ⟨[_], _, [_], rfl, .level "error", List.forall_mem_singleton.mpr ?_⟩⟩
  exact not_setsDefault_of_cut?
    (show _ = some (Bytes.ascii "fix", Bytes.ascii "info") by decide) (by decide)

theorem admits_configure_overruled : overruled.filter ≠ [] ∧
    LastSets (SetsModule "fix") (tokens overruled.filter) .info ∧
    NoneSets (SetsModule "codec") (tokens overruled.filter) ∧
    LastSets SetsDefault (tokens overruled.filter) .error ∧
    ∀ level, ((configure overruled .none {} {}).1.admits level "fix" ↔ .info ≤ level) ∧
      ((configure overruled .none {} {}).1.admits level "codec" ↔ .warn ≤ level) := by
  have hspec : overruled.filter ≠ [] := by decide
  obtain ⟨hfix, hdefault⟩ := lastSets_overruled
  have hcodec := noneSets_codec_overruled
  refine ⟨hspec, hfix, hcodec, hdefault, fun level => ⟨?_, ?_⟩⟩
  · exact (admits_configure_fresh hspec [] .none {} level "fix").1 _ hfix
  · exact ((admits_configure_fresh hspec [] .none {} level "codec").2 hcodec).1 _ hdefault

/-- One module is named, the default is not, and the level beside is above a warning. -/
def strict : Config := { level := .error, filter := "fix=debug" }

theorem tokens_strict : tokens strict.filter = [Bytes.ascii "fix=debug"] := by decide

/-- A default above the level beside it does not count, and without a default a level above a
warning does not count. -/
theorem configure_admits_below_default :
    (overruled.filter ≠ [] ∧ NoneSets (SetsModule "codec") (tokens overruled.filter) ∧
        LastSets SetsDefault (tokens overruled.filter) .error ∧ ¬ Level.error ≤ .warn ∧
        (configure overruled .none {} {}).1.admits .warn "codec" = true) ∧
      strict.filter ≠ [] ∧ NoneSets (SetsModule "codec") (tokens strict.filter) ∧
        NoneSets SetsDefault (tokens strict.filter) ∧ ¬ strict.level ≤ .warn ∧
        (configure strict .none {} {}).1.admits .warn "codec" = true := by
  refine ⟨⟨by decide, noneSets_codec_overruled,
    lastSets_overruled.2, by decide, by decide⟩, by decide, ?_,
    ?_, by decide, by decide⟩
  · rw [tokens_strict]
    refine List.forall_mem_singleton.mpr ?_
    exact not_setsModule_of_cut?
      (show _ = some (Bytes.ascii "fix", Bytes.ascii "debug") by decide) (by decide)
  · rw [tokens_strict]
    refine List.forall_mem_singleton.mpr ?_
    exact not_setsDefault_of_cut?
      (show _ = some (Bytes.ascii "fix", Bytes.ascii "debug") by decide) (by decide)

/-! ## After many calls -/

/-- What changes the thresholds of a logger. -/
inductive Call where
  | configure (config : Config) (terminal : Terminal)
  | setLevel (level : Level)
  | setFilter (spec : Bytes)

namespace Call

def run (s : Logger × Outlet) : Call → Logger × Outlet
  | .configure c terminal => s.1.configure c terminal s.2
  | .setLevel level => (s.1.setLevel level, s.2)
  | .setFilter spec => (s.1.setFilter spec, s.2)

/-- The specification that a call reads. -/
def spec? : Call → Option Bytes
  | .configure c _ => if c.filter = [] then none else some c.filter
  | .setLevel _ => none
  | .setFilter spec => some spec

/-- The level that a call sets for all modules, if it reads no specification. -/
def floor? : Call → Option Level
  | .configure c _ => if c.filter = [] then some c.level else none
  | .setLevel level => some level
  | .setFilter _ => none

/-- A call reads a specification, or it sets the level and the default of the filter alike. -/
theorem run_cases (s : Logger × Outlet) (call : Call) :
    (∃ spec, call.spec? = some spec ∧ call.floor? = none ∧
        (call.run s).1.filter.modules = (s.1.filter.apply spec).modules ∧
        (call.run s).1.level = (call.run s).1.filter.minLevel) ∨
      ∃ l, call.spec? = none ∧ call.floor? = some l ∧
        (call.run s).1.filter = { s.1.filter with defaultLevel := l } ∧
        (call.run s).1.level = l := by
  cases call with
  | setLevel l => exact .inr ⟨l, rfl, rfl, rfl, rfl⟩
  | setFilter spec => exact .inl ⟨spec, rfl, rfl, rfl, rfl⟩
  | configure c terminal =>
    obtain ⟨sinks, h⟩ := configure_fst c terminal s.1 s.2
    rw [run, h]
    by_cases hspec : c.filter = []
    · refine .inr ⟨c.level, if_pos hspec, if_pos hspec, ?_⟩
      rw [setThresholds, if_pos hspec]
      exact ⟨rfl, rfl⟩
    · refine .inl ⟨c.filter, if_neg hspec, if_neg hspec, ?_⟩
      rw [setThresholds_of_ne_nil hspec]
      exact ⟨rfl, rfl⟩

end Call

/-- A fresh logger after a number of calls. -/
def after (calls : List Call) (sinks : List Sink) (o : Outlet) : Logger :=
  (calls.foldl Call.run ({ sinks }, o)).1

/-- The last specification that was read. -/
def lastSpec? (calls : List Call) : Option Bytes := calls.reverse.findSome? Call.spec?

/-- The level of the last call, if it set one for all modules. -/
def lastFloor? (calls : List Call) : Option Level := calls.getLast?.bind Call.floor?

variable {calls : List Call} {sinks : List Sink} {o : Outlet} {l : Level}

theorem lastSpec?_concat (calls : List Call) (call : Call) :
    lastSpec? (calls ++ [call]) = call.spec?.or (lastSpec? calls) := by
  rw [lastSpec?, List.reverse_append, List.reverse_singleton, List.singleton_append,
    List.findSome?_cons]
  cases call.spec? <;> rfl

theorem lastFloor?_concat (calls : List Call) (call : Call) :
    lastFloor? (calls ++ [call]) = call.floor? := by
  rw [lastFloor?, List.getLast?_concat, Option.bind_some]

/-- The modules keep the levels that the last specification gave them. -/
theorem getElem?_modules_after : (after calls sinks o).filter.modules[module]? = some l ↔
    ∃ spec, lastSpec? calls = some spec ∧ LastSets (SetsModule module) (tokens spec) l := by
  rw [after]
  induction calls using List.reverseRecOn with
  | nil =>
    simp [lastSpec?]
  | append_singleton calls call ih =>
    rw [List.foldl_append, List.foldl_cons, List.foldl_nil, lastSpec?_concat]
    obtain ⟨spec, hspec, -, hmodules, -⟩ | ⟨m, hspec, -, hfilter, -⟩ :=
      Call.run_cases (calls.foldl Call.run ({ sinks }, o)) call
    · rw [hmodules, getElem?_modules_apply, hspec]
      simp
    · rw [hfilter, hspec]
      exact ih

/-- The level is the least of the filter, or it is the default that the last call set. -/
theorem level_after (calls : List Call) (sinks : List Sink) (o : Outlet) :
    (lastFloor? calls = none ∧
      (after calls sinks o).level = (after calls sinks o).filter.minLevel) ∨
      ∃ l, lastFloor? calls = some l ∧ (after calls sinks o).level = l ∧
        (after calls sinks o).filter.defaultLevel = l := by
  rw [after]
  rcases List.eq_nil_or_concat calls with rfl | ⟨calls, call, rfl⟩
  · exact .inl ⟨rfl, rfl⟩
  · rw [List.concat_eq_append, List.foldl_append, List.foldl_cons, List.foldl_nil,
      lastFloor?_concat]
    obtain ⟨spec, -, hfloor, -, hlevel⟩ | ⟨l, -, hfloor, hfilter, hlevel⟩ :=
      Call.run_cases (calls.foldl Call.run ({ sinks }, o)) call
    · exact .inl ⟨hfloor, hlevel⟩
    · exact .inr ⟨l, hfloor, hlevel, by rw [hfilter]⟩

/-- Only a level that the last specification gave is below the level of the last call. -/
theorem levelFor_after_lt_iff {floor : Level}
    (hdefault : (after calls sinks o).filter.defaultLevel = floor) :
    (after calls sinks o).filter.levelFor module < floor ↔
      ∃ spec l, lastSpec? calls = some spec ∧ LastSets (SetsModule module) (tokens spec) l ∧
      l < floor := by
  constructor
  · intro hlt
    cases hown : (after calls sinks o).filter.modules[module]? with
    | none =>
      rw [levelFor_of_getElem?_eq_none hown, hdefault] at hlt
      exact absurd hlt (lt_irrefl floor)
    | some l =>
      rw [levelFor_of_getElem? hown] at hlt
      obtain ⟨spec, hspec, hl⟩ := getElem?_modules_after.mp hown
      exact ⟨spec, l, hspec, hl, hlt⟩
  · rintro ⟨spec, l, hspec, hl, hlt⟩
    rwa [levelFor_of_getElem? (getElem?_modules_after.mpr ⟨spec, hspec, hl⟩)]

/-- After any calls a logger admits what its filter admits, except what lies below the level of the
last call, if that set a level without a specification. So the two differ for a module exactly if
the last specification that was read had set a lower level for it. -/
theorem admits_after (calls : List Call) (sinks : List Sink) (o : Outlet) (module : Bytes) :
    (∀ level, (after calls sinks o).admits level module ↔
        (after calls sinks o).filter.admits level module ∧
          ∀ floor, lastFloor? calls = some floor → floor ≤ level) ∧
      ((∃ level, (after calls sinks o).admits level module ≠
          (after calls sinks o).filter.admits level module) ↔
        ∃ floor, lastFloor? calls = some floor ∧ ∃ spec l, lastSpec? calls = some spec ∧
          LastSets (SetsModule module) (tokens spec) l ∧ l < floor) := by
  obtain ⟨hfloor, hlevel⟩ | ⟨floor, hfloor, hlevel, hdefault⟩ := level_after calls sinks o
  · simp [hfloor, admits_eq_of_level_eq hlevel]
  · have hadmits (level : Level) : (after calls sinks o).admits level module ↔
        floor ≤ level ∧ (after calls sinks o).filter.levelFor module ≤ level := by
      rw [admits_iff, hlevel, filter_admits_iff]
    have hne (level : Level) :
        (after calls sinks o).admits level module ≠
          (after calls sinks o).filter.admits level module ↔
          (after calls sinks o).filter.levelFor module ≤ level ∧ level < floor := by
      rw [Ne, Bool.eq_iff_iff, hadmits, filter_admits_iff, and_iff_right_iff_imp, Classical.not_imp,
        not_le]
    refine ⟨fun level => ?_, ?_⟩
    · rw [hadmits, filter_admits_iff, and_comm]
      simp [hfloor]
    · simp only [hne, hfloor, Option.some.injEq, exists_eq_left', ← levelFor_after_lt_iff hdefault]
      exact ⟨fun ⟨_, hle, hlt⟩ => lt_of_le_of_lt hle hlt, fun hlt => ⟨_, le_rfl, hlt⟩⟩

/-- A level that is set after a specification was read hides what the filter admits, in either way
to set it. -/
theorem after_hides_admitted :
    ((after [.setFilter "cache=trace", .setLevel .error] [] {}).filter.admits .trace "cache" =
      true ∧
        (after [.setFilter "cache=trace", .setLevel .error] [] {}).admits .trace "cache" = false) ∧
      (after [.setFilter "cache=trace", .configure { level := .error } .none] [] {}).filter.admits
          .trace "cache" = true ∧
        (after [.setFilter "cache=trace", .configure { level := .error } .none] [] {}).admits
          .trace "cache" = false := by
  decide

end JarRepair.Log.Logger
