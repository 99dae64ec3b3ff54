import JarRepair.Proofs.Repair.Projection
import JarRepair.Proofs.Repair.Tally

/-! # Long use of a cache

A cache serves lookups for a whole run. In between, classes that were found are edited, and some
lookups fail. To see what is fetched for all this, the containers are watched: they write down each
fetch and what came of it. Any sequence of requests may be made of any containers, also of some that
give another content for a file each time. -/

namespace JarRepair

open JarRepair.Task

namespace Task

variable {σ τ α : Type} {t : Task σ α} {s : σ}

/-- Ends well with the outcome of a task. -/
def attempt (t : Task σ α) : Task σ (Except Error α) := fun s =>
  let (r, s) := t s
  (.ok r, s)

theorem ensures_attempt {Q : Except Error α → σ → Prop} {E : Error → σ → Prop} :
    (attempt t).Ensures s Q E ↔ t.Ensures s (fun a => Q (.ok a)) (fun e => Q (.error e)) := by
  refine forall_congr' fun notes => ?_
  rw [attempt]
  obtain ⟨e | a, s'⟩ := t { state := s, notes } <;> rfl

/-- What is ensured of both outcomes holds of the one that a run has. -/
theorem Ensures.outcome {P : Except Error α → σ → Prop}
    (h : t.Ensures s (fun a => P (.ok a)) (fun e => P (.error e))) (notes : Array Log.Note) :
    P (t { state := s, notes }).1 (t { state := s, notes }).2.state := by
  have h' := h notes
  generalize t { state := s, notes } = run at h'
  obtain ⟨e | a, s'⟩ := run <;> exact h'

theorem Mirrors.attempt {part : τ → σ} {t : Task τ α} {u : Task σ α} (h : Mirrors part t u) :
    Mirrors part (attempt t) (attempt u) := by
  intro w notes
  rw [Task.attempt, h w notes]
  rfl

end Task

namespace Repair

open Archive (Path Reader)

variable {σ : Type}

/-! ## Watched containers -/

inductive Origin where
  | primary
  | fallback
deriving DecidableEq, Repr

/-- A file that was asked of a container, and what the container gave. -/
structure Fetch where
  origin : Origin
  path : Path
  content : Except Error Bytes

/-- The class in the file that was fetched for a name. -/
def Fetch.decode (name : Bytes) (f : Fetch) : Except Error ClassFile :=
  (f.content.bind fun data => (ClassFile.decode data).mapError ClassFile.Failure.error).mapError
    fun e => (e.withEntry f.path).withClass name

/-- A world with the fetches that were made. -/
structure Watched (σ : Type) where
  world : σ
  fetches : List Fetch := []

/-- A reader whose fetches are written down. -/
def watch (origin : Origin) (r : Reader σ) : Reader (Watched σ) :=
  { r with
    read := fun path => do
      let content ← (Task.attempt (r.read path)).focus Watched.world fun world w => { w with world }
      Task.modifyState fun w => { w with fetches := w.fetches ++ [{ origin, path, content }] }
      Task.ofExcept content }

theorem ensures_read_watch {origin : Origin} {r : Reader σ} {path : Path} {w : Watched σ}
    {Q : Bytes → Watched σ → Prop} {E : Error → Watched σ → Prop}
    (h : ∀ content world,
      let w' : Watched σ := { world, fetches := w.fetches ++ [{ origin, path, content }] }
      match content with
      | .ok data => Q data w'
      | .error e => E e w') :
    ((watch origin r).read path).Ensures w Q E := by
  refine Ensures.bind (ensures_focus.mpr (ensures_attempt.mpr ?_))
  refine (ensures_any (r.read path) w.world).mono ?_ ?_
  · exact fun data world _ =>
      Ensures.bind (ensures_modifyState.mpr (ensures_ofExcept.mpr (h (.ok data) world)))
  · exact fun e world _ =>
      Ensures.bind (ensures_modifyState.mpr (ensures_ofExcept.mpr (h (.error e) world)))

theorem mirrors_watch (origin : Origin) (r : Reader σ) :
    (watch origin r).Mirrors Watched.world r where
  location := rfl
  entries := rfl
  files := rfl
  read _ _ _ := rfl

namespace Sources

def watched (src : Sources σ) : Sources (Watched σ) where
  primary := watch .primary src.primary
  fallback := src.fallback.map (watch .fallback)

theorem mirrors_watched (src : Sources σ) : src.watched.Mirrors Watched.world src where
  primary := mirrors_watch .primary src.primary
  fallback := by
    rw [watched]
    cases src.fallback with
    | none => exact .none
    | some reader => exact .some (mirrors_watch .fallback reader)

/-- Which of the containers has a file: the primary one comes first. -/
def origin? (src : Sources σ) (p : Path) : Option Origin :=
  if src.primary.contains p then some .primary
  else if src.fallback.any (·.contains p) then some .fallback
  else none

theorem holder?_watched (src : Sources σ) (p : Path) :
    src.watched.holder? p = none ∧ src.origin? p = none ∨
      ∃ origin r, src.watched.holder? p = some (watch origin r) ∧ src.origin? p = some origin := by
  rw [holder?, origin?]
  show (if src.primary.contains p then _ else _) = none ∧ _ ∨
    ∃ origin r, (if src.primary.contains p then _ else _) = some (watch origin r) ∧ _
  by_cases hprimary : src.primary.contains p = true
  · rw [if_pos hprimary, if_pos hprimary]
    exact .inr ⟨.primary, src.primary, rfl, rfl⟩
  · rw [if_neg hprimary, if_neg hprimary, watched]
    cases src.fallback with
    | none => exact .inl ⟨rfl, rfl⟩
    | some reader =>
      rw [Option.map_some, Option.filter_some, Option.any_some]
      show (if reader.contains p then _ else _) = none ∧ _ ∨
        ∃ origin r, (if reader.contains p then _ else _) = some (watch origin r) ∧ _
      by_cases hfallback : reader.contains p = true
      · rw [if_pos hfallback, if_pos hfallback]
        exact .inr ⟨.fallback, reader, rfl, rfl⟩
      · rw [if_neg hfallback, if_neg hfallback]
        exact .inl ⟨rfl, rfl⟩

end Sources

/-! ## A lookup -/

variable {src : Sources σ} {name : Bytes} {b : Bench (Watched σ)}

/-- A lookup is answered from the cache, or for want of a file without a fetch, or by the one fetch
of the file from where it is. -/
theorem Sources.ensures_find_watched {Q : Option ClassFile → Bench (Watched σ) → Prop}
    {E : Error → Bench (Watched σ) → Prop}
    (hhit : ∀ slot, b.cache.slots[name]? = some slot → Q slot { b with cache := b.cache.hit })
    (hnone : b.cache.slots[name]? = none → src.origin? (Path.ofClass name) = none →
      Q none { b with cache := b.cache.learn name none })
    (hfetch : ∀ origin content world, b.cache.slots[name]? = none →
      src.origin? (Path.ofClass name) = some origin →
      let fetch : Fetch := { origin, path := Path.ofClass name, content }
      let world : Watched σ := { world, fetches := b.world.fetches ++ [fetch] }
      match fetch.decode name with
      | .ok c => Q (some c) { world, cache := b.cache.learn name (some c) }
      | .error e => E e { world, cache := { b.cache with misses := b.cache.misses + 1 } }) :
    (src.watched.find name).Ensures b Q E := by
  refine Ensures.bind (ensures_state.mpr ?_)
  split
  · rename_i slot hslot
    exact Ensures.bind (Bench.ensures_modifyCache (ensures_pure.mpr (hhit slot hslot)))
  · rename_i hslot
    refine Ensures.bind (Bench.ensures_modifyCache (Ensures.bind ?_))
    rcases src.holder?_watched (Path.ofClass name) with
        ⟨hholder, horigin⟩ | ⟨origin, r, hholder, horigin⟩
    · refine Sources.ensures_load (fun _ => ?_) fun reader hreader => ?_
      · refine Ensures.bind (Bench.ensures_modifyCache (Ensures.bind (ensures_note.mpr ?_)))
        exact Ensures.bind (Bench.ensures_modifyCache (ensures_pure.mpr (hnone hslot horigin)))
      · rw [hholder] at hreader
        simp at hreader
    · refine Sources.ensures_load (fun hmissing => ?_) fun reader hreader => ?_
      · rw [hholder] at hmissing
        simp at hmissing
      · obtain rfl := Option.some.inj (hholder.symm.trans hreader)
        refine ensures_read_watch fun content world => ?_
        have hfetched := hfetch origin content world hslot horigin
        cases content with
        | error e => exact hfetched
        | ok data =>
          dsimp only [Fetch.decode, Except.bind] at hfetched ⊢
          cases hread : ClassFile.decode data with
          | error failure =>
            rw [hread] at hfetched
            exact hfetched
          | ok c =>
            rw [hread] at hfetched
            exact Ensures.bind (Bench.ensures_modifyCache (ensures_pure.mpr hfetched))

/-! ## Requests -/

/-- What is done with a cache: a class is looked up, or one that was found is edited. -/
inductive Request where
  | find (name : Bytes)
  | edit (name : Bytes) (f : ClassFile → ClassFile)

/-- What came of a lookup. -/
structure Answer where
  name : Bytes
  result : Except Error (Option ClassFile)

def Answer.failed (a : Answer) : Bool := !a.result.isOk

@[simp] theorem Answer.failed_ok {name : Bytes} {found : Option ClassFile} :
    Answer.failed { name, result := .ok found } = false := rfl

@[simp] theorem Answer.failed_error {name : Bytes} {e : Error} :
    Answer.failed { name, result := .error e } = true := rfl

namespace Request

/-- The name that is looked up. -/
def asked? : Request → Option Bytes
  | .find name => some name
  | .edit _ _ => none

/-- What a request makes of the class of a name. -/
def apply (name : Bytes) (c : ClassFile) : Request → ClassFile
  | .find _ => c
  | .edit name' f => if name' = name then f c else c

end Request

namespace Sources

/-- Serves a request; a lookup that fails is answered too. -/
def serve (src : Sources σ) (answers : List Answer) : Request → Task (Bench σ) (List Answer)
  | .find name => do
    let result ← Task.attempt (src.find name)
    return answers ++ [{ name, result }]
  | .edit name f => do
    if ((← Task.state).class? name).isSome then Bench.edit name (Task.modifyState f)
    return answers

/-- Serves requests in turn. -/
def session (src : Sources σ) (requests : List Request) : Task (Bench σ) (List Answer) :=
  requests.foldlM src.serve []

theorem mirrors_session {τ : Type} {part : τ → σ} {src : Sources τ} {src' : Sources σ}
    (h : src.Mirrors part src') (requests : List Request) :
    Task.Mirrors (Bench.map part) (src.session requests) (src'.session requests) := by
  refine mirrors_foldlM (fun answers request => ?_) requests []
  cases request with
  | find name => exact (h.find name).attempt.bind fun _ => mirrors_pure
  | edit name f =>
    refine mirrors_state_bind fun b => ?_
    show Task.Mirrors _ (if (b.class? name).isSome then _ else _)
        (if (b.class? name).isSome then _ else _)
    split
    · exact mirrors_edit.bind fun _ => mirrors_pure
    · exact mirrors_pure

end Sources

/-- The account of a session: its requests, their answers, the fetches and the cache agree. -/
structure Accounted (requests : List Request) (answers : List Answer) (b : Bench (Watched σ)) :
    Prop where
  names : answers.map Answer.name = requests.filterMap Request.asked?
  lookups : b.cache.hits + b.cache.misses = answers.length
  slots : b.cache.slots.size = b.cache.decoded + b.cache.unresolved
  misses : b.cache.misses = b.cache.slots.size + (answers.filter Answer.failed).length
  fetches : b.world.fetches.length = b.cache.decoded + (answers.filter Answer.failed).length
  known : ∀ name : Bytes, name ∈ b.cache.slots ↔ ∃ a ∈ answers, a.name = name ∧ a.failed = false
  /-- What was found is kept, with the edits that were made since. -/
  kept : ∀ before name between found, requests = before ++ .find name :: between →
    answers[(before.filterMap Request.asked?).length]? = some { name, result := .ok found } →
    b.cache.slots[name]? = some (found.map fun c => between.foldl (Request.apply name) c)

/-- An item in a list that gets longer is the new one or was there before. -/
theorem append_singleton_eq_iff {α : Type} {done before between : List α} {x y : α} :
    done ++ [x] = before ++ y :: between ↔
      (done = before ∧ x = y ∧ between = []) ∨
        ∃ between', between = between' ++ [x] ∧ done = before ++ y :: between' := by
  rcases between.eq_nil_or_concat' with rfl | ⟨between', z, rfl⟩
  · simp
  · rw [← List.cons_append, ← List.append_assoc, List.append_singleton_inj]
    constructor
    · rintro ⟨rfl, rfl⟩
      exact .inr ⟨between', rfl, rfl⟩
    · rintro (⟨-, -, hnil⟩ | ⟨between'', hbetween, rfl⟩)
      · simp at hnil
      · obtain ⟨rfl, hz⟩ := List.append_inj' hbetween rfl
        exact ⟨rfl, (List.singleton_inj.mp hz).symm⟩

namespace Accounted

variable {requests : List Request} {answers : List Answer} {b' : Bench (Watched σ)}

theorem empty (w : σ) : Accounted [] [] ({ world := { world := w } } : Bench (Watched σ)) where
  names := rfl
  lookups := rfl
  slots := rfl
  misses := rfl
  fetches := rfl
  known name := by simp
  kept before name between found h := by simp at h

variable {x : Except Error (Option ClassFile)}

theorem length_answers (h : Accounted requests answers b) :
    (requests.filterMap Request.asked?).length = answers.length := by
  rw [← h.names, List.length_map]

theorem index_lt (h : Accounted requests answers b) {before between : List Request} {name : Bytes}
    (hrequests : requests = before ++ .find name :: between) :
    (before.filterMap Request.asked?).length < answers.length := by
  rw [← h.length_answers, hrequests, List.filterMap_append, List.length_append]
  exact Nat.lt_add_of_pos_right (Nat.succ_pos _)

/-- A lookup forgets nothing, and its slot holds what it was answered. -/
theorem kept_find (h : Accounted requests answers b) (hwithin : b.cache.Within b'.cache)
    (hslot : ∀ found, x = .ok found → b'.cache.slots[name]? = some found) :
    ∀ before name' between found, requests ++ [.find name] = before ++ .find name' :: between →
      (answers ++ [{ name, result := x }])[(before.filterMap Request.asked?).length]? =
        some { name := name', result := .ok found } →
      b'.cache.slots[name']? = some (found.map fun c => between.foldl (Request.apply name') c) := by
  intro before name' between found hdone hanswer
  rcases append_singleton_eq_iff.mp hdone with ⟨rfl, hname, rfl⟩ | ⟨between', rfl, hrequests⟩
  · rw [h.length_answers, List.getElem?_concat_length] at hanswer
    obtain ⟨rfl, rfl⟩ := Answer.mk.inj (Option.some.inj hanswer)
    rw [hslot found rfl]
    simp
  · rw [List.getElem?_append_left (h.index_lt hrequests)] at hanswer
    rw [hwithin _ _ (h.kept before name' between' found hrequests hanswer)]
    simp [Request.apply]

theorem known_find (h : Accounted requests answers b)
    (hslots : ∀ name',
      name' ∈ b'.cache.slots ↔ name' ∈ b.cache.slots ∨ name' = name ∧ x.isOk = true)
    (name' : Bytes) :
    name' ∈ b'.cache.slots ↔
      ∃ a ∈ answers ++ [{ name, result := x }], a.name = name' ∧ a.failed = false := by
  simp only [hslots, h.known, List.mem_append, List.mem_singleton, or_and_right, exists_or,
    exists_eq_left, Answer.failed, Bool.not_eq_false', eq_comm (a := name)]

theorem hit (h : Accounted requests answers b) {slot : Option ClassFile}
    (hslot : b.cache.slots[name]? = some slot) :
    Accounted (requests ++ [.find name]) (answers ++ [{ name, result := .ok slot }])
      { b with cache := b.cache.hit } where
  names := by simp [h.names, Request.asked?]
  lookups := by simp [Cache.hit, ← h.lookups]; omega
  slots := h.slots
  misses := by simp [h.misses, Cache.hit]
  fetches := by simp [h.fetches, Cache.hit]
  known := by
    refine h.known_find fun name' => ⟨.inl, ?_⟩
    rintro (hname | ⟨rfl, -⟩)
    · exact hname
    · rw [Std.TreeMap.mem_iff_isSome_getElem?, Cache.hit, hslot, Option.isSome_some]
  kept := by
    refine h.kept_find (.of_slots_eq rfl) ?_
    rintro found ⟨⟩
    exact hslot

theorem learn (h : Accounted requests answers b) (hnew : b.cache.slots[name]? = none)
    {found : Option ClassFile} {w : Watched σ}
    (hw : w.fetches.length = b.world.fetches.length + found.isSome.toNat) :
    Accounted (requests ++ [.find name]) (answers ++ [{ name, result := .ok found }])
      { world := w, cache := b.cache.learn name found } := by
  have hsize : (b.cache.slots.insert name found).size = b.cache.slots.size + 1 := by
    rw [Std.TreeMap.size_insert, Std.TreeMap.contains_eq_isSome_getElem?, hnew]
    rfl
  have hone : found.isSome.toNat + found.isNone.toNat = 1 := by cases found <;> rfl
  constructor
  · simp [h.names, Request.asked?]
  · simp [Cache.learn, ← h.lookups]
    omega
  · simp [Cache.learn, hsize, h.slots]
    omega
  · simp [Cache.learn, hsize, h.misses]
    omega
  · simp [Cache.learn, hw, h.fetches]
    omega
  · refine h.known_find fun name' => ?_
    rw [Cache.learn, Std.TreeMap.mem_insert, Std.LawfulEqCmp.compare_eq_iff_eq, or_comm, eq_comm]
    simp [Except.isOk, Except.toBool]
  · refine h.kept_find (.insert hnew rfl) ?_
    rintro _ ⟨⟩
    rw [Cache.learn, Cache.getElem?_insert, if_pos rfl]

theorem fail (h : Accounted requests answers b) {e : Error} {w : Watched σ}
    (hw : w.fetches.length = b.world.fetches.length + 1) :
    Accounted (requests ++ [.find name]) (answers ++ [{ name, result := .error e }])
      { world := w, cache := { b.cache with misses := b.cache.misses + 1 } } where
  names := by simp [h.names, Request.asked?]
  lookups := by simp [← h.lookups]; omega
  slots := h.slots
  misses := by simp [h.misses, List.filter_cons]; omega
  fetches := by simp [hw, h.fetches, List.filter_cons]; omega
  known := h.known_find fun name' => by simp [Except.isOk, Except.toBool]
  kept := h.kept_find (.of_slots_eq rfl) nofun

theorem edit (h : Accounted requests answers b) {c : ClassFile} (hc : b.class? name = some c)
    (f : ClassFile → ClassFile) :
    Accounted (requests ++ [.edit name f]) answers (b.remember name (f c)) := by
  rw [Bench.class?_eq_some_iff] at hc
  have hname : name ∈ b.cache.slots := by
    rw [Std.TreeMap.mem_iff_isSome_getElem?, hc, Option.isSome_some]
  have hsize : (b.cache.slots.insert name (some (f c))).size = b.cache.slots.size := by
    rw [Std.TreeMap.size_insert, if_pos (Std.TreeMap.mem_iff_contains.mp hname)]
  constructor
  · simp [h.names, Request.asked?]
  · exact h.lookups
  · rw [Bench.remember, hsize]
    exact h.slots
  · rw [Bench.remember, hsize]
    exact h.misses
  · exact h.fetches
  · intro name'
    rw [Bench.remember, Std.TreeMap.mem_insert, Std.LawfulEqCmp.compare_eq_iff_eq, ← h.known]
    exact ⟨fun hname' => hname'.elim (fun heq => heq ▸ hname) id, .inr⟩
  · intro before name' between found hdone hanswer
    rcases append_singleton_eq_iff.mp hdone with ⟨-, hfind, -⟩ | ⟨between', rfl, hrequests⟩
    · simp at hfind
    · have hslot := h.kept before name' between' found hrequests hanswer
      rw [Bench.remember, Cache.getElem?_insert]
      split
      · rename_i heq
        rw [heq, hslot, Option.some.injEq, Option.map_eq_some_iff] at hc
        obtain ⟨c₀, rfl, rfl⟩ := hc
        simp [Request.apply, heq]
      · rename_i hne
        rw [hslot]
        simp [Request.apply, hne]

end Accounted

theorem Sources.ensures_serve_watched (src : Sources σ) {requests : List Request}
    {answers : List Answer} (h : Accounted requests answers b) (request : Request) :
    (src.watched.serve answers request).Ensures b (Accounted (requests ++ [request]))
      (fun _ _ => False) := by
  cases request with
  | find name =>
    refine Ensures.bind (ensures_attempt.mpr (Sources.ensures_find_watched ?_ ?_ ?_))
    · exact fun slot hslot => ensures_pure.mpr (h.hit hslot)
    · exact fun hslot _ => ensures_pure.mpr (h.learn hslot rfl)
    · intro origin content world hslot _ fetch world
      have hlength : world.fetches.length = b.world.fetches.length + 1 := List.length_append
      split
      · exact ensures_pure.mpr (h.learn hslot hlength)
      · exact ensures_pure.mpr (h.fail hlength)
  | edit name f =>
    refine Ensures.bind (ensures_state.mpr ?_)
    cases hc : b.class? name with
    | some c =>
      exact Ensures.bind
        (Bench.ensures_edit hc (ensures_modifyState.mpr (ensures_pure.mpr (h.edit hc f))))
    | none =>
      refine ensures_pure.mpr { h with names := by simp [h.names, Request.asked?], kept := ?_ }
      intro before name' between found hdone hanswer
      rcases append_singleton_eq_iff.mp hdone with ⟨-, hfind, -⟩ | ⟨between', rfl, hrequests⟩
      · simp at hfind
      · have hslot := h.kept before name' between' found hrequests hanswer
        rw [hslot]
        cases found with
        | none => rfl
        | some c =>
          have hne : name ≠ name' := by
            rintro rfl
            rw [Bench.class?, hslot] at hc
            simp at hc
          simp [Request.apply, hne]

/-- Whatever is requested, the account of the session is in order. -/
theorem Sources.ensures_session_watched (src : Sources σ) (requests : List Request) (w : σ) :
    (src.watched.session requests).Ensures { world := { world := w } } (Accounted requests)
      (fun _ _ => False) :=
  Ensures.foldlM (I := Accounted) (fun _ request _ _ _ _ h => src.ensures_serve_watched h request)
    (Accounted.empty w)

/-- A name whose slot is filled costs a hit and nothing else. -/
theorem Sources.find_of_slot {slot : Option ClassFile} {s : Traced (Bench σ)}
    (hslot : s.state.cache.slots[name]? = some slot) :
    src.find name s =
      (.ok slot, { s with state := { s.state with cache := s.state.cache.hit } }) := by
  have hstate : (Task.state : Task (Bench σ) _) s = (.ok s.state, s) := rfl
  rw [find, Task.bind_apply, hstate]
  simp only [ExceptT.bindCont, hslot]
  rfl

/-- A name whose slot is free is fetched from where its file is, once; without a file it is
unknown. -/
theorem Sources.find_new (hslot : b.cache.slots[name]? = none) (notes : Array Log.Note) :
    let run := src.watched.find name { state := b, notes }
    match src.origin? (Path.ofClass name) with
    | none => run.1 = .ok none ∧ run.2.state.world = b.world
    | some origin => ∃ content,
      let fetch : Fetch := { origin, path := Path.ofClass name, content }
      run.1 = (fetch.decode name).map some ∧
        run.2.state.world.fetches = b.world.fetches ++ [fetch] := by
  refine Ensures.outcome (t := src.watched.find name) (s := b)
    (P := fun x (b' : Bench (Watched σ)) =>
    match src.origin? (Path.ofClass name) with
    | none => x = .ok none ∧ b'.world = b.world
    | some origin => ∃ content,
      let fetch : Fetch := { origin, path := Path.ofClass name, content }
      x = (fetch.decode name).map some ∧ b'.world.fetches = b.world.fetches ++ [fetch]) ?_ notes
  refine ensures_find_watched ?_ ?_ ?_
  · intro slot hsome
    rw [hslot] at hsome
    simp at hsome
  · intro _ horigin
    rw [horigin]
    exact ⟨rfl, rfl⟩
  · intro origin content world _ horigin fetch world
    rw [horigin]
    split
    · rename_i hdecode
      exact ⟨content, congrArg (Except.map some) hdecode.symm, rfl⟩
    · rename_i hdecode
      exact ⟨content, congrArg (Except.map some) hdecode.symm, rfl⟩

/-- Whatever is looked up and edited in whatever order, lookups are hits or misses; names are
remembered with a class or as unknown; misses are the names remembered and the failures; and fetches
are the classes decoded and the failures. A name that was answered is answered without a fetch from
then on, with the edits made since. Any other is fetched from the primary container if that has its
file, else from the fallback, and is unknown if neither has. -/
theorem Sources.session_accounted (src : Sources σ) (requests : List Request) (w : σ)
    (notes : Array Log.Note) :
    let run := src.watched.session requests { state := { world := { world := w } }, notes }
    let bench := run.2.state
    let stats := bench.cache.stats
    let next (name : Bytes) := src.watched.find name run.2
    src.session requests { state := { world := w }, notes } =
        (run.1, { state := bench.map Watched.world, notes := run.2.notes }) ∧
      ∃ answers, run.1 = .ok answers ∧
        answers.map Answer.name = requests.filterMap Request.asked? ∧
        stats.hits + stats.misses = answers.length ∧
        stats.total = stats.decoded + stats.unresolved ∧
        stats.misses = stats.total + (answers.filter Answer.failed).length ∧
        bench.world.fetches.length = stats.decoded + (answers.filter Answer.failed).length ∧
        (∀ before name between found, requests = before ++ .find name :: between →
          answers[(before.filterMap Request.asked?).length]? = some { name, result := .ok found } →
          next name = (.ok (found.map fun c => between.foldl (Request.apply name) c),
            { run.2 with state := { bench with cache := bench.cache.hit } })) ∧
        ∀ name, (∀ a ∈ answers, a.name = name → a.failed = true) →
          match src.origin? (Path.ofClass name) with
          | none => (next name).1 = .ok none ∧ (next name).2.state.world = bench.world
          | some origin => ∃ content,
            let fetch : Fetch := { origin, path := Path.ofClass name, content }
            (next name).1 = (fetch.decode name).map some ∧
              (next name).2.state.world.fetches = bench.world.fetches ++ [fetch] := by
  intro run bench stats next
  refine ⟨mirrors_session src.mirrors_watched requests { world := { world := w } } notes, ?_⟩
  obtain ⟨answers, s, hrun, h⟩ := (src.ensures_session_watched requests w).exists_ok notes
  have hs : run = (.ok answers, s) := hrun
  have hbench : bench = s.state := by rw [show bench = run.2.state from rfl, hs]
  rw [← hbench] at h
  refine ⟨answers, by rw [hs], h.names, h.lookups, h.slots, h.misses, h.fetches, ?_, ?_⟩
  · intro before name between found hrequests hanswer
    exact find_of_slot (h.kept before name between found hrequests hanswer)
  · intro name hfailed
    have hslot : bench.cache.slots[name]? = none := by
      rw [← Option.not_isSome_iff_eq_none, ← Std.TreeMap.mem_iff_isSome_getElem?, h.known]
      rintro ⟨a, ha, hname, hok⟩
      rw [hfailed a ha hname] at hok
      simp at hok
    exact find_new hslot run.2.notes

/-- Two classes, one of them also in the fallback, which has a file that is no class. -/
def shadowingSources : Sources Unit where
  primary := twoClasses.reader []
  fallback := some <| Archive.Memory.reader [] {
    files := ((∅ : Std.TreeMap Path Bytes).insert "A.class" []).insert "Broken.class" [0xca, 0xfe] }

example :
    let run := shadowingSources.watched.session
      [.find "A", .edit "A" fun c => { c with name := "Edited" }, .find "A", .find "X", .find "X",
        .find "Broken", .find "Broken"] { state := { world := { world := () } } }
    run.2.state.cache.stats =
      { total := 2, hits := 2, misses := 4, decoded := 1, unresolved := 1 } ∧
      run.2.state.world.fetches.map Fetch.origin = [.primary, .fallback, .fallback] ∧
      run.2.state.world.fetches.map Fetch.path = ["A.class", "Broken.class", "Broken.class"] ∧
      run.1.toOption.map (·.map fun a => a.result.toOption.map (·.map (·.name))) =
        some [some (some ("A" : Bytes)), some (some ("Edited" : Bytes)), some none, some none,
          none, none] := by
  decide +kernel

end Repair

end JarRepair
