import JarRepair.Proofs.Volume.Nodes
import JarRepair.Proofs.Volume.Path

/-! # Where paths lead

A walk can be split at any name: the first part leads to a directory, from which the second part is
walked, or it fails. Without links it ends where its names alone lead. What a walk finds it also
finds in a volume that has more nodes. -/

namespace JarRepair.Volume

variable {v w u : Volume} {follow : Bool} {links : Nat} {base loc l : Location}
  {names rest : List Bytes}
  {name : Bytes} {n : Node} {P : Node → Prop}

/-! ## Steps -/

theorem advance_dot :
    v.advance follow base (Bytes.ascii "." :: rest) = v.advance follow base rest := by
  rw [advance, if_pos rfl]

/-- A step to a name that is neither `.` nor `..`. -/
theorem advance_name (hname : Path.isDots name = false) :
    v.advance follow base (name :: rest) =
      if name.length > maxName then .done (.error .nameTooLong)
      else
        match v.node? (base ++ [name]) with
        | none => .done (if rest = [] then .ok (.vacant (base ++ [name])) else .error .notFound)
        | some .directory => v.advance follow (base ++ [name]) rest
        | some (.link target) =>
          if rest = [] && !follow then .done (.ok (.found (base ++ [name]) (.link target)))
          else .jump base target rest
        | some n =>
          .done (if rest = [] then .ok (.found (base ++ [name]) n) else .error .notDirectory) := by
  rw [Path.isDots, Bool.or_eq_false_iff, decide_eq_false_iff_not, decide_eq_false_iff_not] at hname
  exact (if_neg hname.1).trans (if_neg hname.2)

theorem walk_of_done {r : Except Refusal Place} (h : v.advance follow base names = .done r) :
    v.walk follow links base names = r := by
  rw [walk, h]

theorem walk_of_jump {base' : Location} {target : Path}
    (h : v.advance follow base names = .jump base' target rest) :
    v.walk follow links base names =
      match links with
      | 0 => .error .tooManyLinks
      | links + 1 =>
        if target = [] then .error .notFound
        else
          v.walk follow links (if target.isAbsolute then [] else base')
            (target.components ++ rest) := by
  cases links <;> rw [walk, h]

theorem walk_congr (h : v.advance follow base names = v.advance follow loc rest) :
    v.walk follow links base names = v.walk follow links loc rest := by
  cases hstep : v.advance follow loc rest with
  | done r => rw [walk_of_done hstep, walk_of_done (h.trans hstep)]
  | jump base' target rest' => rw [walk_of_jump hstep, walk_of_jump (h.trans hstep)]

/-! ## Splitting a walk -/

/-- The first part of a walk comes to a directory, fails, or meets a link, whatever the second part
is. -/
theorem advance_append (v : Volume) (base : Location) (names : List Bytes) :
    (∃ loc, ∀ follow rest, rest ≠ [] →
      v.advance follow base (names ++ rest) = v.advance follow loc rest) ∨
    (∃ e, ∀ follow rest, rest ≠ [] → v.advance follow base (names ++ rest) = .done (.error e)) ∨
    ∃ base' target names', ∀ follow rest, rest ≠ [] →
      v.advance follow base (names ++ rest) = .jump base' target (names' ++ rest) := by
  induction names generalizing base with
  | nil => exact .inl ⟨base, fun _ _ _ => rfl⟩
  | cons name names ih =>
    by_cases hdot : name = "."
    · simpa only [List.cons_append, advance, if_pos hdot] using ih base
    · by_cases hdots : name = ".."
      · simpa only [List.cons_append, advance, if_neg hdot, if_pos hdots] using ih base.dropLast
      · have hname : Path.isDots name = false := by simp [Path.isDots, hdot, hdots]
        simp only [List.cons_append, advance_name hname]
        by_cases hlength : name.length > maxName
        · exact .inr (.inl ⟨.nameTooLong, fun _ _ _ => by rw [if_pos hlength]⟩)
        · simp only [if_neg hlength]
          have hne {rest : List Bytes} (hrest : rest ≠ []) : names ++ rest ≠ [] := by simp [hrest]
          split
          · exact .inr (.inl ⟨.notFound, fun _ _ hrest => by rw [if_neg (hne hrest)]⟩)
          · exact ih (base ++ [name])
          · rename_i target _
            exact .inr (.inr ⟨base, target, names, fun _ _ hrest => by simp [hrest]⟩)
          · exact .inr (.inl ⟨.notDirectory, fun _ _ hrest => by rw [if_neg (hne hrest)]⟩)

theorem walk_append (v : Volume) (links : Nat) (base : Location) (names : List Bytes) :
    (∃ loc links', ∀ follow rest, rest ≠ [] →
      v.walk follow links base (names ++ rest) = v.walk follow links' loc rest) ∨
    ∃ e, ∀ follow rest, rest ≠ [] → v.walk follow links base (names ++ rest) = .error e := by
  induction links generalizing base names with
  | zero =>
    rcases v.advance_append base names with ⟨loc, h⟩ | ⟨e, h⟩ | ⟨base', target, names', h⟩
    · exact .inl ⟨loc, 0, fun follow rest hrest => walk_congr (h follow rest hrest)⟩
    · exact .inr ⟨e, fun follow rest hrest => walk_of_done (h follow rest hrest)⟩
    · exact .inr ⟨.tooManyLinks, fun follow rest hrest => walk_of_jump (h follow rest hrest)⟩
  | succ links ih =>
    rcases v.advance_append base names with ⟨loc, h⟩ | ⟨e, h⟩ | ⟨base', target, names', h⟩
    · exact .inl ⟨loc, links + 1, fun follow rest hrest => walk_congr (h follow rest hrest)⟩
    · exact .inr ⟨e, fun follow rest hrest => walk_of_done (h follow rest hrest)⟩
    · have hjump (follow : Bool) (rest : List Bytes) (hrest : rest ≠ []) :=
        (walk_of_jump (h follow rest hrest) : v.walk follow (links + 1) base (names ++ rest) = _)
      by_cases htarget : target = []
      · simp only [if_pos htarget] at hjump
        exact .inr ⟨.notFound, hjump⟩
      · simp only [if_neg htarget, ← List.append_assoc] at hjump
        rcases ih (if target.isAbsolute then [] else base') (target.components ++ names') with
          ⟨loc, links', h'⟩ | ⟨e, h'⟩
        · exact .inl ⟨loc, links', fun follow rest hrest => (hjump follow rest hrest).trans
            (h' follow rest hrest)⟩
        · exact .inr
            ⟨e, fun follow rest hrest => (hjump follow rest hrest).trans (h' follow rest hrest)⟩

/-- The names lead to a directory. -/
def LeadsTo (v : Volume) (base : Location) (names : List Bytes) (loc : Location) : Prop :=
  v.walk true maxLinks base (names ++ [Bytes.ascii "."]) = .ok (.found loc .directory)

instance (v : Volume) (base : Location) (names : List Bytes) (loc : Location) :
    Decidable (v.LeadsTo base names loc) :=
  inferInstanceAs
    (Decidable
      (v.walk true maxLinks base (names ++ [Bytes.ascii "."]) = .ok (.found loc .directory)))

theorem walk_dot : v.walk follow links loc [Bytes.ascii "."] = .ok (.found loc .directory) :=
  walk_of_done (by rw [advance_dot, advance])

/-- From where the names lead, the rest is walked with the links that are left. -/
theorem LeadsTo.exists_walk (h : v.LeadsTo base names loc) : ∃ links, ∀ follow rest, rest ≠ [] →
    v.walk follow maxLinks base (names ++ rest) = v.walk follow links loc rest := by
  rcases v.walk_append maxLinks base names with ⟨loc', links, h'⟩ | ⟨e, h'⟩
  · have hloc := (h' true [Bytes.ascii "."] (by simp)).symm.trans h
    rw [walk_dot] at hloc
    obtain ⟨rfl, -⟩ := Place.found.inj (Except.ok.inj hloc)
    exact ⟨links, h'⟩
  · rw [LeadsTo, h' true _ (by simp)] at h
    simp at h

/-- A walk that does not fail comes through some directory. -/
theorem exists_leadsTo {p : Place} (hrest : rest ≠ [])
    (h : v.walk follow maxLinks base (names ++ rest) = .ok p) :
    ∃ loc, v.LeadsTo base names loc := by
  rcases v.walk_append maxLinks base names with ⟨loc, links, h'⟩ | ⟨e, h'⟩
  · exact ⟨loc, (h' true _ (by simp)).trans walk_dot⟩
  · rw [h' follow rest hrest] at h
    simp at h

/-- Nothing leads through a name that is not there. -/
theorem LeadsTo.not_through (h : v.LeadsTo base names loc) (hname : Path.isDots name = false)
    (hnode : v.node? (loc ++ [name]) = none) : ¬v.LeadsTo base (names ++ name :: rest) l := by
  intro hl
  obtain ⟨links, hwalk⟩ := h.exists_walk
  have hstep :
      ∃ e, v.advance true loc (name :: (rest ++ [Bytes.ascii "."])) = .done (.error e) := by
    rw [advance_name hname, hnode]
    split
    · exact ⟨_, rfl⟩
    · exact ⟨.notFound, by simp⟩
  obtain ⟨e, he⟩ := hstep
  rw [LeadsTo, List.append_assoc, hwalk true _ (by simp), List.cons_append, walk_of_done he] at hl
  simp at hl

theorem LeadsTo.unique (h : v.LeadsTo base names loc) (h' : v.LeadsTo base names l) : loc = l :=
  (Place.found.inj (Except.ok.inj (Eq.trans (Eq.symm h) h'))).1

/-- A directory's name leads on into it. -/
theorem LeadsTo.concat (h : v.LeadsTo base names loc) (hname : Path.isDots name = false)
    (hlength : name.length ≤ maxName) (hnode : v.node? (loc ++ [name]) = some .directory) :
    v.LeadsTo base (names ++ [name]) (loc ++ [name]) := by
  obtain ⟨links, hwalk⟩ := h.exists_walk
  rw [LeadsTo, List.append_assoc, hwalk true _ (by simp)]
  refine walk_of_done ?_
  rw [List.singleton_append, advance_name hname, if_neg (Nat.not_lt.mpr hlength), hnode]
  dsimp only
  rw [advance_dot, advance]

/-- A chain of directories leads on to its end. -/
theorem LeadsTo.append (h : v.LeadsTo base names loc)
    (hrest : ∀ name ∈ rest, Path.isDots name = false)
    (hlength : ∀ name ∈ rest, name.length ≤ maxName)
    (hnode : ∀ more, more ≠ [] → more <+: rest → v.node? (loc ++ more) = some .directory) :
    v.LeadsTo base (names ++ rest) (loc ++ rest) := by
  induction rest generalizing names loc with
  | nil =>
    rw [List.append_nil, List.append_nil]
    exact h
  | cons name rest ih =>
    rw [List.forall_mem_cons] at hrest hlength
    rw [List.append_cons names, List.append_cons loc]
    refine ih (h.concat hrest.1 hlength.1 (hnode [name] (by simp) (by simp))) hrest.2 hlength.2 ?_
    intro more _ hmore
    rw [← List.append_cons]
    exact hnode (name :: more) (by simp) ((List.prefix_cons_inj name).mpr hmore)

/-- With nothing but `.` and `..` a path stays among the directories above, whatever there is. -/
theorem exists_advance_dots (base : Location) (h : ∀ name ∈ names, Path.isDots name = true) :
    ∃ loc, ∀ (v : Volume) follow rest, v.advance follow base (names ++ rest) =
      v.advance follow loc rest := by
  induction names generalizing base with
  | nil => exact ⟨base, fun _ _ _ => rfl⟩
  | cons name names ih =>
    rw [List.forall_mem_cons] at h
    by_cases hdot : name = "."
    · simpa only [List.cons_append, advance, if_pos hdot] using ih base h.2
    · have hdots : name = ".." := by simpa [Path.isDots, hdot] using h.1
      simpa only [List.cons_append, advance, if_neg hdot, if_pos hdots] using ih base.dropLast h.2

/-- Along ordinary names it only matters what is on the way itself. -/
theorem advance_congr (hnames : ∀ name ∈ names, Path.isDots name = false)
    (hnode : ∀ more, more ≠ [] → more <+: names → w.node? (base ++ more) = v.node? (base ++ more)) :
    w.advance follow base names = v.advance follow base names := by
  induction names generalizing base with
  | nil => rfl
  | cons name names ih =>
    rw [List.forall_mem_cons] at hnames
    rw [advance_name hnames.1, advance_name hnames.1, hnode [name] (by simp) (by simp),
      ih hnames.2 fun more _ hmore => ?_]
    rw [← List.append_cons]
    exact hnode (name :: more) (by simp) ((List.prefix_cons_inj name).mpr hmore)

/-- Where there are no links, ordinary names are the way itself. -/
theorem exists_advance_ordinary (v : Volume) (follow : Bool) (base : Location)
    (hnames : ∀ name ∈ names, Path.isDots name = false)
    (hlinks : ∀ more target, more ≠ [] → more <+: names →
      v.node? (base ++ more) ≠ some (.link target)) :
    ∃ r, v.advance follow base names = .done r ∧ ∀ loc n, r = .ok (.found loc n) →
      names = [] ∨ loc = base ++ names ∧ v.node? (base ++ names) = some n := by
  induction names generalizing base with
  | nil => exact ⟨_, rfl, fun _ _ _ => .inl rfl⟩
  | cons name names ih =>
    rw [advance_name (hnames name List.mem_cons_self)]
    have hassoc (more : List Bytes) : base ++ [name] ++ more = base ++ name :: more := by simp
    split
    · exact ⟨_, rfl, fun _ _ hr => by simp at hr⟩
    · split
      · exact ⟨_, rfl, fun _ _ hr => by split at hr <;> simp at hr⟩
      · rename_i hnode
        obtain ⟨r, hstep, hr⟩ := ih (base ++ [name])
          (fun _ h => hnames _ (List.mem_cons_of_mem name h)) fun more target _ hmore => by
            rw [hassoc]
            exact hlinks (name :: more) target (by simp) ((List.prefix_cons_inj name).mpr hmore)
        refine ⟨r, hstep, fun loc n hfound => .inr ?_⟩
        rcases hr loc n hfound with rfl | hn
        · rw [advance] at hstep
          obtain ⟨rfl, rfl⟩ := Place.found.inj (Except.ok.inj ((Walk.done.inj hstep).trans hfound))
          exact ⟨rfl, hnode⟩
        · rwa [hassoc] at hn
      · rename_i target hnode
        exact absurd hnode (hlinks [name] target (by simp) (by simp))
      · rename_i hnode
        refine ⟨_, rfl, fun loc n hr => .inr ?_⟩
        split at hr
        · rename_i hnil
          obtain ⟨rfl, rfl⟩ := Place.found.inj (Except.ok.inj hr)
          rw [hnil]
          exact ⟨rfl, hnode⟩
        · simp at hr

/-! ## Where names lead -/

namespace Location

/-- A name leads down, but `..` leads up, and `.` and the empty name lead nowhere. -/
def step (loc : Location) (name : Bytes) : Location :=
  if name = [] ∨ name = "." then loc else if name = ".." then loc.dropLast else loc ++ [name]

def after (loc : Location) (names : List Bytes) : Location := names.foldl step loc

@[simp] theorem after_nil (loc : Location) : loc.after [] = loc := rfl

@[simp] theorem after_cons (loc : Location) (name : Bytes) (names : List Bytes) :
    loc.after (name :: names) = (loc.step name).after names := rfl

end Location

def Place.location : Place → Location
  | .found loc _ | .vacant loc => loc

/-- A walk goes on from where a name leads unless it has come to its end, or to a link. -/
theorem advance_cons (v : Volume) (follow : Bool) (base : Location) (rest : List Bytes)
    (hname : name ≠ []) :
    v.advance follow base (name :: rest) = v.advance follow (base.step name) rest ∨
    (∃ why, v.advance follow base (name :: rest) = .done (.error why)) ∨
    (∃ target, v.advance follow base (name :: rest) = .jump base target rest) ∨
    rest = [] ∧ ∃ place, v.advance follow base (name :: rest) = .done (.ok place) ∧
      place.location = base.step name := by
  by_cases hdot : name = "."
  · refine .inl ?_
    rw [advance, if_pos hdot, Location.step, if_pos (.inr hdot)]
  · have hnot : ¬(name = [] ∨ name = ".") := not_or.mpr ⟨hname, hdot⟩
    by_cases hdots : name = ".."
    · refine .inl ?_
      rw [advance, if_neg hdot, if_pos hdots, Location.step, if_neg hnot, if_pos hdots]
    · have hstep : base.step name = base ++ [name] := by
        rw [Location.step, if_neg hnot, if_neg hdots]
      rw [advance_name (by simp [Path.isDots, hdot, hdots]), hstep]
      split
      · exact .inr (.inl ⟨.nameTooLong, rfl⟩)
      · split
        · split
          · rename_i hend
            exact .inr (.inr (.inr ⟨hend, _, rfl, rfl⟩))
          · exact .inr (.inl ⟨.notFound, rfl⟩)
        · exact .inl rfl
        · split
          · rename_i hend
            exact .inr (.inr (.inr ⟨by simpa using (Bool.and_eq_true_iff.mp hend).1, _, rfl, rfl⟩))
          · exact .inr (.inr (.inl ⟨_, rfl⟩))
        · split
          · rename_i hend
            exact .inr (.inr (.inr ⟨hend, _, rfl, rfl⟩))
          · exact .inr (.inl ⟨.notDirectory, rfl⟩)

/-- A walk fails, ends where the names lead, or meets a link on the way there. -/
def Walk.Keeps (base : Location) (names : List Bytes) : Walk → Prop
  | .done (.ok place) => place.location = base.after names
  | .done (.error _) => True
  | .jump base' _ rest => ∃ front name, names = front ++ name :: rest ∧ base' = base.after front

theorem Walk.Keeps.cons {r : Walk} (h : r.Keeps (base.step name) names) :
    r.Keeps base (name :: names) := by
  cases r with
  | done r =>
    cases r with
    | error => trivial
    | ok place => exact h
  | jump base' target rest =>
    obtain ⟨front, next, hnames, hbase⟩ := h
    exact ⟨name :: front, next, by rw [hnames, List.cons_append], hbase⟩

theorem keeps_advance (v : Volume) (follow : Bool) (base : Location) (hnames : [] ∉ names) :
    (v.advance follow base names).Keeps base names := by
  induction names generalizing base with
  | nil =>
    rw [advance]
    rfl
  | cons name rest ih =>
    obtain ⟨hname, hrest⟩ := not_or.mp (mt List.mem_cons.mpr hnames)
    rcases v.advance_cons follow base rest (Ne.symm hname) with
        h | ⟨why, h⟩ | ⟨target, h⟩ | ⟨rfl, place, h, hplace⟩
    · rw [h]
      exact (ih (base.step name) hrest).cons
    · rw [h]
      trivial
    · rw [h]
      exact ⟨[], name, rfl, rfl⟩
    · rw [h]
      exact hplace

/-! ## Ends of walks -/

/-- What a place says is so: a directory apart, its node is there; or there is none. -/
def Place.IsIn (v : Volume) : Place → Prop
  | .found loc n => n = .directory ∨ loc ≠ [] ∧ v.node? loc = some n
  | .vacant loc => loc ≠ [] ∧ v.node? loc = none

theorem isIn_of_advance {place : Place} (h : v.advance follow base names = .done (.ok place)) :
    place.IsIn v := by
  induction names generalizing base with
  | nil =>
    rw [advance] at h
    obtain rfl := Except.ok.inj (Walk.done.inj h)
    exact .inl rfl
  | cons name names ih =>
    by_cases hdot : name = "."
    · rw [advance, if_pos hdot] at h
      exact ih h
    · by_cases hdots : name = ".."
      · rw [advance, if_neg hdot, if_pos hdots] at h
        exact ih h
      · rw [advance_name (by simp [Path.isDots, hdot, hdots])] at h
        split at h
        · simp at h
        · split at h
          · rename_i hnode
            split at h
            · obtain rfl := Except.ok.inj (Walk.done.inj h)
              exact ⟨by simp, hnode⟩
            · simp at h
          · exact ih h
          · rename_i hnode
            split at h
            · obtain rfl := Except.ok.inj (Walk.done.inj h)
              exact .inr ⟨by simp, hnode⟩
            · simp at h
          · rename_i hnode
            split at h
            · obtain rfl := Except.ok.inj (Walk.done.inj h)
              exact .inr ⟨by simp, hnode⟩
            · simp at h

theorem isIn_of_walk {place : Place} (h : v.walk follow links base names = .ok place) :
    place.IsIn v := by
  induction links generalizing base names with
  | zero =>
    cases hstep : v.advance follow base names with
    | done r => exact isIn_of_advance (hstep.trans (by rw [← h, walk_of_done hstep]))
    | jump => simp [walk_of_jump hstep] at h
  | succ links ih =>
    cases hstep : v.advance follow base names with
    | done r => exact isIn_of_advance (hstep.trans (by rw [← h, walk_of_done hstep]))
    | jump =>
      rw [walk_of_jump hstep] at h
      dsimp only at h
      split at h
      · simp at h
      · exact ih h

/-! ## More nodes -/

/-- The nodes with a property stay where they are. -/
structure Within (P : Node → Prop) (v w : Volume) : Prop where
  workingDirectory : w.workingDirectory = v.workingDirectory
  node? : ∀ loc n, P n → v.node? loc = some n → w.node? loc = some n

theorem Within.refl (P : Node → Prop) (v : Volume) : Within P v v := ⟨rfl, fun _ _ _ h => h⟩

theorem Within.trans (h : Within P v w) (h' : Within P w u) : Within P v u :=
  ⟨h'.workingDirectory.trans h.workingDirectory, fun loc n hn hv =>
    h'.node? loc n hn (h.node? loc n hn hv)⟩

theorem within_put (P : Node → Prop) (hloc : loc ≠ []) (h : v.node? loc = none) :
    Within P v (v.put loc n) := by
  refine ⟨rfl, fun l m _ hm => ?_⟩
  rw [node?_put hloc, if_neg, hm]
  rintro rfl
  rw [h] at hm
  simp at hm

/-- What can be walked through. -/
def Node.IsWay : Node → Prop
  | .directory | .link _ => True
  | _ => False

theorem Within.advance_eq (h : Within P v w) (hP : ∀ n : Node, n.IsWay → P n) (follow : Bool)
    (base : Location) (names : List Bytes) :
    w.advance follow base names = v.advance follow base names ∨
      ∃ r, v.advance follow base names = .done r ∧ ∀ loc n, r = .ok (.found loc n) → ¬P n := by
  induction names generalizing base with
  | nil => exact .inl rfl
  | cons name names ih =>
    by_cases hdot : name = "."
    · simpa only [advance, if_pos hdot] using ih base
    · by_cases hdots : name = ".."
      · simpa only [advance, if_neg hdot, if_pos hdots] using ih base.dropLast
      · have hname : Path.isDots name = false := by simp [Path.isDots, hdot, hdots]
        simp only [advance_name hname]
        by_cases hlength : name.length > maxName
        · exact .inl (by rw [if_pos hlength, if_pos hlength])
        · simp only [if_neg hlength]
          cases hnode : v.node? (base ++ [name]) with
          | none => exact .inr ⟨_, rfl, fun _ _ hr => by split at hr <;> simp at hr⟩
          | some n =>
            by_cases hn : P n
            · rw [h.node? _ n hn hnode]
              cases n with
              | directory => exact ih (base ++ [name])
              | _ => exact .inl rfl
            · cases n with
              | directory => exact absurd (hP .directory trivial) hn
              | link target => exact absurd (hP (.link target) trivial) hn
              | _ =>
                refine .inr ⟨_, rfl, fun _ _ hr => ?_⟩
                split at hr
                · obtain ⟨-, rfl⟩ := Place.found.inj (Except.ok.inj hr)
                  exact hn
                · simp at hr

/-- What is found is found again. -/
theorem Within.walk_eq (h : Within P v w) (hP : ∀ n : Node, n.IsWay → P n) (hn : P n)
    (hv : v.walk follow links base names = .ok (.found loc n)) :
    w.walk follow links base names = .ok (.found loc n) := by
  induction links generalizing base names with
  | zero =>
    rcases h.advance_eq hP follow base names with hstep | ⟨r, hstep, hr⟩
    · cases hv' : v.advance follow base names with
      | done r => rw [walk_of_done (hstep.trans hv'), ← hv, walk_of_done hv']
      | jump => simp [walk_of_jump hv'] at hv
    · rw [walk_of_done hstep] at hv
      exact absurd hn (hr loc n hv)
  | succ links ih =>
    rcases h.advance_eq hP follow base names with hstep | ⟨r, hstep, hr⟩
    · cases hv' : v.advance follow base names with
      | done r => rw [walk_of_done (hstep.trans hv'), ← hv, walk_of_done hv']
      | jump base' target rest =>
        rw [walk_of_jump hv'] at hv
        rw [walk_of_jump (hstep.trans hv')]
        dsimp only at hv ⊢
        split at hv
        · simp at hv
        · rename_i htarget
          rw [if_neg htarget]
          exact ih hv
    · rw [walk_of_done hstep] at hv
      exact absurd hn (hr loc n hv)

theorem LeadsTo.mono (h : v.LeadsTo base names loc) (hP : ∀ n : Node, n.IsWay → P n)
    (hw : Within P v w) : w.LeadsTo base names loc :=
  hw.walk_eq hP (hP _ trivial) h

end JarRepair.Volume
