import JarRepair.Task

/-! # What tasks ensure

A task is described by what holds of its result and state when it ends well, and of its error and
state when it fails. Notes are never read back by a task of the repair, so descriptions hold
whatever has been noted before. -/

namespace JarRepair.Task

variable {σ τ α β : Type} {t : Task σ α} {s : σ} {Q Q' : α → σ → Prop} {E E' : Error → σ → Prop}

/-- Run on `s`, the task ends with a result and a state in `Q`, or with an error and a state in
`E`. -/
def Ensures (t : Task σ α) (s : σ) (Q : α → σ → Prop) (E : Error → σ → Prop) : Prop :=
  ∀ notes, match t { state := s, notes } with
    | (.ok a, s') => Q a s'.state
    | (.error e, s') => E e s'.state

/-! ## Runs -/

theorem bind_apply (t : Task σ α) (f : α → Task σ β) (s : Traced σ) :
    (t >>= f) s = ExceptT.bindCont f (t s).1 (t s).2 := rfl

theorem bind_run_eq_ok_iff {f : α → Task σ β} {s s' : Traced σ} {b : β} :
    (t >>= f) s = (.ok b, s') ↔ ∃ a s₁, t s = (.ok a, s₁) ∧ f a s₁ = (.ok b, s') := by
  rw [bind_apply]
  obtain ⟨e | a, s₁⟩ := t s
  · exact ⟨nofun, nofun⟩
  · constructor
    · exact fun h => ⟨a, s₁, rfl, h⟩
    · rintro ⟨_, _, ⟨⟩, h⟩
      exact h

theorem mapError_run_eq_ok_iff {f : Error → Error} {s s' : Traced σ} {a : α} :
    mapError f t s = (.ok a, s') ↔ t s = (.ok a, s') := by
  rw [mapError]
  obtain ⟨e | a', s₁⟩ := t s
  · exact ⟨nofun, nofun⟩
  · exact Iff.rfl

theorem Ensures.of_ok (h : t.Ensures s Q E) {notes : Array Log.Note} {a : α} {s' : Traced σ}
    (hrun : t { state := s, notes } = (.ok a, s')) : Q a s'.state := by
  have h' := h notes
  rwa [hrun] at h'

theorem Ensures.exists_ok (h : t.Ensures s Q fun _ _ => False) (notes : Array Log.Note) :
    ∃ a s', t { state := s, notes } = (.ok a, s') ∧ Q a s'.state := by
  have h' := h notes
  split at h'
  · rename_i a s' hrun
    exact ⟨a, s', hrun, h'⟩
  · exact h'.elim

theorem Ensures.mono (h : t.Ensures s Q E) (hQ : ∀ a s', Q a s' → Q' a s')
    (hE : ∀ e s', E e s' → E' e s') : t.Ensures s Q' E' := by
  intro notes
  have h' := h notes
  split at h'
  · exact hQ _ _ h'
  · exact hE _ _ h'

theorem Ensures.and (h : t.Ensures s Q E) (h' : t.Ensures s Q' E') :
    t.Ensures s (fun a s' => Q a s' ∧ Q' a s') (fun e s' => E e s' ∧ E' e s') := by
  intro notes
  have h₁ := h notes
  have h₂ := h' notes
  split at h₁
  · rename_i hrun
    rw [hrun] at h₂
    exact ⟨h₁, h₂⟩
  · rename_i hrun
    rw [hrun] at h₂
    exact ⟨h₁, h₂⟩

theorem ensures_any (t : Task σ α) (s : σ) : t.Ensures s (fun _ _ => True) (fun _ _ => True) := by
  intro notes
  split <;> trivial

/-! ## Steps -/

theorem ensures_pure {a : α} : (pure a : Task σ α).Ensures s Q E ↔ Q a s :=
  ⟨fun h => h #[], fun h _ => h⟩

theorem ensures_throw {e : Error} : (throw e : Task σ α).Ensures s Q E ↔ E e s :=
  ⟨fun h => h #[], fun h _ => h⟩

theorem Ensures.bind {f : α → Task σ β} {Q : β → σ → Prop}
    (h : t.Ensures s (fun a s' => (f a).Ensures s' Q E) E) : (t >>= f).Ensures s Q E := by
  intro notes
  have h' := h notes
  rw [bind_apply]
  rcases hrun : t { state := s, notes } with ⟨e | a, s'⟩
  · rw [hrun] at h'
    exact h'
  · rw [hrun] at h'
    exact h' s'.notes

theorem ensures_modify {f : Traced σ → Traced σ} {Q : PUnit → σ → Prop}
    (h : ∀ notes, Q ⟨⟩ (f { state := s, notes }).state) : (modify f : Task σ PUnit).Ensures s Q E :=
  fun notes => h notes

theorem ensures_note {level : Log.Level} {module message : Bytes} {Q : Unit → σ → Prop} :
    (note level module message).Ensures s Q E ↔ Q () s :=
  ⟨fun h => h #[], fun h _ => h⟩

theorem ensures_state {Q : σ → σ → Prop} : state.Ensures s Q E ↔ Q s s :=
  ⟨fun h => h #[], fun h _ => h⟩

theorem ensures_setState {s' : σ} {Q : Unit → σ → Prop} : (setState s').Ensures s Q E ↔ Q () s' :=
  ⟨fun h => h #[], fun h _ => h⟩

theorem ensures_modifyState {f : σ → σ} {Q : Unit → σ → Prop} :
    (modifyState f).Ensures s Q E ↔ Q () (f s) :=
  ⟨fun h => h #[], fun h _ => h⟩

theorem ensures_ofExcept {x : Except Error α} : (ofExcept x : Task σ α).Ensures s Q E ↔
    match x with
    | .ok a => Q a s
    | .error e => E e s := by
  cases x <;> exact ⟨fun h => h #[], fun h _ => h⟩

theorem ensures_ofStep {f : σ → Except Error α × σ} : (ofStep f).Ensures s Q E ↔
    match f s with
    | (.ok a, s') => Q a s'
    | (.error e, s') => E e s' := by
  simp only [Ensures, ofStep]
  obtain ⟨e | a, s'⟩ := f s <;> exact ⟨fun h => h #[], fun h _ => h⟩

theorem ensures_mapError {f : Error → Error} :
    (mapError f t).Ensures s Q E ↔ t.Ensures s Q fun e => E (f e) := by
  refine forall_congr' fun notes => ?_
  rw [mapError]
  obtain ⟨e | a, s'⟩ := t { state := s, notes } <;> rfl

theorem ensures_focus {part : σ → τ} {put : τ → σ → σ} {t : Task τ α} :
    (focus part put t).Ensures s Q E ↔
      t.Ensures (part s) (fun a s' => Q a (put s' s)) (fun e s' => E e (put s' s)) := by
  refine forall_congr' fun notes => ?_
  rw [focus]
  obtain ⟨e | a, s'⟩ := t { state := part s, notes } <;> rfl

/-! ## Loops -/

/-- An invariant of the items that are done, the result so far and the state holds after a fold if
each item keeps it. -/
theorem Ensures.foldlM {ι : Type} {f : β → ι → Task σ β} {I : List ι → β → σ → Prop}
    {items : List ι} {b : β} (h : ∀ done x rest b s, items = done ++ x :: rest → I done b s →
      (f b x).Ensures s (I (done ++ [x])) E) (hs : I [] b s) :
    (items.foldlM f b).Ensures s (I items) E := by
  suffices ∀ rest done b s, items = done ++ rest → I done b s →
      (rest.foldlM f b).Ensures s (I items) E from this items [] b s rfl hs
  intro rest
  induction rest with
  | nil =>
    intro done b s hitems hs
    rw [List.append_nil] at hitems
    subst hitems
    exact ensures_pure.mpr hs
  | cons x rest ih =>
    intro done b s hitems hs
    refine Ensures.bind ((h done x rest b s hitems hs).mono (fun b' s' hs' => ?_) fun _ _ => id)
    exact ih (done ++ [x]) b' s' (by rw [hitems, List.append_assoc, List.singleton_append]) hs'

/-- A loop whose body leaves the state alone leaves it alone. -/
theorem ensures_forIn {ι : Type} {f : ι → PUnit → Task σ (ForInStep PUnit)} {items : List ι}
    (h : ∀ x, (f x ⟨⟩).Ensures s (fun r s' => r = .yield ⟨⟩ ∧ s' = s) E) :
    (forIn items ⟨⟩ f).Ensures s (fun _ s' => s' = s) E := by
  induction items with
  | nil => exact ensures_pure.mpr rfl
  | cons x items ih =>
    rw [List.forIn_cons]
    refine Ensures.bind ((h x).mono ?_ fun _ _ => id)
    rintro _ _ ⟨rfl, rfl⟩
    exact ih

/-! ## Outcomes -/

/-- Run on `s`, the task ends in one way whatever has been noted: with the result and state `x`, or
with an error if that is `none`. -/
def Ends (t : Task σ α) (s : σ) (x : Option (α × σ)) : Prop :=
  t.Ensures s (fun a s' => x = some (a, s')) (fun _ _ => x = none)

theorem Ends.unique {x y : Option (α × σ)} (h : t.Ends s x) (h' : t.Ends s y) : x = y := by
  have hboth := (h.and h') #[]
  split at hboth
  · exact hboth.1.trans hboth.2.symm
  · exact hboth.1.trans hboth.2.symm

theorem Ends.of_ensures {a : α} {s' : σ} (h : t.Ends s (some (a, s'))) (h' : t.Ensures s Q E) :
    Q a s' := by
  have hboth := (h.and h') #[]
  split at hboth
  · obtain ⟨rfl, rfl⟩ := Prod.mk.inj (Option.some.inj hboth.1)
    exact hboth.2
  · simp at hboth

theorem ends_pure {a : α} : (pure a : Task σ α).Ends s (some (a, s)) := ensures_pure.mpr rfl

theorem Ends.bind {f : α → Task σ β} {x : Option (α × σ)} {y : Option (β × σ)} (h : t.Ends s x)
    (hnone : x = none → y = none) (hsome : ∀ a s', x = some (a, s') → (f a).Ends s' y) :
    (t >>= f).Ends s y :=
  Ensures.bind (h.mono hsome fun _ _ => hnone)

/-- Folds end alike if their steps do. -/
theorem exists_ends_foldlM {κ ι : Type} {f : κ → β → ι → Task σ β}
    (h : ∀ b x s, ∃ y, ∀ k, (f k b x).Ends s y) (items : List ι) (b : β) (s : σ) :
    ∃ y, ∀ k, (items.foldlM (f k) b).Ends s y := by
  induction items generalizing b s with
  | nil => exact ⟨some (b, s), fun _ => ends_pure⟩
  | cons x items ih =>
    obtain ⟨y, hy⟩ := h b x s
    rcases y with _ | ⟨b', s'⟩
    · exact ⟨none, fun k => (hy k).bind (fun _ => rfl) nofun⟩
    · obtain ⟨z, hz⟩ := ih b' s'
      refine ⟨z, fun k => (hy k).bind nofun ?_⟩
      rintro _ _ ⟨⟩
      exact hz k

/-! ## Tasks on a larger state -/

/-- What the task `t` does to a part of its state is what `u` does to all of its own. -/
def Mirrors (part : τ → σ) (t : Task τ α) (u : Task σ α) : Prop :=
  ∀ w notes, u { state := part w, notes } = ((t { state := w, notes }).1,
    { state := part (t { state := w, notes }).2.state, notes := (t { state := w, notes }).2.notes })

section

variable {part : τ → σ} {t : Task τ α} {u : Task σ α}

theorem mirrors_pure {a : α} : Mirrors part (pure a) (pure a) := fun _ _ => rfl

theorem mirrors_note {level : Log.Level} {module message : Bytes} :
    Mirrors part (note level module message) (note level module message) := fun _ _ => rfl

theorem mirrors_throw {e : Error} : Mirrors part (throw e : Task τ α) (throw e) := fun _ _ => rfl

theorem mirrors_ofExcept {x : Except Error α} : Mirrors part (ofExcept x) (ofExcept x) :=
  fun _ _ => rfl

/-- A task that reads its state goes on alike from each state. -/
theorem mirrors_state_bind {f : τ → Task τ α} {g : σ → Task σ α}
    (h : ∀ w, Mirrors part (f w) (g (part w))) : Mirrors part (state >>= f) (state >>= g) :=
  fun w notes => h w w notes

theorem Mirrors.mapError (h : Mirrors part t u) {f : Error → Error} :
    Mirrors part (Task.mapError f t) (Task.mapError f u) := by
  intro w notes
  rw [Task.mapError, h w notes]
  rfl

theorem Mirrors.bind (h : Mirrors part t u) {f : α → Task τ β} {g : α → Task σ β}
    (hf : ∀ a, Mirrors part (f a) (g a)) : Mirrors part (t >>= f) (u >>= g) := by
  intro w notes
  rw [bind_apply, bind_apply, h w notes]
  obtain ⟨e | a, w', notes'⟩ := t { state := w, notes }
  · rfl
  · exact hf a w' notes'

/-- A change of the rest of the state is not seen. -/
theorem Mirrors.after_modifyState (h : Mirrors part t u) {f : τ → τ}
    (hf : ∀ w, part (f w) = part w) :
    Mirrors part (do modifyState f; t) u := by
  intro w notes
  have hrun : (do modifyState f; t : Task τ α) { state := w, notes } = t { state := f w, notes } :=
    rfl
  rw [hrun, ← h, hf]

theorem mirrors_focus {put : σ → τ → τ} (hput : ∀ s w, part (put s w) = s) :
    Mirrors part (focus part put u) u := by
  intro w notes
  rw [focus]
  obtain ⟨r, s', notes'⟩ := u { state := part w, notes }
  show (r, _) = (r, _)
  rw [hput]

theorem mirrors_foldlM {ι : Type} {f : β → ι → Task τ β} {g : β → ι → Task σ β}
    (h : ∀ b x, Mirrors part (f b x) (g b x)) (items : List ι) (b : β) :
    Mirrors part (items.foldlM f b) (items.foldlM g b) := by
  induction items generalizing b with
  | nil => exact mirrors_pure
  | cons x items ih => exact (h b x).bind ih

end

end JarRepair.Task
