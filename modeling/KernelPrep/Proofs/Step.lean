/-
  KernelPrep.Proofs.Step — steps that go through and steps that stop.

  Reading, editing and lowering are series of steps, each of which may fail.  A series goes
  through when each of its steps does, and stops at the first that does not, so that a proof
  takes it one step at a time.

  Main statements:
    * `Step.bind_of_ok`, `Step.bind_of_error` — what a series does, by its first step;
    * `Step.bind_ok`, `Step.except_bind_ok`, `Step.mapError_ok` — a series that went through;
    * `Step.forM_cases`, `Step.forM_exists` — a loop, by an invariant of what it has passed.
-/

namespace KernelPrep.Step

variable {ε σ α β : Type}

/-- A series goes on from where its first step ended. -/
theorem bind_of_ok {x : EStateM ε σ α} {f : α → EStateM ε σ β} {s mid : σ} {a : α}
    (h : x s = .ok a mid) : (x >>= f) s = f a mid := by
  show EStateM.bind x f s = _
  unfold EStateM.bind
  rw [h]

/-- Reading the state goes through and changes nothing. -/
theorem bind_get {f : σ → EStateM ε σ β} {s : σ} : (get >>= f) s = f s s := bind_of_ok rfl

/-- A series stops where its first step stops. -/
theorem bind_of_error {x : EStateM ε σ α} {f : α → EStateM ε σ β} {s mid : σ} {e : ε}
    (h : x s = .error e mid) : (x >>= f) s = .error e mid := by
  show EStateM.bind x f s = _
  unfold EStateM.bind
  rw [h]

/-- A series without failures goes on from where its first step ended. -/
theorem bind_state {x : StateM σ α} {f : α → StateM σ β} {s mid : σ} {a : α}
    (h : x s = (a, mid)) : (x >>= f) s = f a mid := by
  show StateT.bind x f s = _
  unfold StateT.bind
  rw [h]
  rfl

/-- Two steps went through when both did. -/
theorem bind_ok {x : EStateM ε σ α} {f : α → EStateM ε σ β} {s s' : σ} {b : β} :
    (x >>= f) s = .ok b s' ↔ ∃ a mid, x s = .ok a mid ∧ f a mid = .ok b s' := by
  show EStateM.bind x f s = _ ↔ _
  unfold EStateM.bind
  cases x s with
  | ok a mid =>
    constructor
    · intro h
      exact ⟨a, mid, rfl, h⟩
    · rintro ⟨a', mid', he, h⟩
      obtain ⟨rfl, rfl⟩ := EStateM.Result.ok.inj he
      exact h
  | error e mid => simp

/-- Returning a value. -/
theorem pure_ok {a b : α} {s s' : σ} :
    (pure a : EStateM ε σ α) s = .ok b s' ↔ a = b ∧ s = s' := by
  show EStateM.Result.ok a s = _ ↔ _
  simp

/-- Looking at the state. -/
theorem get_ok {s s' t : σ} : (get : EStateM ε σ σ) s = .ok t s' ↔ t = s ∧ s' = s := by
  show EStateM.Result.ok s s = _ ↔ _
  rw [EStateM.Result.ok.injEq]
  exact ⟨fun h => ⟨h.1.symm, h.2.symm⟩, fun h => ⟨h.1.symm, h.2.symm⟩⟩

/-- Changing the state. -/
theorem modify_ok {f : σ → σ} {s s' : σ} {u : Unit} :
    (modify f : EStateM ε σ Unit) s = .ok u s' ↔ s' = f s := by
  show EStateM.Result.ok PUnit.unit (f s) = _ ↔ _
  rw [EStateM.Result.ok.injEq]
  exact ⟨fun h => h.2.symm, fun h => ⟨rfl, h.symm⟩⟩

/-- Two steps go through if the first does and the second does on what it gives. -/
theorem except_bind_ok {x : Except ε α} {f : α → Except ε β} {b : β} :
    x >>= f = .ok b ↔ ∃ a, x = .ok a ∧ f a = .ok b := by
  cases x with
  | error error => simp [bind, Except.bind]
  | ok a => simp [bind, Except.bind]

/-- Naming an error changes nothing about what goes through. -/
theorem mapError_ok {ε' : Type} {x : Except ε α} {f : ε → ε'} {a : α} :
    x.mapError f = .ok a ↔ x = .ok a := by
  cases x with
  | error error =>
    show Except.error (f error) = .ok a ↔ _
    simp
  | ok b =>
    show Except.ok b = .ok a ↔ _
    simp

/-- What was computed from the result of a step that went through. -/
theorem toOption_map_eq_some {x : Except ε α} {f : α → β} {b : β} :
    x.toOption.map f = some b ↔ ∃ a, x = .ok a ∧ f a = b := by
  cases x with
  | error error => simp [Except.toOption]
  | ok a => simp [Except.toOption]

/-- Two steps fail if the first does, or the second on what the first gives. -/
theorem except_bind_error {x : Except ε α} {f : α → Except ε β} {e : ε} :
    x >>= f = .error e ↔ x = .error e ∨ ∃ a, x = .ok a ∧ f a = .error e := by
  cases x with
  | error error => simp [bind, Except.bind]
  | ok a => simp [bind, Except.bind]

/-- An error that was named was there. -/
theorem mapError_error {ε' : Type} {x : Except ε α} {f : ε → ε'} {e : ε'} :
    x.mapError f = .error e ↔ ∃ error, x = .error error ∧ f error = e := by
  cases x with
  | error error =>
    show Except.error (f error) = .error e ↔ _
    simp
  | ok a =>
    show Except.ok a = .error e ↔ _
    simp

/-- When one of several steps fails, the first that does gives the error. -/
theorem mapM_error {f : α → Except ε β} {items : List α} {e : ε}
    (h : items.mapM f = .error e) : ∃ item ∈ items, f item = .error e := by
  induction items with
  | nil => simp [pure, Except.pure] at h
  | cons item rest ih =>
    rw [List.mapM_cons] at h
    rcases except_bind_error.mp h with hfirst | ⟨b, -, hmore⟩
    · exact ⟨item, List.mem_cons_self, hfirst⟩
    · rcases except_bind_error.mp hmore with hrest | ⟨bs, -, hdone⟩
      · obtain ⟨other, hin, hother⟩ := ih hrest
        exact ⟨other, List.mem_cons_of_mem _ hin, hother⟩
      · simp [pure, Except.pure] at hdone

/-- When several steps go through, each result is that of one of them. -/
theorem mapM_ok {f : α → Except ε β} {items : List α} {results : List β}
    (h : items.mapM f = .ok results) {b : β} (hb : b ∈ results) :
    ∃ item ∈ items, f item = .ok b := by
  induction items generalizing results with
  | nil =>
    obtain rfl : results = [] := (Except.ok.inj h).symm
    simp at hb
  | cons item rest ih =>
    rw [List.mapM_cons] at h
    obtain ⟨first, hfirst, h⟩ := except_bind_ok.mp h
    obtain ⟨others, hothers, h⟩ := except_bind_ok.mp h
    obtain rfl := Except.ok.inj h
    rcases List.mem_cons.mp hb with rfl | hb
    · exact ⟨item, List.mem_cons_self, hfirst⟩
    · obtain ⟨other, hin, hother⟩ := ih hothers hb
      exact ⟨other, List.mem_cons_of_mem _ hin, hother⟩

/-- **A loop** whose steps keep an invariant or stop for a given reason goes through or stops
    at one of its items. -/
theorem forM_cases {f : α → EStateM ε σ Unit} {P : List α → σ → Prop}
    {Q : List α → α → ε → Prop} (items : List α)
    (hstep : ∀ done item rest s, items = done ++ item :: rest → P done s →
      (∃ s', f item s = .ok () s' ∧ P (done ++ [item]) s')
        ∨ ∃ e s', f item s = .error e s' ∧ Q done item e)
    {s : σ} (hstart : P [] s) :
    (∃ s', items.forM f s = .ok () s' ∧ P items s')
      ∨ ∃ done item rest e s', items = done ++ item :: rest ∧ items.forM f s = .error e s'
        ∧ Q done item e := by
  -- the invariant after the items `done`, while `rest` is still ahead
  have hloop : ∀ rest done s, items = done ++ rest → P done s →
      (∃ s', rest.forM f s = .ok () s' ∧ P items s')
        ∨ ∃ done item rest' e s', items = done ++ item :: rest' ∧ rest.forM f s = .error e s'
          ∧ Q done item e := by
    intro rest
    induction rest with
    | nil =>
      intro done s hitems hdone
      rw [List.append_nil] at hitems
      exact Or.inl ⟨s, rfl, hitems ▸ hdone⟩
    | cons item rest ih =>
      intro done s hitems hdone
      rcases hstep done item rest s hitems hdone with ⟨mid, hitem, hmid⟩ | ⟨e, mid, hitem, hq⟩
      · have hforM : (item :: rest).forM f s = rest.forM f mid := bind_of_ok hitem
        rw [hforM]
        exact ih (done ++ [item]) mid (by simp [hitems]) hmid
      · exact Or.inr ⟨done, item, rest, e, mid, hitems, bind_of_error hitem, hq⟩
  exact hloop items [] s rfl hstart

/-- **A loop** whose steps all keep an invariant goes through. -/
theorem forM_exists {f : α → EStateM ε σ Unit} {P : List α → σ → Prop} {items : List α}
    (hstep : ∀ done item rest s, items = done ++ item :: rest → P done s →
      ∃ s', f item s = .ok () s' ∧ P (done ++ [item]) s')
    {s : σ} (hstart : P [] s) : ∃ s', items.forM f s = .ok () s' ∧ P items s' := by
  rcases forM_cases (Q := fun _ _ _ => False) items (fun done item rest s hitems hdone =>
    Or.inl (hstep done item rest s hitems hdone)) hstart with hall | ⟨_, _, _, _, _, _, _, hq⟩
  · exact hall
  · exact hq.elim

end KernelPrep.Step
