/-!
# Computations that may fail

* `bind_eq_ok` takes a successful computation apart into its steps, `map_eq_ok` one whose last step
  cannot fail, and `bind_eq_error` one that fails.
* `mapM_eq_ok` and `foldlM_eq_ok` put the successful steps of a loop together, and
  `exists_of_mapM_eq_ok` takes a successful loop apart. A loop that fails does so in one of its
  steps (`exists_of_mapM_eq_error`).
* `run_ofExcept_bind` — in a state, a step that fails leaves it as it is.
-/

namespace LossSketch

variable {ε α β : Type}

theorem bind_eq_ok {x : Except ε α} {f : α → Except ε β} {b : β} :
    (x >>= f) = .ok b ↔ ∃ a, x = .ok a ∧ f a = .ok b := by
  cases x <;> simp [bind, Except.bind]

theorem bind_eq_error {x : Except ε α} {f : α → Except ε β} {e : ε} :
    (x >>= f) = .error e ↔ x = .error e ∨ ∃ a, x = .ok a ∧ f a = .error e := by
  cases x <;> simp [bind, Except.bind]

theorem ok_bind (a : α) (f : α → Except ε β) : (Except.ok a >>= f) = f a := rfl

theorem map_eq_ok {x : Except ε α} {f : α → β} {b : β} :
    f <$> x = .ok b ↔ ∃ a, x = .ok a ∧ f a = b := by
  cases x with
  | error e => exact ⟨nofun, nofun⟩
  | ok a =>
    constructor
    · rintro ⟨⟩
      exact ⟨a, rfl, rfl⟩
    · rintro ⟨_, ⟨⟩, rfl⟩
      rfl

theorem exists_map_eq_ok {x : Except ε α} {f : α → β} :
    (∃ b, f <$> x = .ok b) ↔ ∃ a, x = .ok a := by
  constructor
  · rintro ⟨b, hb⟩
    obtain ⟨a, ha, -⟩ := map_eq_ok.1 hb
    exact ⟨a, ha⟩
  · rintro ⟨a, ha⟩
    exact ⟨f a, map_eq_ok.2 ⟨a, ha, rfl⟩⟩

/-- A step that does not use the state leaves it as it is, also where it fails. -/
theorem run_ofExcept_bind {σ : Type} (x : Except ε α) (f : α → EStateM ε σ β) (s : σ) :
    (MonadExcept.ofExcept x >>= f).run s = match x with
      | .ok a => (f a).run s
      | .error e => .error e s := by
  cases x with
  | ok a => rfl
  | error e => rfl

theorem mapError_eq_ok {ε' : Type} {x : Except ε α} {f : ε → ε'} {a : α} :
    x.mapError f = .ok a ↔ x = .ok a := by
  cases x with
  | error e => exact ⟨nofun, nofun⟩
  | ok b =>
    constructor
    · rintro ⟨⟩
      rfl
    · rintro ⟨⟩
      rfl

/-- A loop in which every step succeeds answers what the steps answer. -/
theorem mapM_eq_ok {f : α → Except ε β} {g : α → β} {l : List α}
    (h : ∀ a ∈ l, f a = .ok (g a)) : l.mapM f = .ok (l.map g) := by
  induction l with
  | nil => rfl
  | cons a l ih =>
    rw [List.mapM_cons, h a List.mem_cons_self, ih fun b hb => h b (List.mem_cons_of_mem _ hb)]
    rfl

/-- Every step of a loop that succeeds does. -/
theorem exists_of_mapM_eq_ok {f : α → Except ε β} {l : List α} {bs : List β}
    (h : l.mapM f = .ok bs) : ∀ a ∈ l, ∃ b, f a = .ok b := by
  induction l generalizing bs with
  | nil => exact fun a ha => absurd ha List.not_mem_nil
  | cons a l ih =>
    rw [List.mapM_cons, bind_eq_ok] at h
    obtain ⟨b, hstep, h⟩ := h
    obtain ⟨others, hrest, -⟩ := bind_eq_ok.1 h
    intro c hc
    rcases List.mem_cons.1 hc with rfl | hmem
    · exact ⟨b, hstep⟩
    · exact ih hrest c hmem

/-- The error of a loop is that of a step. -/
theorem exists_of_mapM_eq_error {f : α → Except ε β} {l : List α} {e : ε}
    (h : l.mapM f = .error e) : ∃ a ∈ l, f a = .error e := by
  induction l with
  | nil => cases h
  | cons a l ih =>
    rw [List.mapM_cons, bind_eq_error] at h
    rcases h with hfail | ⟨b, -, h⟩
    · exact ⟨a, List.mem_cons_self, hfail⟩
    · -- the first step succeeds, so one of the others fails
      rcases bind_eq_error.1 h with hfail | ⟨others, -, h⟩
      · obtain ⟨c, hc, hstep⟩ := ih hfail
        exact ⟨c, List.mem_cons_of_mem _ hc, hstep⟩
      · cases h

/-- A loop in which every step succeeds comes to what the steps come to. -/
theorem foldlM_eq_ok {f : β → α → Except ε β} {g : β → α → β} {P : β → Prop} {l : List α}
    (h : ∀ a ∈ l, ∀ b, P b → f b a = .ok (g b a) ∧ P (g b a)) {b : β} (hb : P b) :
    l.foldlM f b = .ok (l.foldl g b) ∧ P (l.foldl g b) := by
  induction l generalizing b with
  | nil => exact ⟨rfl, hb⟩
  | cons a l ih =>
    obtain ⟨hstep, hnext⟩ := h a List.mem_cons_self b hb
    obtain ⟨hrest, hlast⟩ := ih (fun a ha => h a (List.mem_cons_of_mem _ ha)) hnext
    exact ⟨by rw [List.foldlM_cons, hstep, List.foldl_cons, ← hrest]; rfl, hlast⟩

end LossSketch
