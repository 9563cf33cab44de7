import Mathlib.Algebra.Order.Ring.Int
import LossSketch.Proofs.Error
import LossSketch.Word

/-!
# Results in and out of range

* `signed?_eq_some` and `Overflow.word?_of_signed64` — a result that is a signed word is itself,
  whatever would become of one out of range.
* `map_of_foldlM_modifyChecked` — a run of changes of an array that does not stop is one that cannot
  stop. `exists_foldlM_modifyChecked` — a run does not stop if each change takes its element to a
  state from which the changes to come can go on.
* `mapM_ite` — a loop stops if one of its steps does.
* `Checked.report_eq_ok` and `Checked.step_eq_ok` take the steps of a run apart.
* `Checked.Refines` — a run in words comes to what a run on numbers of any size comes to, or it may
  stop. `Checked.Refines.bind` follows both runs step by step.
-/

namespace LossSketch

variable {α β : Type}

/-! ## Words -/

theorem signed?_eq_some {n m : Int} : signed? n = some m ↔ Signed64 n ∧ n = m := by
  unfold signed?
  split
  · rename_i h
    rw [Option.some.injEq, and_iff_right h]
  · rename_i h
    exact ⟨nofun, fun hm => absurd hm.1 h⟩

theorem signed?_of_signed64 {n : Int} (h : Signed64 n) : signed? n = some n := if_pos h

theorem signed?_eq_none {n : Int} (h : ¬ Signed64 n) : signed? n = none := if_neg h

theorem unsigned?_eq_some {n m : Nat} : unsigned? n = some m ↔ n < 2 ^ 64 ∧ n = m := by
  unfold unsigned?
  split
  · rename_i h
    rw [Option.some.injEq]
    exact (and_iff_right h).symm
  · rename_i h
    exact ⟨nofun, fun hm => absurd hm.1 h⟩

theorem unsigned?_eq_none {n : Nat} (h : ¬ n < 2 ^ 64) : unsigned? n = none := if_neg h

/-- A result in range is not changed. -/
theorem Overflow.word?_of_signed64 (overflow : Overflow) {n : Int} (h : Signed64 n) :
    overflow.word? n = some n := by
  cases overflow with
  | stops => exact signed?_of_signed64 h
  | wraps =>
    obtain ⟨hlower, hupper⟩ := h
    exact congrArg some (Int.bmod_eq_of_le (by omega) (by omega))

theorem signed64_of_natAbs_lt {n : Int} (h : n.natAbs < 2 ^ 63) : Signed64 n := by
  constructor <;> omega

/-! ## Elements of arrays -/

theorem modifyChecked_eq_some {a b : Array α} {i : Nat} {change : α → Option α} :
    modifyChecked a i change = some b ↔
      (a[i]? = none ∧ a = b) ∨
        ∃ x y, a[i]? = some x ∧ change x = some y ∧ a.setIfInBounds i y = b := by
  unfold modifyChecked
  cases ha : a[i]? with
  | none => simp
  | some x =>
    simp only [Option.bind_eq_bind, Option.bind_eq_some_iff, Option.pure_def, Option.some.injEq,
      reduceCtorEq, false_and, false_or]
    constructor
    · rintro ⟨y, hy, hb⟩
      exact ⟨x, y, rfl, hy, hb⟩
    · rintro ⟨_, y, rfl, hy, hb⟩
      exact ⟨y, hy, hb⟩

theorem size_of_modifyChecked {a b : Array α} {i : Nat} {change : α → Option α}
    (h : modifyChecked a i change = some b) : b.size = a.size := by
  rcases modifyChecked_eq_some.1 h with ⟨-, rfl⟩ | ⟨x, y, -, -, rfl⟩
  · rfl
  · exact Array.size_setIfInBounds

/-- Seen through a view of the elements, a change that does not stop is one that cannot stop. -/
theorem map_of_modifyChecked {view : α → β} {change : α → Option α} {change' : β → β}
    (hchange : ∀ x y, change x = some y → view y = change' (view x)) {a b : Array α} {i : Nat}
    (h : modifyChecked a i change = some b) : b.map view = (a.map view).modify i change' := by
  rcases modifyChecked_eq_some.1 h with ⟨hnone, rfl⟩ | ⟨x, y, hx, hy, rfl⟩
  · apply Array.ext_getElem?
    intro j
    rw [Array.getElem?_modify, Array.getElem?_map]
    by_cases hij : i = j
    · subst hij
      simp [hnone]
    · simp [hij]
  · apply Array.ext_getElem?
    intro j
    obtain ⟨hi, rfl⟩ := Array.getElem?_eq_some_iff.1 hx
    rw [Array.getElem?_modify, Array.getElem?_map, Array.getElem?_map,
      Array.getElem?_setIfInBounds]
    by_cases hij : i = j
    · subst hij
      simp [hi, hchange _ y hy]
    · simp [hij]

section Run

variable {γ : Type} {place : γ → Nat} {change : γ → α → Option α}

theorem map_of_foldlM_modifyChecked {view : α → β} {change' : γ → β → β}
    (hchange : ∀ e x y, change e x = some y → view y = change' e (view x)) {l : List γ}
    {a b : Array α}
    (h : l.foldlM (fun a e => modifyChecked a (place e) (change e)) a = some b) :
    b.map view = l.foldl (fun a e => a.modify (place e) (change' e)) (a.map view) := by
  induction l generalizing a with
  | nil =>
    rw [List.foldl_nil, Option.some.inj h]
  | cons e l ih =>
    rw [List.foldlM_cons] at h
    obtain ⟨behind, hbehind, h⟩ := Option.bind_eq_some_iff.1 h
    rw [List.foldl_cons, ih h, map_of_modifyChecked (hchange e) hbehind]

/-- What holds of all elements and of every result holds of all elements at the end. -/
theorem forall_of_foldlM_modifyChecked {Q : α → Prop}
    (hchange : ∀ e x y, change e x = some y → Q y) {l : List γ} {a b : Array α}
    (ha : ∀ x ∈ a, Q x)
    (h : l.foldlM (fun a e => modifyChecked a (place e) (change e)) a = some b) : ∀ x ∈ b, Q x := by
  induction l generalizing a with
  | nil => exact Option.some.inj h ▸ ha
  | cons e l ih =>
    rw [List.foldlM_cons] at h
    obtain ⟨behind, hbehind, h⟩ := Option.bind_eq_some_iff.1 h
    refine ih (fun z hz => ?_) h
    rcases modifyChecked_eq_some.1 hbehind with ⟨-, rfl⟩ | ⟨x, y, -, hy, rfl⟩
    · exact ha z hz
    · rcases Array.mem_or_eq_of_mem_setIfInBounds hz with hmem | rfl
      · exact ha z hmem
      · exact hchange e x z hy

/-- A run of changes goes through when each of them takes its element from one state to the next,
and leaves the states of the others alone. -/
theorem exists_foldlM_modifyChecked {P : List γ → Nat → α → Prop}
    (hstep : ∀ (e : γ) (l : List γ) (x : α),
      P (e :: l) (place e) x → ∃ y, change e x = some y ∧ P l (place e) y)
    (hskip : ∀ (e : γ) (l : List γ) (i : Nat) (x : α), place e ≠ i → P (e :: l) i x → P l i x)
    {l : List γ} {a : Array α} (h : ∀ (i : Nat) (x : α), a[i]? = some x → P l i x) :
    ∃ b, l.foldlM (fun a e => modifyChecked a (place e) (change e)) a = some b ∧
      b.size = a.size ∧ ∀ (i : Nat) (x : α), b[i]? = some x → P [] i x := by
  induction l generalizing a with
  | nil => exact ⟨a, rfl, rfl, h⟩
  | cons e l ih =>
    -- the first change is made at its place, if there is one
    have hbehind : ∃ behind, modifyChecked a (place e) (change e) = some behind ∧
        ∀ (i : Nat) (x : α), behind[i]? = some x → P l i x := by
      cases hx : a[place e]? with
      | none =>
        refine ⟨a, modifyChecked_eq_some.2 (Or.inl ⟨hx, rfl⟩), fun i x hi => ?_⟩
        refine hskip e l i x ?_ (h i x hi)
        rintro rfl
        rw [hx] at hi
        cases hi
      | some x =>
        obtain ⟨y, hy, hP⟩ := hstep e l x (h (place e) x hx)
        refine ⟨_, modifyChecked_eq_some.2 (Or.inr ⟨x, y, hx, hy, rfl⟩), fun i z hz => ?_⟩
        rw [Array.getElem?_setIfInBounds] at hz
        split at hz
        · rename_i hi
          subst hi
          split at hz
          · obtain rfl := Option.some.inj hz
            exact hP
          · cases hz
        · rename_i hi
          exact hskip e l i z hi (h i z hz)
    obtain ⟨behind, hmodify, hP⟩ := hbehind
    obtain ⟨b, hrest, hsize, hlast⟩ := ih hP
    refine ⟨b, ?_, hsize.trans (size_of_modifyChecked hmodify), hlast⟩
    rw [List.foldlM_cons]
    exact Option.bind_eq_some_iff.2 ⟨behind, hmodify, hrest⟩

end Run

/-! ## Runs -/

/-- A loop over steps that stop on a condition stops if one of its members does. -/
theorem mapM_ite {P : α → Prop} [DecidablePred P] (g : α → β) (l : List α) :
    (l.mapM fun a => if P a then some (g a) else none) =
      if ∀ a ∈ l, P a then some (l.map g) else none := by
  induction l with
  | nil => exact (if_pos fun _ h => absurd h List.not_mem_nil).symm
  | cons a l ih =>
    rw [List.mapM_cons, ih]
    by_cases ha : P a
    · rw [if_pos ha]
      by_cases hl : ∀ b ∈ l, P b
      · rw [if_pos hl, if_pos (List.forall_mem_cons.2 ⟨ha, hl⟩)]
        rfl
      · rw [if_neg hl, if_neg fun h => hl (List.forall_mem_cons.1 h).2]
        rfl
    · rw [if_neg ha, if_neg fun h => ha (List.forall_mem_cons.1 h).1]
      rfl

namespace Checked

theorem step_eq_ok {x : Option α} {a : α} : step x = .ok a ↔ x = some a := by
  cases x <;> simp [step]

theorem report_eq_ok {x : Except Error α} {a : α} : report x = .ok a ↔ x = .ok a := by
  cases x <;> simp [report]

theorem report_eq_error {x : Except Error α} {e : Error} :
    report x = .error (.error e) ↔ x = .error e := by
  cases x <;> simp [report]

theorem report_ne_overflow (x : Except Error α) : report x ≠ .error .overflow := by
  cases x <;> simp [report]

/-! ## Runs in words and runs on numbers of any size -/

/-- A run in words comes to what the run on numbers of any size comes to, or it stops, if it
may. -/
def Refines (may : Prop) (x : Checked α) (y : Except Error α) : Prop :=
  x = report y ∨ may ∧ x = .error .overflow

namespace Refines

variable {may : Prop} {x : Checked α} {y : Except Error α}

theorem report (may : Prop) (y : Except Error α) : Refines may (Checked.report y) y := Or.inl rfl

theorem step_some (may : Prop) (a : α) : Refines may (step (some a)) (.ok a) := Or.inl rfl

/-- A step of arithmetic that is exact where it does not stop. -/
theorem step_of_exact {r : Option α} {a : α} (h : ∀ b, r = some b → b = a) :
    Refines True (step r) (.ok a) := by
  cases r with
  | none => exact Or.inr ⟨trivial, rfl⟩
  | some b => exact Or.inl (h b rfl ▸ rfl)

/-- A run that may stop comes to something on numbers of any size. -/
theorem exists_refines (x : Checked α) : ∃ y, Refines True x y := by
  cases x with
  | ok a => exact ⟨.ok a, Or.inl rfl⟩
  | error halt =>
    cases halt with
    | overflow => exact ⟨.error .infeasible, Or.inr ⟨trivial, rfl⟩⟩
    | error e => exact ⟨.error e, Or.inl rfl⟩

theorem mono {may' : Prop} (h : Refines may x y) (himp : may → may') : Refines may' x y :=
  h.imp_right fun hstops => ⟨himp hstops.1, hstops.2⟩

/-- A step of arithmetic that stops on a condition. -/
theorem step_ite (P : Prop) [Decidable P] (a : α) :
    Refines (¬ P) (step (if P then some a else none)) (.ok a) := by
  by_cases h : P
  · rw [if_pos h]
    exact step_some _ a
  · rw [if_neg h]
    exact Or.inr ⟨h, rfl⟩

/-- A run that may not stop is exact. -/
theorem eq_report (h : Refines may x y) (hnot : ¬ may) : x = Checked.report y :=
  h.resolve_right fun hstops => hnot hstops.1

/-- A run that does not stop is exact. -/
theorem eq_report_of_ne (h : Refines may x y) (hne : x ≠ .error .overflow) :
    x = Checked.report y :=
  h.resolve_right fun hstops => hne hstops.2

/-- What is answered in words is what is answered on numbers of any size. -/
theorem eq_ok (h : Refines may x y) {a : α} (hx : x = .ok a) : y = .ok a := by
  rcases h with rfl | ⟨-, hstops⟩
  · exact report_eq_ok.1 hx
  · cases hstops.symm.trans hx

/-- Both runs go on alike behind a step that both have made. -/
theorem bind (h : Refines may x y) {f : α → Checked β} {g : α → Except Error β}
    (hrest : ∀ a, y = .ok a → Refines may (f a) (g a)) : Refines may (x >>= f) (y >>= g) := by
  rcases h with rfl | ⟨hmay, rfl⟩
  · cases y with
    | ok a => exact hrest a rfl
    | error e => exact Or.inl rfl
  · exact Or.inr ⟨hmay, rfl⟩

/-- A step of arithmetic has no part in the run on numbers of any size. -/
theorem bind_step {r : Option α} {a : α} (h : Refines may (step r) (.ok a)) {f : α → Checked β}
    {z : Except Error β} (hrest : Refines may (f a) z) : Refines may (step r >>= f) z := by
  rcases h with hexact | ⟨hmay, hstops⟩
  · rw [hexact]
    exact hrest
  · rw [hstops]
    exact Or.inr ⟨hmay, rfl⟩

/-- Errors may be changed alike, where stopping stays stopping. -/
theorem mapError (h : Refines may x y) {f : Halt → Halt} {g : Error → Error}
    (hoverflow : f .overflow = .overflow) (herror : ∀ e, f (.error e) = .error (g e)) :
    Refines may (x.mapError f) (y.mapError g) := by
  rcases h with rfl | ⟨hmay, rfl⟩
  · cases y with
    | ok a => exact Or.inl rfl
    | error e => exact Or.inl (congrArg Except.error (herror e))
  · exact Or.inr ⟨hmay, congrArg Except.error hoverflow⟩

end Refines

end Checked

end LossSketch
