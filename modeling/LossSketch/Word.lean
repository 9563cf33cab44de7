import LossSketch.Error

/-!
# Numbers that must fit a word

Counts of packets, coefficients of programs and the sums formed of them are signed words of 64 bits,
and sizes are unsigned ones.

* `signed?` and `unsigned?` are the words that numbers are. There is none for a number out of range.
* `Overflow` is what becomes of a result out of range: the run stops, or the word wraps around.
* `Checked` is the outcome of a run that stops at the first result out of range. `Checked.step` is
  a step of arithmetic of such a run, and `Checked.report` a step that may fail with an error.
-/

namespace LossSketch

/-- The range of signed words. -/
def Signed64 (n : Int) : Prop := -0x8000000000000000 ≤ n ∧ n < 0x8000000000000000

instance (n : Int) : Decidable (Signed64 n) := inferInstanceAs (Decidable (_ ∧ _))

/-- The signed word that a number is. -/
def signed? (n : Int) : Option Int :=
  if Signed64 n then some n else none

/-- The unsigned word that a number is. -/
def unsigned? (n : Nat) : Option Nat :=
  if n < 0x10000000000000000 then some n else none

/-- What becomes of a result that is no signed word. -/
inductive Overflow
  /-- The run stops. -/
  | stops
  /-- The word with the same last bits takes its place. -/
  | wraps
  deriving DecidableEq

/-- The signed word that a result becomes. -/
def Overflow.word? : Overflow → Int → Option Int
  | stops, n => signed? n
  | wraps, n => some (n.bmod 0x10000000000000000)

/-- Changes an element of an array; an array without the element stays as it is. -/
def modifyChecked {α : Type} (a : Array α) (i : Nat) (change : α → Option α) : Option (Array α) :=
  match a[i]? with
  | some x => do return a.setIfInBounds i (← change x)
  | none => some a

/-- Why a run has no answer. -/
inductive Halt
  /-- A result was no word. -/
  | overflow
  | error (e : Error)
  deriving DecidableEq

/-- The outcome of a run that stops at the first result out of range. -/
abbrev Checked := Except Halt

namespace Checked

variable {α : Type}

/-- A step of arithmetic. -/
def step : Option α → Checked α
  | some a => .ok a
  | none => .error .overflow

/-- A step that may fail with an error. -/
def report : Except Error α → Checked α
  | .ok a => .ok a
  | .error e => .error (.error e)

end Checked

end LossSketch
