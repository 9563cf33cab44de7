import LossSketch.Decimal.Shortest
import LossSketch.Trial.Run

/-!
# Simulations

* `Simulation` is a sketch with the parameters of its trials.
* `Simulation.run` checks them and runs the trials, each on a transmission of its own seed.
* `Report` is what a simulation tells: the messages in order, how many trials went wrong, and the
  size of the last receiver's snapshot.
* `Failure` is why there is no report. A simulation whose trials do not fit in memory, or whose
  numbers do not fit in a word, is not started.
-/

namespace LossSketch

/-- The sketch that is tried. -/
inductive Sketch
  | table (kind : Kind)
  | powerSum
  deriving DecidableEq

/-- The solver of the programs that peeling leaves. -/
inductive SolverChoice
  | backtracking
  /-- A solver outside of this library, which is never built in. -/
  | external
  deriving DecidableEq

/-- The solver that was chosen; without a limit on the nodes of its search. -/
def SolverChoice.solver : SolverChoice → Except Error Solver
  | backtracking => .ok fun program => program.firstSolution none
  | external => .error (.invalidConfig .solverNotBuilt)

/-- A sketch with the parameters of its trials. -/
structure Simulation where
  sketch : Sketch
  /-- The number of packets that the sender logs. -/
  logged : Nat := 10000
  /-- The probability with which a packet is lost. -/
  dropProbability : Float := 0.001
  /-- The receiver forges a packet. -/
  forging : Bool := false
  trials : Nat := 1
  /-- The session, whose seed is that of the first trial too. -/
  session : Session := { width := 32, modulus := 4294967291 }
  solver : SolverChoice := .backtracking

/-- What a simulation tells. -/
structure Report where
  messages : List String
  /-- The number of trials that went wrong. -/
  errors : Nat
  logged : Nat
  /-- The size of the last receiver's snapshot, zero without trials. -/
  snapshotBytes : Nat

/-- Why a simulation gives no report. -/
inductive Failure
  /-- A parameter cannot be used. -/
  | error (error : Error)
  /-- It takes more memory than there is, or larger numbers than a word holds. -/
  | tooLarge
  deriving DecidableEq

namespace Simulation

variable (s : Simulation)

/-- Refuses a session that cannot be used, packets whose bits cannot be numbered by 64-bit words, and
a number that is no probability. -/
def check : Except Failure Unit := do
  s.session.check.mapError .error
  if UInt64.size ≤ 8 * s.session.packetBytes.toNat then throw .tooLarge
  if !(0 ≤ s.dropProbability && s.dropProbability ≤ 1) then
    throw (.error (.invalidConfig (.dropProbability (floatText s.dropProbability))))

/-- The memory that there is for a trial, in bytes. -/
def memory : Nat := 1 <<< 36

/-- The least memory that a trial takes: an entry of three words for each packet that is sent, one
packet, and for a table two words for each bucket. -/
def trialBytes : Nat :=
  24 * s.logged + s.session.packetBytes.toNat +
    match s.sketch with
    | .table _ => 16 * s.session.buckets.toNat
    | .powerSum => 0

/-- A trial fits in memory, and the seeds of all trials in a word. -/
def fits : Bool := s.trialBytes ≤ memory && s.session.seed.toNat + s.trials ≤ UInt64.size

/-- A trial on a transmission. -/
def trial (solver : Solver) (t : Transmission) : Except Error Trial :=
  match s.sketch with
  | .table kind => tableTrial kind s.session t solver
  | .powerSum => powerSumTrial s.session t

/-- The transmission of the trial of a number. -/
def transmission (number : Nat) : Option Transmission :=
  Transmission.seeded (s.session.seed + UInt64.ofNat number) s.logged s.session.packetBytes.toNat
    (Chance.ofProbability s.dropProbability) s.forging

/-- The report with a trial more; a transmission that cannot be drawn adds none. -/
def addTrial (solver : Solver) (report : Report) (number : Nat) : Except Error Report := do
  match s.transmission number with
  | none => return report
  | some t =>
    let trial ← s.trial solver t
    return { report with
      messages := report.messages
        ++ s!"trial {number}: dropped {t.lost.length}/{t.sent.length}" :: trial.messages
      errors := report.errors + if trial.verdict.isCorrect then 0 else 1
      snapshotBytes := trial.snapshotBytes }

/-- Runs the trials. Without any, nothing has to fit. -/
def run : Except Failure Report := do
  s.check
  let solver ← s.solver.solver.mapError .error
  if s.trials ≠ 0 && !s.fits then throw .tooLarge
  ((List.range s.trials).foldlM (s.addTrial solver) ⟨[], 0, s.logged, 0⟩).mapError .error

end Simulation

end LossSketch
