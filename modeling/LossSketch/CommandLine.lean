import LossSketch.Decimal.Reading
import LossSketch.Trial.Simulation

/-!
# Arguments of the command line

* `Arguments.ofList?` splits arguments into the words that stand alone and the flags with their
  values. A value follows its flag, or is attached to it; one that follows does not begin with a
  dash. Behind two dashes there are no flags.
* `Simulation.ofArguments?` reads a simulation off the arguments. It takes one word, the sketch, and
  every flag at most once.
-/

namespace LossSketch

/-- Arguments, taken apart. -/
structure Arguments where
  words : List String
  /-- Each flag given, with its value; switches have none. -/
  flags : List (String × Option String)

namespace Arguments

/-- The flags that take no value. -/
def switches : List String := ["malicious", "disjoint"]

/-- The flags that take a value. -/
def settings : List String :=
  ["num-logged", "p-dropped", "trials", "seed", "buckets", "hashes", "fingerprint-bits", "modulus",
    "degree", "packet-bytes", "solver"]

/-- The flag that a letter stands for. -/
def flagOfLetter? : Char → Option String
  | 'n' => some "num-logged"
  | 'p' => some "p-dropped"
  | 'k' => some "hashes"
  | 'w' => some "fingerprint-bits"
  | 'd' => some "degree"
  | _ => none

/-- An argument: a word, or a flag with the value that is attached to it. -/
inductive Token
  | word (text : String)
  | flag (name : String) (attached : Option String)

/-- The token of an argument, unless it looks like a flag and is none. -/
def token? (argument : String) : Option Token :=
  match argument.toList with
  | '-' :: '-' :: rest =>
    let name := String.ofList (rest.takeWhile (· ≠ '='))
    let attached := match rest.dropWhile (· ≠ '=') with
      | _ :: value => some (String.ofList value)
      | [] => none
    if name ∈ switches ∨ name ∈ settings then some (.flag name attached) else none
  | ['-', letter] => (flagOfLetter? letter).map (.flag · none)
  | '-' :: letter :: '=' :: value
  | '-' :: letter :: value => (flagOfLetter? letter).map (.flag · (some (String.ofList value)))
  | _ => some (.word argument)

/-- Words and flags taken apart, unless a flag is unknown, lacks its value or has one too many. -/
def split? : List String → Option Arguments
  | [] => some ⟨[], []⟩
  | [argument] =>
    match token? argument with
    | some (.word text) => some ⟨[text], []⟩
    | some (.flag name attached) =>
      if attached.isSome ≠ (name ∈ switches) then some ⟨[], [(name, attached)]⟩ else none
    | none => none
  | argument :: next :: rest =>
    match token? argument with
    | some (.word text) => do
      let others ← split? (next :: rest)
      return { others with words := text :: others.words }
    | some (.flag name none) =>
      if name ∈ switches then do
        let others ← split? (next :: rest)
        return { others with flags := (name, none) :: others.flags }
      else if next.startsWith "-" then none
      else do
        let others ← split? rest
        return { others with flags := (name, some next) :: others.flags }
    | some (.flag name (some value)) =>
      if name ∈ switches then none
      else do
        let others ← split? (next :: rest)
        return { others with flags := (name, some value) :: others.flags }
    | none => none

/-- The arguments taken apart. Two dashes alone end the flags; whatever follows them is a word. -/
def ofList? (arguments : List String) : Option Arguments := do
  let a ← split? (arguments.takeWhile (· ≠ "--"))
  return { a with words := a.words ++ (arguments.dropWhile (· ≠ "--")).tail }

variable (a : Arguments)

/-- The switch is given. -/
def has (name : String) : Bool := a.flags.any (·.1 = name)

/-- The value of a flag, read, or the default where the flag is not given. -/
def value? {α : Type} (name : String) (read : String → Option α) (default : α) : Option α :=
  match a.flags.find? (·.1 = name) with
  | some (_, some text) => read text
  | some (_, none) => none
  | none => some default

/-- The value of a flag that is a number of 32 bits. It is read as an integer first, so zero may have
a minus sign. -/
def word32? (name : String) (default : UInt32) : Option UInt32 :=
  a.value? name (fun text => (integer? text.toList).bind fun n =>
    if 0 ≤ n ∧ n < UInt32.size then some (UInt32.ofNat n.toNat) else none) default

/-- The value of a flag that is a number of 64 bits. -/
def word64? (name : String) (default : UInt64) : Option UInt64 :=
  a.value? name (fun text => (natural? UInt64.size text).map UInt64.ofNat) default

/-- Every flag is given at most once. -/
def isDistinct : Bool := (a.flags.map Prod.fst).Nodup

end Arguments

/-- The sketch of a name. -/
def Sketch.ofName? : String → Option Sketch
  | "counting" => some (.table .counting)
  | "invertible" => some (.table .invertible)
  | "summing" => some (.table .summing)
  | "power-sum" => some .powerSum
  | _ => none

/-- The solver of a name. -/
def SolverChoice.ofName? : String → Option SolverChoice
  | "backtracking" => some .backtracking
  | "glpk" => some .external
  | _ => none

namespace Simulation

/-- The simulation that the arguments describe. -/
def ofArguments? (arguments : List String) : Option Simulation := do
  let a ← Arguments.ofList? arguments
  guard a.isDistinct
  let sketch ← match a.words with
    | [name] => Sketch.ofName? name
    | _ => none
  let base : Simulation := { sketch }
  let logged ← a.word64? "num-logged" (UInt64.ofNat base.logged)
  let dropProbability ← a.value? "p-dropped" float? base.dropProbability
  let trials ← a.word64? "trials" (UInt64.ofNat base.trials)
  let seed ← a.word64? "seed" base.session.seed
  let buckets ← a.word64? "buckets" base.session.buckets
  let hashes ← a.word32? "hashes" base.session.hashes
  let width ← a.word32? "fingerprint-bits" base.session.width
  let modulus ← a.word32? "modulus" base.session.modulus
  let degree ← a.word64? "degree" base.session.degree
  let packetBytes ← a.word64? "packet-bytes" base.session.packetBytes
  let solver ← a.value? "solver" SolverChoice.ofName? base.solver
  let policy := if a.has "disjoint" then Policy.disjoint else Policy.shared
  return {
    sketch, dropProbability, solver
    logged := logged.toNat
    forging := a.has "malicious"
    trials := trials.toNat
    session := { buckets, hashes, width, modulus, degree, policy, seed, packetBytes } }

end Simulation

end LossSketch
