/-!
# Why a sketch cannot be built, combined or decoded

* `Error` is the cause, with the numbers that its text mentions.
* `Error.kind` names the cause, and `Error.message` is its text for a reader.
* `Error.diagnostic` is the form in which a failing command shows it: the kind with its parts.
* `Error.isTooFew` and `Error.isTooMany` tell the two directions of a wrong number of packets apart.
-/

namespace LossSketch

/-- In what two sketches that must agree differ. -/
inductive Difference
  | tableSizes (left right : Nat)
  | hashSchemes
  | moduli (left right : Nat)
  | widths
  | degrees (left right : Nat)
  | offsets (left right : Nat)
  | snapshotBuckets (found expected : Nat)
  | snapshotSums (found expected : Nat)
  deriving DecidableEq

/-- Which parameter cannot be used. -/
inductive ConfigFault
  | noBuckets
  | noHashes
  | width (bits : Nat)
  | noDegree
  | compositeModulus (modulus : Nat)
  | degreeTooLarge (degree modulus : Nat)
  | unevenRanges (buckets hashes : Nat)
  | shortPackets (packetBytes bits : Nat)
  | smallModulus (modulus : Nat)
  | offsetOutside (offset bits packetBytes : Nat)
  | snapshotOffset (offset : Nat)
  | sumOutsideField
  | dropProbability (text : String)
  | solverNotBuilt
  deriving DecidableEq

/-- Which operation was called out of place. -/
inductive Misuse
  | emptyRange
  | missingRow
  | decisionOrder
  | forbidsUnknown
  | forbidsTwice
  | insertFinalized
  | alreadyFinalized
  | notFinalized
  deriving DecidableEq

/-- What is wrong with a solver's answer, or why it gave none. -/
inductive SolverFault
  | violatesModel
  | gaveUp (nodes : Nat)
  | failed (text : String)
  deriving DecidableEq

/-- Why bytes cannot be read as a sketch. -/
inductive CodecFault
  | endOfInput
  | unknownPolicy (value : Nat)
  deriving DecidableEq

/-- Why a sketch cannot be built, combined or decoded. -/
inductive Error
  | structuralMismatch (difference : Difference)
  | cardinalityMismatch (expected found : Nat)
  | infeasible
  | spuriousRecovery (fingerprint : UInt32)
  | misuse (misuse : Misuse)
  | inconsistentBucket (bucket : Nat)
  | thresholdExceeded (count threshold : Nat)
  | packetTooShort (length needed : Nat)
  | invalidConfig (fault : ConfigFault)
  | solver (fault : SolverFault)
  | codec (fault : CodecFault)
  deriving DecidableEq

/-! ## Texts -/

/-- The text of a difference. -/
def Difference.message : Difference → String
  | tableSizes a b => s!"table sizes {a} and {b}"
  | hashSchemes => "hash schemes differ"
  | moduli a b => s!"moduli {a} and {b}"
  | widths => "fingerprint widths differ"
  | degrees a b => s!"power sum degrees {a} and {b}"
  | offsets a b => s!"fingerprint offsets {a} and {b}"
  | snapshotBuckets found expected => s!"snapshot has {found} buckets, configuration {expected}"
  | snapshotSums found expected => s!"snapshot has {found} power sums, configuration {expected}"

/-- The text of a fault in the parameters. -/
def ConfigFault.message : ConfigFault → String
  | noBuckets => "table needs at least one bucket"
  | noHashes => "need at least one hash function"
  | width bits => s!"fingerprint width must be 1..=32 bits, got {bits}"
  | noDegree => "power sum degree must be positive"
  | compositeModulus m => s!"modulus {m} is not prime"
  | degreeTooLarge d m => s!"power sum degree {d} must be below the modulus {m}"
  | unevenRanges n k => s!"{n} buckets cannot be split into {k} disjoint ranges"
  | shortPackets bytes bits => s!"{bytes}-byte packets cannot hold a {bits}-bit fingerprint"
  | smallModulus m => s!"modulus {m} is too small"
  | offsetOutside offset bits bytes =>
    s!"offset {offset} does not fit a {bits}-bit fingerprint in {bytes}-byte packets"
  | snapshotOffset offset => s!"snapshot offset {offset} out of range"
  | sumOutsideField => "power sum outside the field"
  | dropProbability text => s!"drop probability {text} is not in [0, 1]"
  | solverNotBuilt => "built without the glpk feature"

/-- The text of a misuse. -/
def Misuse.message : Misuse → String
  | emptyRange => "integer column with an empty range"
  | missingRow => "column entry names a missing row"
  | decisionOrder => "decision columns out of order"
  | forbidsUnknown => "excluded candidate has no column"
  | forbidsTwice => "excluded candidate listed twice"
  | insertFinalized => "insert into a finalized accumulator"
  | alreadyFinalized => "accumulator is already finalized"
  | notFinalized => "accumulator has not been finalized"

/-- The text of a fault of a solver. -/
def SolverFault.message : SolverFault → String
  | violatesModel => "solution violates the model"
  | gaveUp nodes => s!"gave up after {nodes} nodes"
  | failed text => text

/-- The text of a fault in the bytes of a snapshot. -/
def CodecFault.message : CodecFault → String
  | endOfInput => "io error: unexpected end of file"
  | unknownPolicy v => "invalid value: integer `" ++ toString v ++
      "`, expected variant index 0 <= i < 2"

namespace Error

/-- The name of the cause. -/
def kind : Error → String
  | structuralMismatch _ => "StructuralMismatch"
  | cardinalityMismatch _ _ => "CardinalityMismatch"
  | infeasible => "Infeasible"
  | spuriousRecovery _ => "SpuriousRecovery"
  | misuse _ => "Misuse"
  | inconsistentBucket _ => "InconsistentBucket"
  | thresholdExceeded _ _ => "ThresholdExceeded"
  | packetTooShort _ _ => "PacketTooShort"
  | invalidConfig _ => "InvalidConfig"
  | solver _ => "Solver"
  | codec _ => "Codec"

/-- The text for a reader. -/
def message : Error → String
  | structuralMismatch d => "structural mismatch: " ++ d.message
  | cardinalityMismatch expected found =>
    s!"expected {expected} dropped packets, recovered {found}"
  | infeasible => "reconciliation model is infeasible"
  | spuriousRecovery key => s!"recovered fingerprint {key} matches no sent packet"
  | misuse m => "misuse: " ++ m.message
  | inconsistentBucket b => s!"bucket {b} is inconsistent"
  | thresholdExceeded count threshold =>
    s!"{count} elements exceed the power sum threshold {threshold}"
  | packetTooShort length needed =>
    s!"packet of {length} bytes is shorter than the required {needed}"
  | invalidConfig fault => "invalid configuration: " ++ fault.message
  | solver fault => "solver error: " ++ fault.message
  | codec fault => "snapshot codec: " ++ fault.message

/-- A text between double quotes, with quotes and backslashes inside it escaped. -/
def quoted (text : String) : String :=
  "\"" ++ String.join (text.toList.map fun c =>
    if c = '"' then "\\\"" else if c = '\\' then "\\\\" else c.toString) ++ "\""

/-- The kind with its parts, as a failing command shows it. -/
def diagnostic (e : Error) : String :=
  let fields (parts : List (String × String)) : String :=
    e.kind ++ " \x7b " ++
      String.intercalate ", " (parts.map fun part => part.1 ++ ": " ++ part.2) ++ " \x7d"
  match e with
  | structuralMismatch d => fields [("what", quoted d.message)]
  | cardinalityMismatch expected found =>
    fields [("expected", toString expected), ("found", toString found)]
  | infeasible => e.kind
  | spuriousRecovery key => fields [("fingerprint", toString key)]
  | misuse m => e.kind ++ "(" ++ quoted m.message ++ ")"
  | inconsistentBucket b => fields [("bucket", toString b)]
  | thresholdExceeded count threshold =>
    fields [("count", toString count), ("threshold", toString threshold)]
  | packetTooShort length needed =>
    fields [("len", toString length), ("needed", toString needed)]
  | invalidConfig fault => e.kind ++ "(" ++ quoted fault.message ++ ")"
  | solver fault => e.kind ++ "(" ++ quoted fault.message ++ ")"
  | codec fault => e.kind ++ "(" ++ quoted fault.message ++ ")"

/-- Fewer packets were recovered than expected. -/
def isTooFew : Error → Bool
  | cardinalityMismatch expected found => found < expected
  | _ => false

/-- More packets were recovered than expected. -/
def isTooMany : Error → Bool
  | cardinalityMismatch expected found => expected < found
  | _ => false

end Error

end LossSketch
