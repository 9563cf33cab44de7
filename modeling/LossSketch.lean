import LossSketch.Main
import LossSketch.Losses.Checked
import LossSketch.Proofs.Accumulator.EndToEnd
import LossSketch.Proofs.Losses.EndToEnd
import LossSketch.Proofs.Bucket.Stuck
import LossSketch.Proofs.Losses.Invertible
import LossSketch.Proofs.Program.Layout
import LossSketch.Proofs.Bucket.Conservation
import LossSketch.Proofs.Bucket.Run
import LossSketch.Proofs.Losses.Agreement
import LossSketch.Proofs.Snapshot.Foreign
import LossSketch.Proofs.Accumulator.Trial
import LossSketch.Proofs.Program.Enumeration
import LossSketch.Proofs.Losses.Mismatch
import LossSketch.Proofs.Accumulator.Polynomial
import LossSketch.Proofs.Snapshot.Canonical
import LossSketch.Proofs.Accumulator.Run
import LossSketch.Proofs.Trial.Transmission
import LossSketch.Proofs.Trial.PowerSums
import LossSketch.Proofs.Program.WordSearch
import LossSketch.Proofs.Program.Cardinality
import LossSketch.Proofs.Program.Exclusion
import LossSketch.Proofs.Field.Division
import LossSketch.Proofs.Bucket.Hash
import LossSketch.Proofs.Trial.Balance
import LossSketch.Proofs.Bucket.Parallel
import LossSketch.Proofs.Field.Arithmetic
import LossSketch.Proofs.Field.TrialDivision
