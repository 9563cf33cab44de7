import LossSketch.Bucket.Hash
import LossSketch.Session

/-!
# Where a key lands

* `Session.place` reduces the hash of a hash function to a bucket, under the policy of the session.
* `Session.bucket` is the bucket of one hash function, and `Session.bucketsOf` lists those of all.

Two sessions that agree on buckets, hash functions, policy and seed place every key alike.
-/

namespace LossSketch

namespace Session

variable (s : Session)

/-- The bucket that hash function `i` sends a hash to. -/
def place (hash : UInt64) (i : Nat) : Nat :=
  match s.policy with
  | .shared => (hash % s.buckets).toNat
  | .disjoint => (hash % s.rangeSize).toNat + i * s.rangeSize.toNat

/-- The bucket that hash function `i` chooses for a key. -/
def bucket (key : UInt32) (i : Nat) : Nat :=
  s.place ((Probe.of key s.seed).hash i) i

/-- The buckets of a key, one per hash function; under the shared policy one may occur again. -/
def bucketsOf (key : UInt32) : List Nat :=
  ((Probe.of key s.seed).hashes s.hashes.toNat).zipIdx.map fun (hash, i) => s.place hash i

end Session

end LossSketch
