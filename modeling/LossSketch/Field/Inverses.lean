import LossSketch.Field.Newton
import Std.Data.HashMap

/-!
# Tables of inverses

* `Field.inverseTable` lists the inverses of `1, 2, …` that Newton's identities divide by.
* `InverseTables` are the tables made so far, by modulus and length. `InverseTables.request` answers
  with the table kept there, or else makes it and keeps it for later requests.
-/

namespace LossSketch

/-- The inverses of `1, 2, …, degree`, with zero for a number that has none. -/
def Field.inverseTable (f : Field) (degree : Nat) : List UInt32 :=
  (List.range degree).map fun i => f.inverse (i + 1)

/-- The tables of inverses made so far, by modulus and length. -/
abbrev InverseTables := Std.HashMap (UInt32 × UInt64) (List UInt32)

namespace InverseTables

/-- The table of a field, and the tables that are kept from then on. -/
def request (tables : InverseTables) (f : Field) (degree : UInt64) : List UInt32 × InverseTables :=
  match tables[(f.modulus, degree)]? with
  | some table => (table, tables)
  | none =>
    let table := f.inverseTable degree.toNat
    (table, tables.insert (f.modulus, degree) table)

/-- The tables kept after a sequence of requests, from none on. -/
def after (requests : List (Field × UInt64)) : InverseTables :=
  requests.foldl (fun tables asked => (tables.request asked.1 asked.2).2) ∅

end InverseTables

end LossSketch
