/-!
# A stream of pseudo-random words

* `Row` holds four words of the sixteen that a block of the ChaCha cipher is made of, and all four
  columns of a block are scrambled at once by `Block.columnRound` on its rows.
* `Block.output` is the block of a key and a counter after eight rounds.
* `Stream` hands out the words of block `0`, then those of block `1`, and so on.
* `Stream.seeded` expands a 64-bit seed to a key by a linear congruential generator with permuted
  output.
-/

namespace LossSketch

/-- `x` with its bits turned left by `n` places, for `0 < n < 32`. -/
def rotateLeft (x : UInt32) (n : UInt32) : UInt32 :=
  (x <<< n) ||| (x >>> (32 - n))

/-- Four words. -/
structure Row where
  a : UInt32
  b : UInt32
  c : UInt32
  d : UInt32

namespace Row

/-- The sums of matching words. -/
def add (x y : Row) : Row := ⟨x.a + y.a, x.b + y.b, x.c + y.c, x.d + y.d⟩

/-- The exclusive or of matching words, each turned left. -/
def xorRotate (x y : Row) (n : UInt32) : Row :=
  ⟨rotateLeft (x.a ^^^ y.a) n, rotateLeft (x.b ^^^ y.b) n,
    rotateLeft (x.c ^^^ y.c) n, rotateLeft (x.d ^^^ y.d) n⟩

/-- The words from the second on, and then the first. -/
def shift (x : Row) : Row := ⟨x.b, x.c, x.d, x.a⟩

/-- The words in order. -/
def toList (x : Row) : List UInt32 := [x.a, x.b, x.c, x.d]

end Row

/-- Sixteen words in four rows. -/
structure Block where
  r : Row
  s : Row
  t : Row
  u : Row

namespace Block

/-- One round on the columns. -/
def columnRound (x : Block) : Block :=
  let r := x.r.add x.s
  let u := x.u.xorRotate r 16
  let t := x.t.add u
  let s := x.s.xorRotate t 12
  let r := r.add s
  let u := u.xorRotate r 8
  let t := t.add u
  let s := s.xorRotate t 7
  ⟨r, s, t, u⟩

/-- A round on the columns and one on the diagonals. -/
def doubleRound (x : Block) : Block :=
  let y := x.columnRound
  let z := columnRound ⟨y.r, y.s.shift, y.t.shift.shift, y.u.shift.shift.shift⟩
  ⟨z.r, z.s.shift.shift.shift, z.t.shift.shift, z.u.shift⟩

/-- The sums of matching words. -/
def add (x y : Block) : Block := ⟨x.r.add y.r, x.s.add y.s, x.t.add y.t, x.u.add y.u⟩

/-- The words in order. -/
def toList (x : Block) : List UInt32 :=
  x.r.toList ++ x.s.toList ++ x.t.toList ++ x.u.toList

/-- The words of the block of a key and a counter. -/
def output (key₁ key₂ : Row) (counter : UInt64) : List UInt32 :=
  let start : Block :=
    ⟨⟨0x61707865, 0x3320646e, 0x79622d32, 0x6b206574⟩, key₁, key₂,
      ⟨counter.toUInt32, (counter >>> 32).toUInt32, 0, 0⟩⟩
  (start.doubleRound.doubleRound.doubleRound.doubleRound.add start).toList

end Block

/-- A key with the next block to compute, and the words that are left of the last. -/
structure Stream where
  key₁ : Row
  key₂ : Row
  counter : UInt64
  left : List UInt32

namespace Stream

/-- The next word. -/
def next (s : Stream) : UInt32 × Stream :=
  match s.left with
  | word :: left => (word, { s with left })
  | [] =>
    let words := Block.output s.key₁ s.key₂ s.counter
    (words.headD 0, { s with counter := s.counter + 1, left := words.tail })

/-- A word of the key, from the state behind it. -/
def keyWord (state : UInt64) : UInt32 :=
  let x := (((state >>> 18) ^^^ state) >>> 27).toUInt32
  let n := (state >>> 59).toUInt32
  (x >>> n) ||| (x <<< ((32 - n) % 32))

/-- The state after one more word of the key. -/
def advance (state : UInt64) : UInt64 :=
  state * 6364136223846793005 + 11634580027462260723

/-- The states after the first, second, … of `n` words. -/
def states : (n : Nat) → UInt64 → List UInt64
  | 0, _ => []
  | n + 1, state => advance state :: states n (advance state)

/-- The stream of a seed. -/
def seeded (seed : UInt64) : Stream :=
  match (states 8 seed).map keyWord with
  | [a, b, c, d, e, f, g, h] => ⟨⟨a, b, c, d⟩, ⟨e, f, g, h⟩, 0, []⟩
  | _ => ⟨⟨0, 0, 0, 0⟩, ⟨0, 0, 0, 0⟩, 0, []⟩

end Stream

end LossSketch
