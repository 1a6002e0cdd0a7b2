/-! # Key stream

The stream of words that seeded networks are drawn from: the ChaCha stream cipher with twelve rounds,
under a key that is expanded from a 64-bit seed. -/
namespace RobustMargin

structure KeyStream where
  key : List UInt32
  /-- The number of the next block. -/
  block : UInt64
  /-- Words of the last block that are not yet drawn. -/
  pending : List UInt32
  deriving DecidableEq, Repr

namespace KeyStream

def rotateLeft (x count : UInt32) : UInt32 := (x <<< count) ||| (x >>> (32 - count))

/-- A rotation by any amount, zero included. -/
def rotateRight (x count : UInt32) : UInt32 := (x >>> count) ||| (x <<< ((32 - count) % 32))

structure Quad where
  a : UInt32
  b : UInt32
  c : UInt32
  d : UInt32

def quarterRound (q : Quad) : Quad :=
  let a := q.a + q.b
  let d := rotateLeft (q.d ^^^ a) 16
  let c := q.c + d
  let b := rotateLeft (q.b ^^^ c) 12
  let a := a + b
  let d := rotateLeft (d ^^^ a) 8
  let c := c + d
  let b := rotateLeft (b ^^^ c) 7
  ⟨a, b, c, d⟩

/-- Four columns of four words, each holding one word of every row. -/
structure Columns where
  first : Quad
  second : Quad
  third : Quad
  fourth : Quad

/-- A round on the columns and a round on the diagonals. -/
def doubleRound (s : Columns) : Columns :=
  let p := quarterRound s.first
  let q := quarterRound s.second
  let r := quarterRound s.third
  let t := quarterRound s.fourth
  let p' := quarterRound ⟨p.a, q.b, r.c, t.d⟩
  let q' := quarterRound ⟨q.a, r.b, t.c, p.d⟩
  let r' := quarterRound ⟨r.a, t.b, p.c, q.d⟩
  let t' := quarterRound ⟨t.a, p.b, q.c, r.d⟩
  ⟨⟨p'.a, t'.b, r'.c, q'.d⟩, ⟨q'.a, p'.b, t'.c, r'.d⟩,
    ⟨r'.a, q'.b, p'.c, t'.d⟩, ⟨t'.a, r'.b, q'.c, p'.d⟩⟩

def Columns.toList (s : Columns) : List UInt32 :=
  [s.first.a, s.second.a, s.third.a, s.fourth.a, s.first.b, s.second.b, s.third.b, s.fourth.b,
    s.first.c, s.second.c, s.third.c, s.fourth.c, s.first.d, s.second.d, s.third.d, s.fourth.d]

/-- The state of a block: the constant row, the key, the block number and a zero nonce. -/
def initial (key : List UInt32) (block : UInt64) : Columns :=
  let k := fun i => key.getD i 0
  ⟨⟨0x61707865, k 0, k 4, block.toUInt32⟩, ⟨0x3320646e, k 1, k 5, (block >>> 32).toUInt32⟩,
    ⟨0x79622d32, k 2, k 6, 0⟩, ⟨0x6b206574, k 3, k 7, 0⟩⟩

/-- The sixteen words of a block. -/
def blockWords (key : List UInt32) (block : UInt64) : List UInt32 :=
  let start := initial key block
  (Nat.repeat doubleRound 6 start).toList.zipWith (· + ·) start.toList

/-- One word of the key for each step of a linear congruential generator. -/
def expandKey : Nat → UInt64 → List UInt32
  | 0, _ => []
  | count + 1, state =>
      let next := state * 6364136223846793005 + 11634580027462260723
      let mixed := (((next >>> 18) ^^^ next) >>> 27).toUInt32
      rotateRight mixed (next >>> 59).toUInt32 :: expandKey count next

def ofSeed (seed : Nat) : KeyStream := ⟨expandKey 8 seed.toUInt64, 0, []⟩

def joinWords (low high : UInt32) : UInt64 := low.toUInt64 ||| (high.toUInt64 <<< 32)

/-- The next 64 bits, low word first. -/
def next (stream : KeyStream) : UInt64 × KeyStream :=
  match stream.pending with
  | low :: high :: rest => (joinWords low high, { stream with pending := rest })
  | _ =>
      match blockWords stream.key stream.block with
      | low :: high :: rest =>
          (joinWords low high, ⟨stream.key, stream.block + 1, rest⟩)
      | _ => (0, stream)

/-- A number between a bound and its negative: 52 bits as the fraction of a double in `[1, 2)`,
moved and stretched. -/
def uniform (bound : Float) (stream : KeyStream) : Float × KeyStream :=
  let (bits, rest) := stream.next
  let unit := Float.ofBits ((bits >>> 12) ||| 0x3FF0000000000000) - 1.0
  (unit * (bound - (-bound)) + (-bound), rest)

end KeyStream
end RobustMargin
