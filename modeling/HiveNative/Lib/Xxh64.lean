import Mathlib
import HiveNative.Lib.MerkleDamgard

/-!
# XXH64 as it is published

The function in the terms of its specification.  A lane is the number that eight
octets write, the least significant first.  The stripes of 32 octets go through four
accumulators, which converge to one.  What is left behind the stripes is consumed by
lanes of eight octets, then of four, then octet by octet.  Sums and products are
those of words of 64 bits.
-/

namespace Xxh64

open MerkleDamgard

abbrev Word := BitVec 64

def prime1 : Word := 0x9e3779b185ebca87
def prime2 : Word := 0xc2b2ae3d27d4eb4f
def prime3 : Word := 0x165667b19e3779f9
def prime4 : Word := 0x85ebca77c2b2ae63
def prime5 : Word := 0x27d4eb2f165667c5

/-- The number that the octets write, the least significant first. -/
def lane (octets : List UInt8) : Word := BitVec.ofNat 64 (Nat.ofDigits 256 (octets.map UInt8.toNat))

def round (acc input : Word) : Word := (acc + input * prime2).rotateLeft 31 * prime1

def merge (acc v : Word) : Word := (acc ^^^ round 0 v) * prime1 + prime4

/-- The four accumulators. -/
structure Accumulators where
  acc1 : Word
  acc2 : Word
  acc3 : Word
  acc4 : Word
deriving Repr, DecidableEq

/-- The accumulators before the first stripe. -/
def start (seed : Word) : Accumulators :=
  ⟨seed + prime1 + prime2, seed + prime2, seed, seed - prime1⟩

/-- A stripe: each accumulator takes its lane. -/
def absorb (a : Accumulators) (stripe : List UInt8) : Accumulators :=
  ⟨round a.acc1 (lane (stripe.take 8)), round a.acc2 (lane ((stripe.drop 8).take 8)),
    round a.acc3 (lane ((stripe.drop 16).take 8)), round a.acc4 (lane ((stripe.drop 24).take 8))⟩

def converge (a : Accumulators) : Word :=
  [a.acc1, a.acc2, a.acc3, a.acc4].foldl merge
    (a.acc1.rotateLeft 1 + a.acc2.rotateLeft 7 + a.acc3.rotateLeft 12 + a.acc4.rotateLeft 18)

/-- What stands for the stripes: the accumulators, or the seed when there is none. -/
def stripes (seed : Word) (input : List UInt8) : Word :=
  if input.length < 32 then seed + prime5
  else converge ((split 32 input).foldl absorb (start seed))

/-- A lane of eight octets behind the stripes. -/
def eight (acc : Word) (octets : List UInt8) : Word :=
  (acc ^^^ round 0 (lane octets)).rotateLeft 27 * prime1 + prime4

/-- A lane of four octets. -/
def four (acc : Word) (octets : List UInt8) : Word :=
  (acc ^^^ lane octets * prime1).rotateLeft 23 * prime2 + prime3

/-- A single octet. -/
def one (acc : Word) (octet : UInt8) : Word :=
  (acc ^^^ lane [octet] * prime5).rotateLeft 11 * prime1

/-- The octets behind the stripes. -/
def consume (acc : Word) (octets : List UInt8) : Word :=
  let acc := (split 8 octets).foldl eight acc
  let octets := leftover 8 octets
  let acc := (split 4 octets).foldl four acc
  (leftover 4 octets).foldl one acc

def avalanche (acc : Word) : Word :=
  let acc := acc ^^^ (acc >>> 33)
  let acc := acc * prime2
  let acc := acc ^^^ (acc >>> 29)
  let acc := acc * prime3
  acc ^^^ (acc >>> 32)

def xxh64 (seed : Word) (input : List UInt8) : Word :=
  avalanche
    (consume (stripes seed input + BitVec.ofNat 64 input.length) (leftover 32 input))

end Xxh64
