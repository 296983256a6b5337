import Mathlib
import HiveNative.Lib.MerkleDamgard
import HiveNative.Lib.Octets
import HiveNative.Lib.RootConstants

/-!
# RIPEMD-160 as it is published

The functions, the permutations and the constants of the specification, in its
own terms.  The word orders of the two lines are powers of the permutation `ρ`,
after `π` in the right line.  The amounts of the rotations belong to the words:
a word is rotated by the same amount in both lines of a round.  The constants are
roots of the first four primes.
-/

namespace Ripemd160

open Octets RootConstants

/-- The chaining value, and the five words of a line. -/
abbrev Hash := Vector Word 5

/-- The boolean function of step `j`. -/
def f (j : Nat) (x y z : Word) : Word :=
  match j / 16 with
  | 0 => x ^^^ y ^^^ z
  | 1 => (x &&& y) ||| (~~~x &&& z)
  | 2 => (x ||| ~~~y) ^^^ z
  | 3 => (x &&& z) ||| (y &&& ~~~z)
  | _ => x ^^^ (y ||| ~~~z)

/-- The permutation `ρ` of the words of a block. -/
def rho (i : Nat) : Nat := [7, 4, 13, 1, 10, 6, 15, 3, 12, 0, 9, 5, 2, 14, 11, 8].getD i 0

/-- The permutation `π` of the words of a block. -/
def pi (i : Nat) : Nat := (9 * i + 5) % 16

/-- The word of step `j` of the left line. -/
def r (j : Nat) : Nat := rho^[j / 16] (j % 16)

/-- The word of step `j` of the right line. -/
def r' (j : Nat) : Nat := rho^[j / 16] (pi (j % 16))

/-- The rotation of the word `i` in a round. -/
def shift (round i : Nat) : Nat :=
  ([[11, 14, 15, 12, 5, 8, 7, 9, 11, 13, 14, 15, 6, 7, 9, 8],
    [12, 13, 11, 15, 6, 9, 9, 7, 12, 15, 11, 13, 7, 8, 7, 7],
    [13, 15, 14, 11, 7, 7, 6, 8, 13, 14, 13, 12, 5, 5, 6, 9],
    [14, 11, 12, 14, 8, 6, 5, 5, 15, 12, 15, 14, 9, 9, 8, 6],
    [15, 12, 13, 13, 9, 5, 8, 6, 14, 11, 12, 11, 8, 6, 5, 5]].getD round []).getD i 0

/-- The constant of step `j` of the left line, from square roots. -/
def K (j : Nat) : Word :=
  match j / 16 with
  | 0 => 0
  | 1 => scaledRoot 30 2 2
  | 2 => scaledRoot 30 2 3
  | 3 => scaledRoot 30 2 5
  | _ => scaledRoot 30 2 7

/-- The constant of step `j` of the right line, from cube roots. -/
def K' (j : Nat) : Word :=
  match j / 16 with
  | 0 => scaledRoot 30 3 2
  | 1 => scaledRoot 30 3 3
  | 2 => scaledRoot 30 3 5
  | 3 => scaledRoot 30 3 7
  | _ => 0

/-- One step of a line: the value of its function, the word, the constant and the
rotation. -/
def step (v : Hash) (g x k : Word) (s : Nat) : Hash :=
  let T := (v[0] + g + x + k).rotateLeft s + v[4]
  #v[v[4], T, v[1], v[2].rotateLeft 10, v[3]]

/-- The step `j` of the left line over the words `X` of a block. -/
def leftStep (X : Nat → Word) (v : Hash) (j : Nat) : Hash :=
  step v (f j v[1] v[2] v[3]) (X (r j)) (K j) (shift (j / 16) (r j))

/-- The step `j` of the right line, whose functions come in the other order. -/
def rightStep (X : Nat → Word) (v : Hash) (j : Nat) : Hash :=
  step v (f (79 - j) v[1] v[2] v[3]) (X (r' j)) (K' j) (shift (j / 16) (r' j))

def left (X : Nat → Word) (H : Hash) : Hash := (List.range 80).foldl (leftStep X) H

def right (X : Nat → Word) (H : Hash) : Hash := (List.range 80).foldl (rightStep X) H

/-- The cross-combination of the chaining value and the two lines. -/
def combine (H v v' : Hash) : Hash :=
  #v[H[1] + v[2] + v'[3], H[2] + v[3] + v'[4], H[3] + v[4] + v'[0], H[4] + v[0] + v'[1],
    H[0] + v[1] + v'[2]]

/-- The chaining value after a block. -/
def compress (H : Hash) (block : List UInt8) : Hash :=
  combine H (left (wordLE block) H) (right (wordLE block) H)

/-- The initial chaining value. -/
def IV : Hash := #v[0x67452301, 0xefcdab89, 0x98badcfe, 0x10325476, 0xc3d2e1f0]

/-- The padded message: `0x80`, the least number of zeros, and the length in bits. -/
def padded (m : Message) : List UInt8 :=
  MerkleDamgard.pad 64 0x80 0 (octetsLE 8 m.bitLength) m.octets

/-- The digest of a message. -/
def ripemd160 (m : Message) : List UInt8 :=
  (MerkleDamgard.run 64 compress IV (padded m)).toList.flatMap (octetsLE 4)

end Ripemd160
