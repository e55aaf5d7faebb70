import Mathlib

/-!
# The hash function

BLAKE3 comes from a crate.  The development takes it as a parameter, a function
from byte strings to digests (`Blake3`), and names what it needs of it where it
needs it.  `Blake3.reference` is the unkeyed hash of the published algorithm,
so that examples run on the digests the program computes.
-/

namespace Lilsync

/-- A BLAKE3 digest. -/
abbrev Hash := Vector UInt8 32

/-- The BLAKE3 hash function. -/
class Blake3 where
  digest : List UInt8 → Hash

namespace Blake3

/-! ## The compression function -/

/-- The initial chaining value. -/
def iv : List UInt32 :=
  [0x6A09E667, 0xBB67AE85, 0x3C6EF372, 0xA54FF53A, 0x510E527F, 0x9B05688C, 0x1F83D9AB, 0x5BE0CD19]

/-- Domain flags. -/
def chunkStart : UInt32 := 1
def chunkEnd : UInt32 := 2
def parentFlag : UInt32 := 4
def rootFlag : UInt32 := 8

def rotr (x : UInt32) (n : UInt32) : UInt32 := (x >>> n) ||| (x <<< (32 - n))

/-- The quarter round, on the words it mixes. -/
def quarter (a b c d mx my : UInt32) : UInt32 × UInt32 × UInt32 × UInt32 :=
  let a := a + b + mx
  let d := rotr (d ^^^ a) 16
  let c := c + d
  let b := rotr (b ^^^ c) 12
  let a := a + b + my
  let d := rotr (d ^^^ a) 8
  let c := c + d
  let b := rotr (b ^^^ c) 7
  (a, b, c, d)

/-- One round: the columns, then the diagonals. -/
def round : List UInt32 → List UInt32 → List UInt32
  | [v0, v1, v2, v3, v4, v5, v6, v7, v8, v9, v10, v11, v12, v13, v14, v15],
    [m0, m1, m2, m3, m4, m5, m6, m7, m8, m9, m10, m11, m12, m13, m14, m15] =>
    let (v0, v4, v8, v12) := quarter v0 v4 v8 v12 m0 m1
    let (v1, v5, v9, v13) := quarter v1 v5 v9 v13 m2 m3
    let (v2, v6, v10, v14) := quarter v2 v6 v10 v14 m4 m5
    let (v3, v7, v11, v15) := quarter v3 v7 v11 v15 m6 m7
    let (v0, v5, v10, v15) := quarter v0 v5 v10 v15 m8 m9
    let (v1, v6, v11, v12) := quarter v1 v6 v11 v12 m10 m11
    let (v2, v7, v8, v13) := quarter v2 v7 v8 v13 m12 m13
    let (v3, v4, v9, v14) := quarter v3 v4 v9 v14 m14 m15
    [v0, v1, v2, v3, v4, v5, v6, v7, v8, v9, v10, v11, v12, v13, v14, v15]
  | v, _ => v

/-- The order in which a round finds the words of the message of the round before. -/
def permute (m : List UInt32) : List UInt32 :=
  [2, 6, 3, 10, 7, 0, 4, 13, 1, 11, 12, 5, 9, 14, 15, 8].map fun i ↦ m.getD i 0

/-- `n` rounds. -/
def rounds : Nat → List UInt32 → List UInt32 → List UInt32
  | 0, v, _ => v
  | n + 1, v, m => rounds n (round v m) (permute m)

/-- Compress a block of sixteen words into the next chaining value. -/
def compress (cv m : List UInt32) (counter : Nat) (blockLen flags : UInt32) : List UInt32 :=
  let v := rounds 7 (cv ++ iv.take 4 ++
    [counter.toUInt32, (counter >>> 32).toUInt32, blockLen, flags]) m
  List.zipWith (· ^^^ ·) (v.take 8) (v.drop 8)

/-! ## Chunks and the tree over them -/

/-- The little-endian words of a block, padded with zeros. -/
def blockWords (block : List UInt8) : List UInt32 :=
  (List.range 16).map fun i ↦
    (List.range 4).foldl (fun w j ↦ w ||| ((block.getD (4 * i + j) 0).toUInt32 <<< (8 * j.toUInt32))) 0

/-- Run through the blocks of a chunk.  The last block carries the flags of the
end of the chunk and, for the root, `last`. -/
def chunkBlocks (counter : Nat) (last : UInt32) :
    Nat → List UInt32 → UInt32 → List UInt8 → List UInt32
  | 0, cv, _, _ => cv
  | n + 1, cv, start, bytes =>
    let m := blockWords (bytes.take 64)
    if bytes.length ≤ 64 then
      compress cv m counter bytes.length.toUInt32 (start ||| chunkEnd ||| last)
    else chunkBlocks counter last n (compress cv m counter 64 start) 0 (bytes.drop 64)

/-- The chaining value of a chunk of at most 1024 bytes. -/
def chunk (counter : Nat) (last : UInt32) (bytes : List UInt8) : List UInt32 :=
  chunkBlocks counter last 16 iv chunkStart bytes

/-- The bytes in the left subtree of more than one chunk: the largest power of
two of chunks that leaves something for the right one. -/
def leftLength (n : Nat) : Nat := 1024 * 2 ^ Nat.log2 ((n - 1) / 1024)

/-- The chaining value of a subtree that starts at the chunk `counter`. -/
def subtree : Nat → Nat → UInt32 → List UInt8 → List UInt32
  | 0, counter, last, bytes => chunk counter last bytes
  | depth + 1, counter, last, bytes =>
    if bytes.length ≤ 1024 then chunk counter last bytes
    else
      let n := leftLength bytes.length
      let left := subtree depth counter 0 (bytes.take n)
      let right := subtree depth (counter + n / 1024) 0 (bytes.drop n)
      compress iv (left ++ right) 0 64 (parentFlag ||| last)

/-- The bytes of the words, least significant first. -/
def wordBytes (words : List UInt32) : List UInt8 :=
  words.flatMap fun w : UInt32 ↦
    (List.range 4).map fun j : Nat ↦ (w >>> (8 * j.toUInt32)).toUInt8

/-- The unkeyed hash, 32 bytes of it. -/
@[reducible] def reference : Blake3 where
  digest bytes :=
    let out := wordBytes (subtree 64 0 rootFlag bytes)
    Vector.ofFn fun i : Fin 32 ↦ out.getD i 0

end Blake3

end Lilsync
