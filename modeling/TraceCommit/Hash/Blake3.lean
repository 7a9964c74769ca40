/-!
# BLAKE3 Key Derivation

Key derivation with BLAKE3 for contexts and key material of at most one chunk,
1024 bytes. The context is hashed to a key, the material is absorbed under
that key, and the last block of it is compressed again and again with a
running counter, which yields an output stream of any length.

## Main definitions

* `Blake3.compress`: The compression function.
* `Blake3.Root`: The last block of a chunk, ready to be expanded.
* `Blake3.Root.block`: A block of the output stream.
* `Blake3.deriveKey`: The root for a context and key material.
-/

namespace TraceCommit

namespace Blake3

/-- Sixteen 32-bit words: a message block or a compression state. -/
abbrev Block := Vector UInt32 16

/-- Eight 32-bit words: a key or a chaining value. -/
abbrev Chain := Vector UInt32 8

/-- The initial chaining value. -/
def initial : Chain :=
  #v[0x6a09e667, 0xbb67ae85, 0x3c6ef372, 0xa54ff53a,
     0x510e527f, 0x9b05688c, 0x1f83d9ab, 0x5be0cd19]

/-- Marks the first block of a chunk. -/
def chunkStart : UInt32 := 1

/-- Marks the last block of a chunk. -/
def chunkEnd : UInt32 := 2

/-- Marks the root of a hash. -/
def root : UInt32 := 8

/-- Marks the hashing of a derivation context. -/
def deriveContext : UInt32 := 32

/-- Marks the hashing of key material. -/
def deriveMaterial : UInt32 := 64

/-- The word rotated right. -/
def rotateRight (w : UInt32) (places : UInt32) : UInt32 :=
  (w >>> places) ||| (w <<< (32 - places))

/-- Mixes two message words into four words of the state. -/
def mix (s : Block) (a b c d : Fin 16) (mx my : UInt32) : Block :=
  let va := s[a] + s[b] + mx
  let vd := rotateRight (s[d] ^^^ va) 16
  let vc := s[c] + vd
  let vb := rotateRight (s[b] ^^^ vc) 12
  let va := va + vb + my
  let vd := rotateRight (vd ^^^ va) 8
  let vc := vc + vd
  let vb := rotateRight (vb ^^^ vc) 7
  (((s.set a va).set b vb).set c vc).set d vd

/-- One round: the columns of the state, then its diagonals. -/
def round (s m : Block) : Block :=
  let s := mix s 0 4 8 12 m[0] m[1]
  let s := mix s 1 5 9 13 m[2] m[3]
  let s := mix s 2 6 10 14 m[4] m[5]
  let s := mix s 3 7 11 15 m[6] m[7]
  let s := mix s 0 5 10 15 m[8] m[9]
  let s := mix s 1 6 11 12 m[10] m[11]
  let s := mix s 2 7 8 13 m[12] m[13]
  mix s 3 4 9 14 m[14] m[15]

/-- The order in which a round leaves the message words to the next one. -/
def permuteMessage (m : Block) : Block :=
  #v[m[2], m[6], m[3], m[10], m[7], m[0], m[4], m[13],
     m[1], m[11], m[12], m[5], m[9], m[14], m[15], m[8]]

/-- Rounds with the message permuted between them. -/
def rounds : Nat → Block → Block → Block
  | 0, s, _ => s
  | count + 1, s, m => rounds count (round s m) (permuteMessage m)

/-- The compression function. The first half of the result is the next chaining
    value; at a root all of it is output. -/
def compress (chain : Chain) (message : Block) (counter : UInt64) (length flags : UInt32) :
    Block :=
  let s : Block :=
    #v[chain[0], chain[1], chain[2], chain[3], chain[4], chain[5], chain[6], chain[7],
       initial[0], initial[1], initial[2], initial[3],
       counter.toUInt32, (counter >>> 32).toUInt32, length, flags]
  let s := rounds 7 s message
  Vector.ofFn fun i =>
    if h : i.val < 8 then s[i.val] ^^^ s[i.val + 8]
    else s[i.val] ^^^ chain[i.val - 8]

/-- The message words of up to 64 bytes, padded with zeros. -/
def blockOfBytes (bytes : List UInt8) : Block :=
  let byte (i : Nat) : UInt32 := (bytes.getD i 0).toUInt32
  Vector.ofFn fun i =>
    byte (4 * i) ||| (byte (4 * i + 1) <<< 8) ||| (byte (4 * i + 2) <<< 16) |||
      (byte (4 * i + 3) <<< 24)

/-- The last block of a chunk that is a root: all the compression function needs
    but the counter. -/
structure Root where
  chain : Chain
  message : Block
  length : UInt32
  flags : UInt32

/-- Absorbs the blocks of a chunk before the last one. The first argument
    bounds the number of blocks. -/
def absorb : Nat → Chain → List UInt8 → UInt32 → UInt32 → Root
  | 0, chain, bytes, start, flags =>
    ⟨chain, blockOfBytes bytes, UInt32.ofNat bytes.length, flags ||| start ||| chunkEnd ||| root⟩
  | blocks + 1, chain, bytes, start, flags =>
    if bytes.length ≤ 64 then
      ⟨chain, blockOfBytes bytes, UInt32.ofNat bytes.length,
        flags ||| start ||| chunkEnd ||| root⟩
    else
      -- Only the first block of a chunk carries the mark of its start.
      let next := compress chain (blockOfBytes (bytes.take 64)) 0 64 (flags ||| start)
      absorb blocks (Vector.ofFn fun i => next[i.val]) (bytes.drop 64) 0 flags

/-- The root of a single chunk under a key. -/
def rootOfChunk (key : Chain) (bytes : List UInt8) (flags : UInt32) : Root :=
  absorb 15 key bytes chunkStart flags

/-- Block `counter` of the output stream. -/
def Root.block (r : Root) (counter : UInt64) : Block :=
  compress r.chain r.message counter r.length r.flags

/-- The first `count` 64-bit words of the output stream, eight to a block. -/
def Root.words (r : Root) (blocks : Nat) : List UInt64 :=
  (List.range blocks).flatMap fun i =>
    let b := r.block (UInt64.ofNat i)
    (List.finRange 8).map fun j =>
      b[2 * j.val].toUInt64 ||| (b[2 * j.val + 1].toUInt64 <<< 32)

/-- The root whose output stream is the key for a context and key material. -/
def deriveKey (context material : String) : Root :=
  let key := (rootOfChunk initial context.toUTF8.toList deriveContext).block 0
  rootOfChunk (Vector.ofFn fun i => key[i.val]) material.toUTF8.toList deriveMaterial

end Blake3

end TraceCommit
