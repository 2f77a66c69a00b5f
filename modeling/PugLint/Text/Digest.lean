/-!
# Digests

A 64-bit digest of a text with a seed, used as a key for what has been seen
before. Short texts are mixed at once, in one of five ways by length; longer
ones are cut into stripes of 64 bytes that feed eight accumulators.

All arithmetic is modulo 2⁶⁴ except in `mulFold`, which multiplies in full and
folds the two halves of the product together.
-/

namespace PugLint.Text.Digest

/-- The bytes that are mixed with the input. -/
def secret : ByteArray :=
  ⟨#[184, 254, 108, 57, 35, 164, 75, 190, 124, 1, 129, 44, 247, 33, 173, 28, 222, 212, 109,
   233, 131, 144, 151, 219, 114, 64, 164, 164, 183, 179, 103, 31, 203, 121, 230, 78, 204,
   192, 229, 120, 130, 90, 208, 125, 204, 255, 114, 33, 184, 8, 70, 116, 247, 67, 36, 142,
   224, 53, 144, 230, 129, 58, 38, 76, 60, 40, 82, 187, 145, 195, 0, 203, 136, 208, 101,
   139, 27, 83, 46, 163, 113, 100, 72, 151, 162, 13, 249, 78, 56, 25, 239, 70, 169, 222,
   172, 216, 168, 250, 118, 63, 227, 156, 52, 63, 249, 220, 187, 199, 199, 11, 79, 29, 138,
   81, 224, 75, 205, 180, 89, 49, 200, 159, 126, 201, 217, 120, 115, 100, 234, 197, 172,
   131, 52, 211, 235, 195, 197, 129, 160, 255, 250, 19, 99, 235, 23, 13, 221, 81, 183, 240,
   218, 73, 211, 22, 85, 38, 41, 212, 104, 158, 43, 22, 190, 88, 125, 71, 161, 252, 143,
   248, 184, 209, 122, 208, 49, 206, 69, 203, 58, 143, 149, 22, 4, 40, 175, 215, 251, 202,
   187, 75, 64, 126]⟩

/-- The first odd constant of 32 bits. -/
def prime32a : UInt64 := 0x9E3779B1

/-- The second odd constant of 32 bits. -/
def prime32b : UInt64 := 0x85EBCA77

/-- The third odd constant of 32 bits. -/
def prime32c : UInt64 := 0xC2B2AE3D

/-- The first odd constant of 64 bits. -/
def prime64a : UInt64 := 0x9E3779B185EBCA87

/-- The second odd constant of 64 bits. -/
def prime64b : UInt64 := 0xC2B2AE3D27D4EB4F

/-- The third odd constant of 64 bits. -/
def prime64c : UInt64 := 0x165667B19E3779F9

/-- The fourth odd constant of 64 bits. -/
def prime64d : UInt64 := 0x85EBCA77C2B2AE63

/-- The fifth odd constant of 64 bits. -/
def prime64e : UInt64 := 0x27D4EB2F165667C5

/-- The multiplier of the last mix. -/
def primeMixA : UInt64 := 0x165667919E3779F9

/-- The multiplier of the mix of four to eight bytes. -/
def primeMixB : UInt64 := 0x9FB21C651E98DF25

/-- The byte at a position, zero past the end. -/
def byteAt (bytes : ByteArray) (i : Nat) : UInt64 :=
  (bytes.data[i]?.getD 0).toUInt64

/-- The four bytes from a position on, the first the lowest. -/
def word32 (bytes : ByteArray) (i : Nat) : UInt64 :=
  byteAt bytes i ||| byteAt bytes (i + 1) <<< 8 ||| byteAt bytes (i + 2) <<< 16 |||
    byteAt bytes (i + 3) <<< 24

/-- The eight bytes from a position on, the first the lowest. -/
def word64 (bytes : ByteArray) (i : Nat) : UInt64 :=
  word32 bytes i ||| word32 bytes (i + 4) <<< 32

/-- The bits of a word moved up by `n`, those that leave coming back below. -/
def rotate (x : UInt64) (n : UInt64) : UInt64 :=
  x <<< n ||| x >>> (64 - n)

/-- The bytes of the lower half of a word in reverse. -/
def swapBytes32 (x : UInt64) : UInt64 :=
  (x &&& 0xFF) <<< 24 ||| (x >>> 8 &&& 0xFF) <<< 16 ||| (x >>> 16 &&& 0xFF) <<< 8 |||
    (x >>> 24 &&& 0xFF)

/-- The bytes of a word in reverse. -/
def swapBytes64 (x : UInt64) : UInt64 :=
  swapBytes32 x <<< 32 ||| swapBytes32 (x >>> 32)

/-- The two halves of the full product of two words, combined. -/
def mulFold (x y : UInt64) : UInt64 :=
  let product := x.toNat * y.toNat
  product.toUInt64 ^^^ (product >>> 64).toUInt64

/-- The last mix of inputs of up to three bytes. -/
def avalancheShort (h : UInt64) : UInt64 :=
  let h := (h ^^^ h >>> 33) * prime64b
  let h := (h ^^^ h >>> 29) * prime64c
  h ^^^ h >>> 32

/-- The last mix of all longer inputs. -/
def avalanche (h : UInt64) : UInt64 :=
  let h := (h ^^^ h >>> 37) * primeMixA
  h ^^^ h >>> 32

/-- Mixes sixteen bytes of input with sixteen bytes of the secret. -/
def mix16 (bytes : ByteArray) (i : Nat) (j : Nat) (seed : UInt64) : UInt64 :=
  mulFold (word64 bytes i ^^^ (word64 secret j + seed))
    (word64 bytes (i + 8) ^^^ (word64 secret (j + 8) - seed))

/-- The digest of one to three bytes. -/
def digest1to3 (bytes : ByteArray) (seed : UInt64) : UInt64 :=
  let n := bytes.size
  let combined := byteAt bytes 0 <<< 16 ||| byteAt bytes (n / 2) <<< 24 |||
    byteAt bytes (n - 1) ||| n.toUInt64 <<< 8
  avalancheShort (combined ^^^ ((word32 secret 0 ^^^ word32 secret 4) + seed))

/-- The digest of four to eight bytes. -/
def digest4to8 (bytes : ByteArray) (seed : UInt64) : UInt64 :=
  let n := bytes.size
  let seed := seed ^^^ swapBytes32 seed <<< 32
  let flip := (word64 secret 8 ^^^ word64 secret 16) - seed
  let h := (word32 bytes (n - 4) + word32 bytes 0 <<< 32) ^^^ flip
  let h := (h ^^^ rotate h 49 ^^^ rotate h 24) * primeMixB
  let h := (h ^^^ (h >>> 35 + n.toUInt64)) * primeMixB
  h ^^^ h >>> 28

/-- The digest of nine to sixteen bytes. -/
def digest9to16 (bytes : ByteArray) (seed : UInt64) : UInt64 :=
  let n := bytes.size
  let low := word64 bytes 0 ^^^ ((word64 secret 24 ^^^ word64 secret 32) + seed)
  let high := word64 bytes (n - 8) ^^^ ((word64 secret 40 ^^^ word64 secret 48) - seed)
  avalanche (n.toUInt64 + swapBytes64 low + high + mulFold low high)

/-- The digest of 17 to 128 bytes: pairs of blocks, from both ends inwards. -/
def digest17to128 (bytes : ByteArray) (seed : UInt64) : UInt64 :=
  let n := bytes.size
  avalanche <| (List.range ((n - 1) / 32 + 1)).foldl
    (fun sum i => sum + mix16 bytes (16 * i) (32 * i) seed +
      mix16 bytes (n - 16 * (i + 1)) (32 * i + 16) seed)
    (n.toUInt64 * prime64a)

/-- The digest of 129 to 240 bytes: eight blocks, a mix, then the others. -/
def digest129to240 (bytes : ByteArray) (seed : UInt64) : UInt64 :=
  let n := bytes.size
  let first := (List.range 8).foldl (fun sum i => sum + mix16 bytes (16 * i) (16 * i) seed)
    (n.toUInt64 * prime64a)
  let others := (List.range (n / 16 - 8)).foldl
    (fun sum i => sum + mix16 bytes (16 * (i + 8)) (16 * i + 3) seed) (avalanche first)
  avalanche (others + mix16 bytes (n - 16) 119 seed)

/-- The secret with a seed worked in, as its 64-bit words. -/
def seededSecret (seed : UInt64) : ByteArray :=
  let word (i : Nat) : UInt64 :=
    if i % 2 == 0 then word64 secret (8 * i) + seed else word64 secret (8 * i) - seed
  ⟨((List.range 24).flatMap fun i =>
    (List.range 8).map fun k => (word i >>> (8 * k).toUInt64).toUInt8).toArray⟩

/-- The accumulators before the first stripe. -/
def accumulators : Array UInt64 :=
  #[prime32c, prime64a, prime64b, prime64c, prime64d, prime32b, prime64e, prime32a]

/-- The accumulators after the stripe at `i`, mixed with the secret from `j` on. -/
def addStripe (bytes key : ByteArray) (i j : Nat) (sums : Array UInt64) : Array UInt64 :=
  (List.range 8).foldl
    (fun (sums : Array UInt64) (k : Nat) =>
      let value := word64 bytes (i + 8 * k)
      let mixed := value ^^^ word64 key (j + 8 * k)
      -- Neighbouring accumulators swap their inputs.
      let partner := if k % 2 == 0 then k + 1 else k - 1
      let low : UInt64 := mixed &&& 0xFFFFFFFF
      let product := low * mixed >>> 32
      (sums.modify partner (· + value)).modify k (· + product))
    sums

/-- The accumulators after a full block has been scrambled. -/
def scramble (key : ByteArray) (sums : Array UInt64) : Array UInt64 :=
  sums.mapIdx fun k (x : UInt64) => (x ^^^ x >>> 47 ^^^ word64 key (128 + 8 * k)) * prime32a

/-- The accumulators after `count` stripes from `start` on. -/
def addStripes (bytes key : ByteArray) (start count : Nat) (sums : Array UInt64) :
    Array UInt64 :=
  (List.range count).foldl (fun sums y => addStripe bytes key (start + 64 * y) (8 * y) sums) sums

/-- The digest of more than 240 bytes: blocks of sixteen stripes, each block
    followed by a scramble, and the last 64 bytes once more. -/
def digestLong (bytes : ByteArray) (seed : UInt64) : UInt64 :=
  let n := bytes.size
  let key := seededSecret seed
  let blocks := (n - 1) / 1024
  let sums := (List.range blocks).foldl
    (fun sums x => scramble key (addStripes bytes key (1024 * x) 16 sums)) accumulators
  -- The last block is not full, so it is not scrambled.
  let sums := addStripes bytes key (1024 * blocks) ((n - 1 - 1024 * blocks) / 64) sums
  let sums := addStripe bytes key (n - 64) 121 sums
  avalanche <| (List.range 4).foldl
    (fun total k => total + mulFold ((sums[2 * k]?.getD 0) ^^^ word64 key (11 + 16 * k))
      ((sums[2 * k + 1]?.getD 0) ^^^ word64 key (19 + 16 * k)))
    (n.toUInt64 * prime64a)

/-- The digest of bytes under a seed. -/
def ofBytes (bytes : ByteArray) (seed : UInt64) : UInt64 :=
  let n := bytes.size
  if n == 0 then avalancheShort (seed ^^^ word64 secret 56 ^^^ word64 secret 64)
  else if n ≤ 3 then digest1to3 bytes seed
  else if n ≤ 8 then digest4to8 bytes seed
  else if n ≤ 16 then digest9to16 bytes seed
  else if n ≤ 128 then digest17to128 bytes seed
  else if n ≤ 240 then digest129to240 bytes seed
  else digestLong bytes seed

end PugLint.Text.Digest

namespace PugLint.Text

/-- The digest of a text. -/
def digest (s : String) : UInt64 :=
  Digest.ofBytes s.toUTF8 0

/-- A digest extended by one more text. The order of the texts matters. -/
def extendDigest (seed : UInt64) (s : String) : UInt64 :=
  Digest.ofBytes s.toUTF8 seed

/-- The last `n` hexadecimal digits of a number. -/
def hexDigits : Nat → Nat → List Char
  | 0, _ => []
  | n + 1, value => hexDigits n (value / 16) ++ [Nat.digitChar (value % 16)]

/-- A digest as sixteen hexadecimal digits. -/
def hexDigest (digest : UInt64) : String :=
  String.ofList (hexDigits 16 digest.toNat)

end PugLint.Text
