/-!
The 64-bit XXH3 hash of a byte sequence, with seed 0 and the standard secret.
The hash has one formula for each class of lengths: up to 16 bytes, up to 128,
up to 240, and longer ones, which run in stripes of 64 bytes over eight
accumulators.
-/

namespace PodFirewall.Xxh3

/-- The standard secret of 192 bytes. -/
def secret : ByteArray := ⟨#[
  0xb8, 0xfe, 0x6c, 0x39, 0x23, 0xa4, 0x4b, 0xbe, 0x7c, 0x01, 0x81, 0x2c,
  0xf7, 0x21, 0xad, 0x1c, 0xde, 0xd4, 0x6d, 0xe9, 0x83, 0x90, 0x97, 0xdb,
  0x72, 0x40, 0xa4, 0xa4, 0xb7, 0xb3, 0x67, 0x1f, 0xcb, 0x79, 0xe6, 0x4e,
  0xcc, 0xc0, 0xe5, 0x78, 0x82, 0x5a, 0xd0, 0x7d, 0xcc, 0xff, 0x72, 0x21,
  0xb8, 0x08, 0x46, 0x74, 0xf7, 0x43, 0x24, 0x8e, 0xe0, 0x35, 0x90, 0xe6,
  0x81, 0x3a, 0x26, 0x4c, 0x3c, 0x28, 0x52, 0xbb, 0x91, 0xc3, 0x00, 0xcb,
  0x88, 0xd0, 0x65, 0x8b, 0x1b, 0x53, 0x2e, 0xa3, 0x71, 0x64, 0x48, 0x97,
  0xa2, 0x0d, 0xf9, 0x4e, 0x38, 0x19, 0xef, 0x46, 0xa9, 0xde, 0xac, 0xd8,
  0xa8, 0xfa, 0x76, 0x3f, 0xe3, 0x9c, 0x34, 0x3f, 0xf9, 0xdc, 0xbb, 0xc7,
  0xc7, 0x0b, 0x4f, 0x1d, 0x8a, 0x51, 0xe0, 0x4b, 0xcd, 0xb4, 0x59, 0x31,
  0xc8, 0x9f, 0x7e, 0xc9, 0xd9, 0x78, 0x73, 0x64, 0xea, 0xc5, 0xac, 0x83,
  0x34, 0xd3, 0xeb, 0xc3, 0xc5, 0x81, 0xa0, 0xff, 0xfa, 0x13, 0x63, 0xeb,
  0x17, 0x0d, 0xdd, 0x51, 0xb7, 0xf0, 0xda, 0x49, 0xd3, 0x16, 0x55, 0x26,
  0x29, 0xd4, 0x68, 0x9e, 0x2b, 0x16, 0xbe, 0x58, 0x7d, 0x47, 0xa1, 0xfc,
  0x8f, 0xf8, 0xb8, 0xd1, 0x7a, 0xd0, 0x31, 0xce, 0x45, 0xcb, 0x3a, 0x8f,
  0x95, 0x16, 0x04, 0x28, 0xaf, 0xd7, 0xfb, 0xca, 0xbb, 0x4b, 0x40, 0x7e]⟩

/-! ### Reading words, and the mixing functions -/

/-- The byte at a position, 0 past the end. -/
def byteAt (bytes : ByteArray) (i : Nat) : UInt8 := bytes.data.getD i 0

/-- The number in the `n` bytes from a position on, least significant first. -/
def readLE (bytes : ByteArray) (i : Nat) : Nat → UInt64
  | 0 => 0
  | n + 1 => (byteAt bytes i).toUInt64 + (readLE bytes (i + 1) n <<< 8)

def read32 (bytes : ByteArray) (i : Nat) : UInt64 := readLE bytes i 4

def read64 (bytes : ByteArray) (i : Nat) : UInt64 := readLE bytes i 8

def prime32a : UInt64 := 0x9E3779B1
def prime32b : UInt64 := 0x85EBCA77
def prime32c : UInt64 := 0xC2B2AE3D
def prime64a : UInt64 := 0x9E3779B185EBCA87
def prime64b : UInt64 := 0xC2B2AE3D27D4EB4F
def prime64c : UInt64 := 0x165667B19E3779F9
def prime64d : UInt64 := 0x85EBCA77C2B2AE63
def prime64e : UInt64 := 0x27D4EB2F165667C5
def primeMixA : UInt64 := 0x165667919E3779F9
def primeMixB : UInt64 := 0x9FB21C651E98DF25

/-- Rotation to the left, by 1 to 63 places. -/
def rotl (x : UInt64) (n : UInt64) : UInt64 := (x <<< n) ||| (x >>> (64 - n))

def swapBytes (x : UInt64) : UInt64 :=
  (List.range 8).foldl (fun out i => (out <<< 8) ||| ((x >>> (8 * i).toUInt64) % 256)) 0

/-- The halves of the 128-bit product, combined by exclusive or. -/
def foldProduct (a b : UInt64) : UInt64 :=
  let product := a.toNat * b.toNat
  product.toUInt64 ^^^ (product >>> 64).toUInt64

/-- The last mixing step for at most 3 bytes. -/
def avalancheShort (h : UInt64) : UInt64 :=
  let h := (h ^^^ (h >>> 33)) * prime64b
  let h := (h ^^^ (h >>> 29)) * prime64c
  h ^^^ (h >>> 32)

/-- The last mixing step for more than 8 bytes. -/
def avalanche (h : UInt64) : UInt64 :=
  let h := (h ^^^ (h >>> 37)) * primeMixA
  h ^^^ (h >>> 32)

/-- The last mixing step for 4 to 8 bytes. -/
def avalancheWord (h : UInt64) (length : UInt64) : UInt64 :=
  let h := (h ^^^ rotl h 49 ^^^ rotl h 24) * primeMixB
  let h := (h ^^^ ((h >>> 35) + length)) * primeMixB
  h ^^^ (h >>> 28)

def mix16 (bytes : ByteArray) (i : Nat) (s : Nat) : UInt64 :=
  foldProduct (read64 bytes i ^^^ read64 secret s)
    (read64 bytes (i + 8) ^^^ read64 secret (s + 8))

/-! ### The classes of lengths -/

/-- At most 16 bytes. -/
def hashShort (bytes : ByteArray) : UInt64 :=
  let n := bytes.size
  let length := n.toUInt64
  if n = 0 then avalancheShort (read64 secret 56 ^^^ read64 secret 64)
  else if n ≤ 3 then
    let first := (byteAt bytes 0).toUInt64
    let middle := (byteAt bytes (n / 2)).toUInt64
    let last := (byteAt bytes (n - 1)).toUInt64
    let combined := (first <<< 16) ||| (middle <<< 24) ||| last ||| (length <<< 8)
    avalancheShort (combined ^^^ (read32 secret 0 ^^^ read32 secret 4))
  else if n ≤ 8 then
    let word := read32 bytes (n - 4) + (read32 bytes 0 <<< 32)
    avalancheWord (word ^^^ (read64 secret 8 ^^^ read64 secret 16)) length
  else
    let lo := read64 bytes 0 ^^^ (read64 secret 24 ^^^ read64 secret 32)
    let hi := read64 bytes (n - 8) ^^^ (read64 secret 40 ^^^ read64 secret 48)
    avalanche (length + swapBytes lo + hi + foldProduct lo hi)

/-- 17 to 128 bytes: pairs of 16 bytes from both ends. -/
def hashMedium (bytes : ByteArray) : UInt64 :=
  let n := bytes.size
  let pairs := (n - 1) / 32 + 1
  avalanche ((List.range pairs).foldl
    (fun acc i =>
      acc + mix16 bytes (16 * i) (32 * i) + mix16 bytes (n - 16 * (i + 1)) (32 * i + 16))
    (n.toUInt64 * prime64a))

/-- 129 to 240 bytes: every 16 bytes once, and the last 16 again. -/
def hashLarge (bytes : ByteArray) : UInt64 :=
  let n := bytes.size
  let start := avalanche ((List.range 8).foldl
    (fun acc i => acc + mix16 bytes (16 * i) (16 * i)) (n.toUInt64 * prime64a))
  let acc := (List.range (n / 16 - 8)).foldl
    (fun acc i => acc + mix16 bytes (16 * (i + 8)) (16 * i + 3)) start
  avalanche (acc + mix16 bytes (n - 16) 119)

def stripe (bytes : ByteArray) (i s : Nat) (acc : List UInt64) : List UInt64 :=
  acc.mapIdx fun lane (a : UInt64) =>
    let key := read64 bytes (i + 8 * lane) ^^^ read64 secret (s + 8 * lane)
    let other := read64 bytes (i + 8 * (if lane % 2 = 0 then lane + 1 else lane - 1))
    a + other + (key % 4294967296) * (key >>> 32)

/-- The accumulators at the end of a block of 16 stripes. -/
def scramble (acc : List UInt64) : List UInt64 :=
  acc.mapIdx fun lane (a : UInt64) =>
    (a ^^^ (a >>> 47) ^^^ read64 secret (128 + 8 * lane)) * prime32a

def stripes (bytes : ByteArray) (i count : Nat) (acc : List UInt64) : List UInt64 :=
  (List.range count).foldl (fun acc k => stripe bytes (i + 64 * k) (8 * k) acc) acc

def lanes : List UInt64 :=
  [prime32c, prime64a, prime64b, prime64c, prime64d, prime32b, prime64e, prime32a]

/-- More than 240 bytes. -/
def hashLong (bytes : ByteArray) : UInt64 :=
  let n := bytes.size
  let blocks := (n - 1) / 1024
  let acc := (List.range blocks).foldl
    (fun acc b => scramble (stripes bytes (1024 * b) 16 acc)) lanes
  let acc := stripes bytes (1024 * blocks) ((n - 1 - 1024 * blocks) / 64) acc
  -- the last 64 bytes are taken in any case, also those that were taken before
  let acc := stripe bytes (n - 64) 121 acc
  avalanche ((List.range 4).foldl
    (fun out i =>
      out + foldProduct (acc.getD (2 * i) 0 ^^^ read64 secret (11 + 16 * i))
        (acc.getD (2 * i + 1) 0 ^^^ read64 secret (19 + 16 * i)))
    (n.toUInt64 * prime64a))

def hash (bytes : ByteArray) : UInt64 :=
  if bytes.size ≤ 16 then hashShort bytes
  else if bytes.size ≤ 128 then hashMedium bytes
  else if bytes.size ≤ 240 then hashLarge bytes
  else hashLong bytes

def hex16 (x : UInt64) : String :=
  String.ofList ((List.range 16).reverse.map fun i =>
    Nat.digitChar ((x >>> (4 * i).toUInt64) % 16).toNat)

end PodFirewall.Xxh3
