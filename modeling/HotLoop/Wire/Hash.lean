import HotLoop.Wire.Codec

namespace HotLoop.Wire.Hash

def prime32a : UInt64 := 0x9E3779B1
def prime32b : UInt64 := 0x85EBCA77
def prime32c : UInt64 := 0xC2B2AE3D
def prime64a : UInt64 := 0x9E3779B185EBCA87
def prime64b : UInt64 := 0xC2B2AE3D27D4EB4F
def prime64c : UInt64 := 0x165667B19E3779F9
def prime64d : UInt64 := 0x85EBCA77C2B2AE63
def prime64e : UInt64 := 0x27D4EB2F165667C5
def primeMix : UInt64 := 0x165667919E3779F9
def primeShort : UInt64 := 0x9FB21C651E98DF25

def secret : ByteArray := ByteArray.mk #[
  0xb8, 0xfe, 0x6c, 0x39, 0x23, 0xa4, 0x4b, 0xbe, 0x7c, 0x01, 0x81, 0x2c, 0xf7, 0x21, 0xad, 0x1c,
  0xde, 0xd4, 0x6d, 0xe9, 0x83, 0x90, 0x97, 0xdb, 0x72, 0x40, 0xa4, 0xa4, 0xb7, 0xb3, 0x67, 0x1f,
  0xcb, 0x79, 0xe6, 0x4e, 0xcc, 0xc0, 0xe5, 0x78, 0x82, 0x5a, 0xd0, 0x7d, 0xcc, 0xff, 0x72, 0x21,
  0xb8, 0x08, 0x46, 0x74, 0xf7, 0x43, 0x24, 0x8e, 0xe0, 0x35, 0x90, 0xe6, 0x81, 0x3a, 0x26, 0x4c,
  0x3c, 0x28, 0x52, 0xbb, 0x91, 0xc3, 0x00, 0xcb, 0x88, 0xd0, 0x65, 0x8b, 0x1b, 0x53, 0x2e, 0xa3,
  0x71, 0x64, 0x48, 0x97, 0xa2, 0x0d, 0xf9, 0x4e, 0x38, 0x19, 0xef, 0x46, 0xa9, 0xde, 0xac, 0xd8,
  0xa8, 0xfa, 0x76, 0x3f, 0xe3, 0x9c, 0x34, 0x3f, 0xf9, 0xdc, 0xbb, 0xc7, 0xc7, 0x0b, 0x4f, 0x1d,
  0x8a, 0x51, 0xe0, 0x4b, 0xcd, 0xb4, 0x59, 0x31, 0xc8, 0x9f, 0x7e, 0xc9, 0xd9, 0x78, 0x73, 0x64,
  0xea, 0xc5, 0xac, 0x83, 0x34, 0xd3, 0xeb, 0xc3, 0xc5, 0x81, 0xa0, 0xff, 0xfa, 0x13, 0x63, 0xeb,
  0x17, 0x0d, 0xdd, 0x51, 0xb7, 0xf0, 0xda, 0x49, 0xd3, 0x16, 0x55, 0x26, 0x29, 0xd4, 0x68, 0x9e,
  0x2b, 0x16, 0xbe, 0x58, 0x7d, 0x47, 0xa1, 0xfc, 0x8f, 0xf8, 0xb8, 0xd1, 0x7a, 0xd0, 0x31, 0xce,
  0x45, 0xcb, 0x3a, 0x8f, 0x95, 0x16, 0x04, 0x28, 0xaf, 0xd7, 0xfb, 0xca, 0xbb, 0x4b, 0x40, 0x7e]

def byteAt (b : ByteArray) (i : Nat) : UInt64 := (b.data.getD i 0).toUInt64

def littleEndian (b : ByteArray) (offset : Nat) : Nat → UInt64
  | 0 => 0
  | k + 1 => littleEndian b (offset + 1) k <<< 8 ||| byteAt b offset

def read32 (b : ByteArray) (offset : Nat) : UInt64 := littleEndian b offset 4

def read64 (b : ByteArray) (offset : Nat) : UInt64 := littleEndian b offset 8

def foldMul (x y : UInt64) : UInt64 :=
  let p := x.toNat * y.toNat
  UInt64.ofNat p ^^^ UInt64.ofNat (p / UInt64.size)

def rotate (x : UInt64) (k : UInt64) : UInt64 := x <<< k ||| x >>> (64 - k)

def swapBytes (x : UInt64) : UInt64 :=
  (List.range 8).foldl (fun acc i => acc <<< 8 ||| (x >>> (8 * UInt64.ofNat i)) &&& 0xff) 0

def avalanche (h : UInt64) : UInt64 :=
  let h := (h ^^^ h >>> 37) * primeMix
  h ^^^ h >>> 32

def avalancheShort (h : UInt64) : UInt64 :=
  let h := (h ^^^ h >>> 33) * prime64b
  let h := (h ^^^ h >>> 29) * prime64c
  h ^^^ h >>> 32

def mix16 (b : ByteArray) (offset key : Nat) : UInt64 :=
  foldMul (read64 b offset ^^^ read64 secret key) (read64 b (offset + 8) ^^^ read64 secret (key + 8))

def upTo3 (b : ByteArray) : UInt64 :=
  let n := b.size
  let word := byteAt b 0 <<< 16 ||| byteAt b (n / 2) <<< 24 ||| byteAt b (n - 1) ||| UInt64.ofNat n <<< 8
  avalancheShort (word ^^^ (read32 secret 0 ^^^ read32 secret 4))

def upTo8 (b : ByteArray) : UInt64 :=
  let n := b.size
  let word := read32 b (n - 4) + read32 b 0 <<< 32
  let h := word ^^^ (read64 secret 8 ^^^ read64 secret 16)
  let h := (h ^^^ rotate h 49 ^^^ rotate h 24) * primeShort
  let h := (h ^^^ (h >>> 35 + UInt64.ofNat n)) * primeShort
  h ^^^ h >>> 28

def upTo16 (b : ByteArray) : UInt64 :=
  let n := b.size
  let low := read64 b 0 ^^^ (read64 secret 24 ^^^ read64 secret 32)
  let high := read64 b (n - 8) ^^^ (read64 secret 40 ^^^ read64 secret 48)
  avalanche (UInt64.ofNat n + swapBytes low + high + foldMul low high)

def upTo128 (b : ByteArray) : UInt64 :=
  let n := b.size
  let rounds := (n - 1) / 32 + 1
  avalanche ((List.range rounds).foldl
    (fun acc i => acc + mix16 b (16 * i) (32 * i) + mix16 b (n - 16 * (i + 1)) (32 * i + 16))
    (UInt64.ofNat n * prime64a))

def upTo240 (b : ByteArray) : UInt64 :=
  let n := b.size
  let first := (List.range 8).foldl (fun acc i => acc + mix16 b (16 * i) (16 * i)) (UInt64.ofNat n * prime64a)
  let more := (List.range (n / 16 - 8)).foldl
    (fun acc i => acc + mix16 b (16 * (i + 8)) (16 * i + 3)) (avalanche first)
  avalanche (more + mix16 b (n - 16) 119)

abbrev Lanes := List UInt64

def startLanes : Lanes :=
  [prime32c, prime64a, prime64b, prime64c, prime64d, prime32b, prime64e, prime32a]

def addStripe (b : ByteArray) (lanes : Lanes) (offset key : Nat) : Lanes :=
  lanes.mapIdx fun (i : Nat) (lane : UInt64) =>
    let keyed := read64 b (offset + 8 * i) ^^^ read64 secret (key + 8 * i)
    let other := read64 b (offset + 8 * (i ^^^ 1))
    lane + other + (keyed &&& (0xffffffff : UInt64)) * (keyed >>> 32)

def scramble (lanes : Lanes) : Lanes :=
  lanes.mapIdx fun (i : Nat) (lane : UInt64) => ((lane ^^^ lane >>> 47) ^^^ read64 secret (128 + 8 * i)) * prime32a

def addStripes (b : ByteArray) (lanes : Lanes) (offset count : Nat) : Lanes :=
  (List.range count).foldl (fun lanes i => addStripe b lanes (offset + 64 * i) (8 * i)) lanes

def mergePairs (key : Nat) : Lanes → UInt64
  | x :: y :: rest =>
    foldMul (x ^^^ read64 secret key) (y ^^^ read64 secret (key + 8)) + mergePairs (key + 16) rest
  | _ => 0

def long (b : ByteArray) : UInt64 :=
  let n := b.size
  let blocks := (n - 1) / 1024
  let lanes := (List.range blocks).foldl
    (fun lanes j => scramble (addStripes b lanes (1024 * j) 16)) startLanes
  let lanes := addStripes b lanes (1024 * blocks) ((n - 1 - 1024 * blocks) / 64)
  let lanes := addStripe b lanes (n - 64) 121
  avalanche (UInt64.ofNat n * prime64a + mergePairs 11 lanes)

def hashArray (b : ByteArray) : UInt64 :=
  let n := b.size
  if n = 0 then avalancheShort (read64 secret 56 ^^^ read64 secret 64)
  else if n ≤ 3 then upTo3 b
  else if n ≤ 8 then upTo8 b
  else if n ≤ 16 then upTo16 b
  else if n ≤ 128 then upTo128 b
  else if n ≤ 240 then upTo240 b
  else long b

end HotLoop.Wire.Hash

namespace HotLoop

def Wire.hash (bytes : Bytes) : UInt64 := Wire.Hash.hashArray (ByteArray.mk bytes.toArray)

namespace Program

def fingerprint (p : Option Program) : UInt64 := Wire.hash (Wire.writeProgram p)

end Program

end HotLoop
