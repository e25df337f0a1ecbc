import IncrementalBuild.Number.Hexadecimal

/-!
The hashes the build state is made of. The SHA-256 digest of a sequence of bytes: the message is
padded to whole blocks of sixty-four bytes, and each block is compressed into a state of eight words
by sixty-four rounds. `hash64` chains data onto a seed, `contentHash` names the contents of a file;
the two differ only in what they digest and in how much of the digest they keep.
-/

namespace IncrementalBuild.Digest

/-- The constants added in the sixty-four rounds. -/
def roundConstants : Array UInt32 := #[
  0x428a2f98, 0x71374491, 0xb5c0fbcf, 0xe9b5dba5, 0x3956c25b, 0x59f111f1, 0x923f82a4, 0xab1c5ed5,
  0xd807aa98, 0x12835b01, 0x243185be, 0x550c7dc3, 0x72be5d74, 0x80deb1fe, 0x9bdc06a7, 0xc19bf174,
  0xe49b69c1, 0xefbe4786, 0x0fc19dc6, 0x240ca1cc, 0x2de92c6f, 0x4a7484aa, 0x5cb0a9dc, 0x76f988da,
  0x983e5152, 0xa831c66d, 0xb00327c8, 0xbf597fc7, 0xc6e00bf3, 0xd5a79147, 0x06ca6351, 0x14292967,
  0x27b70a85, 0x2e1b2138, 0x4d2c6dfc, 0x53380d13, 0x650a7354, 0x766a0abb, 0x81c2c92e, 0x92722c85,
  0xa2bfe8a1, 0xa81a664b, 0xc24b8b70, 0xc76c51a3, 0xd192e819, 0xd6990624, 0xf40e3585, 0x106aa070,
  0x19a4c116, 0x1e376c08, 0x2748774c, 0x34b0bcb5, 0x391c0cb3, 0x4ed8aa4a, 0x5b9cca4f, 0x682e6ff3,
  0x748f82ee, 0x78a5636f, 0x84c87814, 0x8cc70208, 0x90befffa, 0xa4506ceb, 0xbef9a3f7, 0xc67178f2]

/-- The eight words a digest is made of, and that the rounds work on. -/
structure Words where
  a : UInt32
  b : UInt32
  c : UInt32
  d : UInt32
  e : UInt32
  f : UInt32
  g : UInt32
  h : UInt32
  deriving DecidableEq, Repr

/-- The words before the first block. -/
def Words.initial : Words where
  a := 0x6a09e667
  b := 0xbb67ae85
  c := 0x3c6ef372
  d := 0xa54ff53a
  e := 0x510e527f
  f := 0x9b05688c
  g := 0x1f83d9ab
  h := 0x5be0cd19

/-- A word turned right by `n` bits. -/
def rotate (w : UInt32) (n : UInt32) : UInt32 :=
  (w >>> n) ||| (w <<< (32 - n))

/-- One round, with the schedule's word `w` and the round's constant `k`. -/
def Words.round (s : Words) (k w : UInt32) : Words :=
  let choice := (s.e &&& s.f) ^^^ (~~~s.e &&& s.g)
  let majority := (s.a &&& s.b) ^^^ (s.a &&& s.c) ^^^ (s.b &&& s.c)
  let t₁ := s.h + (rotate s.e 6 ^^^ rotate s.e 11 ^^^ rotate s.e 25) + choice + k + w
  let t₂ := (rotate s.a 2 ^^^ rotate s.a 13 ^^^ rotate s.a 22) + majority
  ⟨t₁ + t₂, s.a, s.b, s.c, s.d + t₁, s.e, s.f, s.g⟩

/-- Adds two states word by word. -/
def Words.add (s t : Words) : Words :=
  ⟨s.a + t.a, s.b + t.b, s.c + t.c, s.d + t.d, s.e + t.e, s.f + t.f, s.g + t.g, s.h + t.h⟩

/-- The word whose bytes, most significant first, stand at `i`. -/
def wordAt (message : ByteArray) (i : Nat) : UInt32 :=
  let byte (j : Nat) : UInt32 := (message[i + j]?.getD 0).toUInt32
  (byte 0 <<< 24) ||| (byte 1 <<< 16) ||| (byte 2 <<< 8) ||| byte 3

/-- The schedule grown by `n` words from those before them. -/
def extendSchedule : (n : Nat) → Array UInt32 → Array UInt32
  | 0, w => w
  | n + 1, w =>
    let before (k : Nat) : UInt32 := w[w.size - k]?.getD 0
    let s₀ := rotate (before 15) 7 ^^^ rotate (before 15) 18 ^^^ (before 15 >>> 3)
    let s₁ := rotate (before 2) 17 ^^^ rotate (before 2) 19 ^^^ (before 2 >>> 10)
    extendSchedule n (w.push (before 16 + s₀ + before 7 + s₁))

/-- The sixty-four words the block at `start` gives to the rounds. -/
def schedule (message : ByteArray) (start : Nat) : Array UInt32 :=
  extendSchedule 48 (((List.range 16).map fun i => wordAt message (start + 4 * i)).toArray)

/-- The state after the block at `start`. -/
def compress (message : ByteArray) (s : Words) (start : Nat) : Words :=
  let w := schedule message start
  s.add <| (List.range 64).foldl (fun s i =>
    s.round (roundConstants[i]?.getD 0) (w[i]?.getD 0)) s

/-- The `count` bytes of a number, most significant first. -/
def bigEndian (count n : Nat) : List UInt8 :=
  (List.range count).reverse.map fun i => UInt8.ofNat (n >>> (8 * i))

/-- The message with a set bit, zeros to eight bytes before a whole block, and its length in bits.
-/
def pad (message : ByteArray) : ByteArray :=
  let zeros := (119 - message.size % 64) % 64
  message ++ ⟨(0x80 :: List.replicate zeros 0 ++ bigEndian 8 (8 * message.size)).toArray⟩

/-- The digest of a message, as thirty-two bytes. -/
def sha256 (message : ByteArray) : List UInt8 :=
  let padded := pad message
  let blocks := (List.range (padded.size / 64)).map (64 * ·)
  let s := blocks.foldl (compress padded) .initial
  [s.a, s.b, s.c, s.d, s.e, s.f, s.g, s.h].flatMap fun w => bigEndian 4 w.toNat

/-- The eight bytes of a word, least significant first. -/
def littleEndian (w : UInt64) : List UInt8 :=
  (List.range 8).map fun i => UInt8.ofNat (w.toNat >>> (8 * i))

/-- The word whose bytes, least significant first, are given. -/
def ofLittleEndian (bytes : List UInt8) : UInt64 :=
  UInt64.ofNat (bytes.foldr (fun b n => 256 * n + b.toNat) 0)

/-- A sequence of bytes of a list. -/
def bytesOf (bytes : List UInt8) : ByteArray :=
  ⟨bytes.toArray⟩

/-- The hash of `data` chained onto `seed`: the first eight bytes of the digest of both. -/
def hash64 (seed : UInt64) (data : ByteArray) : UInt64 :=
  ofLittleEndian ((sha256 (bytesOf (littleEndian seed) ++ data)).take 8)

/-- The digest of a file's contents, as sixty-four hexadecimal digits. -/
def contentHash (data : ByteArray) : String :=
  String.ofList <| (sha256 data).flatMap fun b => Number.hexDigits 2 b.toNat

end IncrementalBuild.Digest
