/-
# `MetaRecord.Checksum.XxHash64` — the 64-bit xxHash of a byte string

Four lanes absorb the bytes in stripes of thirty-two; what is left is absorbed
in words, a half word and single bytes, and the result is mixed once more.
All arithmetic wraps at 64 bits, and words are read least significant byte
first.  The seed is zero throughout.
-/
import MetaRecord.Bytes.Basic

namespace MetaRecord.Checksum.XxHash64

/-! ## Words -/

/-- The word whose bytes are `bytes`, least significant first. -/
def word (bytes : Bytes) : UInt64 :=
  bytes.foldr (fun b w => (w <<< 8) ||| b.toUInt64) 0

/-- `w` turned left by `n` bits, for `n` from 1 to 63. -/
def rotate (w : UInt64) (n : UInt64) : UInt64 := (w <<< n) ||| (w >>> (64 - n))

def prime₁ : UInt64 := 0x9e3779b185ebca87
def prime₂ : UInt64 := 0xc2b2ae3d27d4eb4f
def prime₃ : UInt64 := 0x165667b19e3779f9
def prime₄ : UInt64 := 0x85ebca77c2b2ae63
def prime₅ : UInt64 := 0x27d4eb2f165667c5

def absorb (lane w : UInt64) : UInt64 := rotate (lane + w * prime₂) 31 * prime₁

/-! ## Stripes -/

/-- The four lanes. -/
structure Lanes where
  a : UInt64
  b : UInt64
  c : UInt64
  d : UInt64

/-- The lanes before any stripe. -/
def Lanes.start : Lanes := ⟨prime₁ + prime₂, prime₂, 0, 0 - prime₁⟩

/-- The lanes after absorbing the first `n` stripes, and the bytes after them. -/
def Lanes.stripes : Nat → Lanes → Bytes → Lanes × Bytes
  | 0, lanes, bytes => (lanes, bytes)
  | n + 1, lanes, bytes =>
    let stripe := bytes.take 32
    let lanes' : Lanes :=
      ⟨absorb lanes.a (word (stripe.take 8)),
        absorb lanes.b (word ((stripe.drop 8).take 8)),
        absorb lanes.c (word ((stripe.drop 16).take 8)),
        absorb lanes.d (word ((stripe.drop 24).take 8))⟩
    stripes n lanes' (bytes.drop 32)

/-- A hash after mixing in a lane. -/
def mixLane (hash lane : UInt64) : UInt64 := (hash ^^^ absorb 0 lane) * prime₁ + prime₄

def Lanes.join (l : Lanes) : UInt64 :=
  let sum := rotate l.a 1 + rotate l.b 7 + rotate l.c 12 + rotate l.d 18
  mixLane (mixLane (mixLane (mixLane sum l.a) l.b) l.c) l.d

/-! ## What is left, and the last mixing -/

/-- A hash after mixing in a word. -/
def mixWord (hash w : UInt64) : UInt64 :=
  rotate (hash ^^^ absorb 0 w) 27 * prime₁ + prime₄

/-- A hash after mixing in the first `n` words, and the bytes after them. -/
def mixWords : Nat → UInt64 → Bytes → UInt64 × Bytes
  | 0, hash, bytes => (hash, bytes)
  | n + 1, hash, bytes => mixWords n (mixWord hash (word (bytes.take 8))) (bytes.drop 8)

/-- A hash after mixing in four bytes. -/
def mixHalf (hash : UInt64) (bytes : Bytes) : UInt64 :=
  rotate (hash ^^^ (word bytes * prime₁)) 23 * prime₂ + prime₃

/-- A hash after mixing in one byte. -/
def mixByte (hash : UInt64) (b : UInt8) : UInt64 :=
  rotate (hash ^^^ (b.toUInt64 * prime₅)) 11 * prime₁

/-- A hash after mixing in fewer than thirty-two bytes. -/
def mixRest (hash : UInt64) (bytes : Bytes) : UInt64 :=
  let (hash, bytes) := mixWords (bytes.length / 8) hash bytes
  if bytes.length < 4 then bytes.foldl mixByte hash
  else (bytes.drop 4).foldl mixByte (mixHalf hash (bytes.take 4))

/-- The last mixing, which spreads every bit over the word. -/
def avalanche (hash : UInt64) : UInt64 :=
  let hash := (hash ^^^ (hash >>> 33)) * prime₂
  let hash := (hash ^^^ (hash >>> 29)) * prime₃
  hash ^^^ (hash >>> 32)

def hash (bytes : Bytes) : UInt64 :=
  let size := bytes.length
  let (start, rest) :=
    if size < 32 then (prime₅, bytes)
    else
      let (lanes, rest) := Lanes.start.stripes (size / 32) bytes
      (lanes.join, rest)
  avalanche (mixRest (start + UInt64.ofNat size) rest)

end MetaRecord.Checksum.XxHash64
