-- SUMMARY: The 64-bit fingerprint of a string that spreads names over shards.

/-!
# String fingerprints

A fingerprint is computed over the UTF-8 bytes of a string in machine words, so all arithmetic is modulo
`2^64`. Short strings mix their first and last bytes into two seeds; longer strings are folded sixteen
bytes at a time, and the last sixteen bytes are mixed in at the end.
-/

namespace SsaFlow.Fingerprint

/-- The byte at an offset, zero past the end. -/
def byteAt (b : ByteArray) (i : Nat) : UInt64 :=
  if h : i < b.size then (b.get i h).toUInt64 else 0

/-- The `count` bytes from offset `i` on, read as one number with the low byte first. -/
def word (b : ByteArray) (i : Nat) : Nat → UInt64
  | 0 => 0
  | count + 1 => byteAt b i ||| (word b (i + 1) count <<< 8)

/-- Folds the full product of two words: the low half combined with the high half. -/
def fold (x y : UInt64) : UInt64 :=
  let product := x.toNat * y.toNat
  UInt64.ofNat product ^^^ UInt64.ofNat (product >>> 64)

def seedLow : UInt64 := 0x243f6a8885a308d3

def seedHigh : UInt64 := 0x13198a2e03707344

def blockKey : UInt64 := 0xa4093822299f31d0

def multiplier : UInt64 := 0xf1357aea2e62a9c5

/-- Takes in `count` blocks of sixteen bytes, starting at offset `i`. -/
def blocks (b : ByteArray) (i : Nat) (low high : UInt64) : Nat → UInt64 × UInt64
  | 0 => (low, high)
  | count + 1 =>
    let mixed := fold (low ^^^ word b i 8) (blockKey ^^^ word b (i + 8) 8)
    blocks b (i + 16) high mixed count

/-- The two words that stand for the bytes before they are mixed into one. -/
def absorb (b : ByteArray) : UInt64 × UInt64 :=
  let n := b.size
  if n ≤ 16 then
    if n ≥ 8 then
      (seedLow ^^^ word b 0 8, seedHigh ^^^ word b (n - 8) 8)
    else if n ≥ 4 then
      (seedLow ^^^ word b 0 4, seedHigh ^^^ word b (n - 4) 4)
    else if n > 0 then
      (seedLow ^^^ byteAt b 0, seedHigh ^^^ ((byteAt b (n - 1) <<< 8) ||| byteAt b (n / 2)))
    else
      (seedLow, seedHigh)
  else
    let (low, high) := blocks b 0 seedLow seedHigh ((n - 1) / 16)
    (low ^^^ word b (n - 16) 8, high ^^^ word b (n - 8) 8)

def ofString (s : String) : UInt64 :=
  let b := s.toUTF8
  let (low, high) := absorb b
  let mixed := (fold low high ^^^ UInt64.ofNat b.size) * multiplier
  let sealed := (mixed + 0xff) * multiplier
  (sealed <<< 26) ||| (sealed >>> 38)

end SsaFlow.Fingerprint
