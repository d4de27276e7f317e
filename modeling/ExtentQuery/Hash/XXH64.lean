/-!
# The hash XXH64

XXH64 turns a sequence of bytes into 64 bits.  Input of thirty-two bytes or more is taken
in stripes of four words, each word feeding a lane of its own; the lanes are then joined,
the rest of the input is taken word by word, half word and bytes, and the result is
mixed once more.  All arithmetic is modulo `2 ^ 64`.

The seed is zero throughout: the hash only has to spread keys evenly.
-/

namespace ExtentQuery.Hash.XXH64

private def prime1 : UInt64 := 0x9E3779B185EBCA87
private def prime2 : UInt64 := 0xC2B2AE3D27D4EB4F
private def prime3 : UInt64 := 0x165667B19E3779F9
private def prime4 : UInt64 := 0x85EBCA77C2B2AE63
private def prime5 : UInt64 := 0x27D4EB2F165667C5

/-- Rotates a word to the left; the amount lies between one and sixty-three. -/
def rotate (x : UInt64) (amount : UInt64) : UInt64 :=
  (x <<< amount) ||| (x >>> (64 - amount))

/-- The little-endian number in the `count` bytes from `start` on. -/
def wordAt (bytes : ByteArray) (start count : Nat) : UInt64 :=
  (List.range count).foldr
    (fun i word => (word <<< 8) ||| (bytes[start + i]?.getD 0).toUInt64) 0

/-- Feeds a word into a lane. -/
def feed (lane word : UInt64) : UInt64 :=
  rotate (lane + word * prime2) 31 * prime1

/-- The four lanes that take in long input. -/
structure Lanes where
  first : UInt64
  second : UInt64
  third : UInt64
  fourth : UInt64

/-- The lanes before any input. -/
def Lanes.start : Lanes :=
  ⟨prime1 + prime2, prime2, 0, 0 - prime1⟩

/-- Feeds the stripe of thirty-two bytes from `start` on into the lanes. -/
def Lanes.stripe (lanes : Lanes) (bytes : ByteArray) (start : Nat) : Lanes :=
  ⟨feed lanes.first (wordAt bytes start 8), feed lanes.second (wordAt bytes (start + 8) 8),
    feed lanes.third (wordAt bytes (start + 16) 8),
    feed lanes.fourth (wordAt bytes (start + 24) 8)⟩

/-- Joins the lanes into one word. -/
def Lanes.join (lanes : Lanes) : UInt64 :=
  let merge (hash lane : UInt64) := (hash ^^^ feed 0 lane) * prime1 + prime4
  let hash := rotate lanes.first 1 + rotate lanes.second 7 + rotate lanes.third 12
    + rotate lanes.fourth 18
  merge (merge (merge (merge hash lanes.first) lanes.second) lanes.third) lanes.fourth

/-- Takes in the rest of the input, fewer than thirty-two bytes from `start` on. -/
def finishInput (bytes : ByteArray) (start : Nat) (hash : UInt64) : UInt64 :=
  let rest := bytes.size - start
  let words := rest / 8
  let hash := (List.range words).foldl
    (fun hash i =>
      rotate (hash ^^^ feed 0 (wordAt bytes (start + 8 * i) 8)) 27 * prime1 + prime4) hash
  let start := start + 8 * words
  let rest := rest % 8
  let hash :=
    if 4 ≤ rest then rotate (hash ^^^ wordAt bytes start 4 * prime1) 23 * prime2 + prime3
    else hash
  let start := start + 4 * (rest / 4)
  (List.range (rest % 4)).foldl
    (fun hash i => rotate (hash ^^^ wordAt bytes (start + i) 1 * prime5) 11 * prime1) hash

/-- The last mixing. -/
def mix (hash : UInt64) : UInt64 :=
  let hash := (hash ^^^ (hash >>> 33)) * prime2
  let hash := (hash ^^^ (hash >>> 29)) * prime3
  hash ^^^ (hash >>> 32)

/-- The hash of a sequence of bytes. -/
def hash (bytes : ByteArray) : UInt64 :=
  let stripes := bytes.size / 32
  let joined :=
    if stripes = 0 then prime5
    else
      Lanes.join <| (List.range stripes).foldl
        (fun lanes i => Lanes.stripe lanes bytes (32 * i)) Lanes.start
  mix (finishInput bytes (32 * stripes) (joined + bytes.size.toUInt64))

end ExtentQuery.Hash.XXH64
