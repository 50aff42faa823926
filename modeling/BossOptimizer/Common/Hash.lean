/-!
# Hash values: `gpos::HashByteArray`, `gpos::CombineHashes`

Both are from `utils.cpp`. Words are read byte by byte, the low byte first.
-/

namespace BossOptimizer

/-- The bytes of a word of `k` bytes, low byte first. -/
def bytesOf {w : Nat} (k : Nat) (u : BitVec w) : List (BitVec 8) :=
  (List.range k).map fun i => (u >>> (8 * i)).setWidth 8

/-- `gpos::HashByteArray` (utils.cpp:116). -/
def HashByteArray (byte_array : List (BitVec 8)) : BitVec 32 :=
  byte_array.foldl (fun hash b => (hash <<< 5 ^^^ hash >>> 27) ^^^ b.setWidth 32)
    (BitVec.ofNat 32 byte_array.length)

/-- `gpos::CombineHashes` (utils.cpp:139). -/
def CombineHashes (hash1 hash2 : BitVec 32) : BitVec 32 :=
  HashByteArray (bytesOf 4 hash1 ++ bytesOf 4 hash2)

end BossOptimizer
