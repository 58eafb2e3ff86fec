import RecordGraph.Digest.Sha256

/-!
Keyed digests: who knows the key of a message can compute its code, and check one by computing it.
-/
namespace RecordGraph.Hmac

/-- A key as one block of sixty-four bytes; a longer one is hashed first. -/
def blockKey (key : List UInt8) : List UInt8 :=
  let short := if 64 < key.length then Sha256.hash key else key
  short ++ List.replicate (64 - short.length) 0

theorem length_blockKey (key : List UInt8) : (blockKey key).length = 64 := by
  unfold blockKey
  split
  · simp [Sha256.length_hash]
  · simp; omega

/-- The code of a message under a key: an outer digest of the digest of the message. -/
def code (key message : List UInt8) : List UInt8 :=
  let block := blockKey key
  Sha256.hash (block.map (· ^^^ 0x5c) ++ Sha256.hash (block.map (· ^^^ 0x36) ++ message))

end RecordGraph.Hmac
