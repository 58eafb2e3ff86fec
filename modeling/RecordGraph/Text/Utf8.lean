/-!
Texts as bytes and back. Ill-formed bytes are marked one maximal part at a time, so that a reader may
refuse them or put the replacement character in their place.
-/
namespace RecordGraph.Text.Utf8

/-- The bytes of one character. -/
def encodeChar (c : Char) : List UInt8 :=
  let n := c.toNat
  let tail (k : Nat) : UInt8 := UInt8.ofNat (0x80 + (n >>> (6 * k)) % 64)
  if n < 0x80 then [UInt8.ofNat n]
  else if n < 0x800 then [UInt8.ofNat (0xC0 + n / 64), tail 0]
  else if n < 0x10000 then [UInt8.ofNat (0xE0 + (n >>> 12)), tail 1, tail 0]
  else [UInt8.ofNat (0xF0 + (n >>> 18)), tail 2, tail 1, tail 0]

def encode (s : String) : List UInt8 := s.toList.flatMap encodeChar

/-- Bytes as characters, each byte as the character of the same number. -/
def octets (bs : List UInt8) : List Char := bs.map fun b => Char.ofNat b.toNat

def isTail (b : UInt8) : Bool := 0x80 ≤ b && b ≤ 0xBF

/-- How many bytes follow a lead byte, and the range of the first of them. -/
def lead (b : UInt8) : Option (Nat × UInt8 × UInt8) :=
  if 0xC2 ≤ b && b ≤ 0xDF then some (1, 0x80, 0xBF)
  else if b = 0xE0 then some (2, 0xA0, 0xBF)
  else if b = 0xED then some (2, 0x80, 0x9F)
  else if 0xE1 ≤ b && b ≤ 0xEF then some (2, 0x80, 0xBF)
  else if b = 0xF0 then some (3, 0x90, 0xBF)
  else if 0xF1 ≤ b && b ≤ 0xF3 then some (3, 0x80, 0xBF)
  else if b = 0xF4 then some (3, 0x80, 0x8F)
  else none

/-- The bits that a lead byte with `follow` bytes after it carries. -/
def leadBits (b : UInt8) (follow : Nat) : Nat := b.toNat % (1 <<< (6 - follow))

/-- Finish a character that owes `owed` bytes; `low` and `high` bound the next one. -/
def finish (acc : Nat) (low high : UInt8) : Nat → List UInt8 → Option Char × List UInt8
  | 0, bs => (some (Char.ofNat acc), bs)
  | _ + 1, [] => (none, [])
  | owed + 1, b :: bs =>
    if low ≤ b && b ≤ high then finish (acc * 64 + b.toNat % 64) 0x80 0xBF owed bs
    else (none, b :: bs)

theorem finish_length (acc : Nat) (low high : UInt8) (owed : Nat) (bs : List UInt8) :
    (finish acc low high owed bs).2.length ≤ bs.length := by
  induction owed generalizing acc low high bs with
  | zero => simp [finish]
  | succ owed ih =>
    cases bs with
    | nil => simp [finish]
    | cons b bs =>
      unfold finish
      split
      · exact Nat.le_succ_of_le (ih _ _ _ _)
      · simp

/-- The first character, none where the bytes begin with an ill-formed part. -/
def next (b : UInt8) (bs : List UInt8) : Option Char × List UInt8 :=
  if b < 0x80 then (some (Char.ofNat b.toNat), bs)
  else match lead b with
    | none => (none, bs)
    | some (follow, low, high) => finish (leadBits b follow) low high follow bs

theorem next_length (b : UInt8) (bs : List UInt8) : (next b bs).2.length ≤ bs.length := by
  unfold next
  split
  · simp
  · split
    · simp
    · exact finish_length ..

/-- The characters of the bytes, none for each ill-formed part. -/
def units : List UInt8 → List (Option Char)
  | [] => []
  | b :: bs =>
    have := next_length b bs
    (next b bs).1 :: units (next b bs).2
termination_by bs => bs.length

/-- The text the bytes encode, if they are well formed. -/
def decode (bs : List UInt8) : Option String := ((units bs).mapM id).map String.ofList

/-- Bytes that are given as characters. -/
def ofOctets (cs : List Char) : List UInt8 := cs.map fun c => UInt8.ofNat c.toNat

/-- What is left of the bytes from the first ill-formed part on. -/
def illFormedRest : List UInt8 → List UInt8
  | [] => []
  | b :: bs =>
    have := next_length b bs
    if (next b bs).1.isSome then illFormedRest (next b bs).2 else b :: bs
termination_by bs => bs.length

/-- The text the bytes encode, with the replacement character for each ill-formed part. -/
def decodeLossy (bs : List UInt8) : String :=
  String.ofList ((units bs).map fun c => c.getD (Char.ofNat 0xFFFD))

end RecordGraph.Text.Utf8
