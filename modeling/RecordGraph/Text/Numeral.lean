import RecordGraph.Value.Basic

/-!
Numbers written as text outside of any format: an optional sign, decimal digits with leading zeros
allowed, and for decimals a point and an exponent. Decimals are rounded once, to the nearest double.
-/
namespace RecordGraph.Text

def digitsToNat (cs : List Char) : Nat := cs.foldl (fun n c => n * 10 + (c.toNat - 48)) 0

/-- A nonempty run of digits. -/
def digits? (cs : List Char) : Option Nat :=
  if !cs.isEmpty && cs.all Char.isDigit then some (digitsToNat cs) else none

/-- A natural number with an optional plus sign. -/
def nat? (s : String) : Option Nat :=
  match s.toList with
  | '+' :: cs => digits? cs
  | cs => digits? cs

/-- A natural number of at most 64 bits. -/
def uint64? (s : String) : Option UInt64 :=
  (nat? s).bind fun n => if n < UInt64.size then some (UInt64.ofNat n) else none

/-- An integer that 64 bits hold with a sign. -/
def int64? (s : String) : Option Int :=
  let value : Option Int := match s.toList with
    | '-' :: cs => (digits? cs).map fun n => -(n : Int)
    | '+' :: cs => (digits? cs).map fun n => (n : Int)
    | cs => (digits? cs).map fun n => (n : Int)
  value.filter fun i => -0x8000000000000000 ≤ i && i < 0x8000000000000000

/-- The exponent after its mark: an optional sign and at least one digit. -/
def exponent? : List Char → Option Int
  | '-' :: cs => (digits? cs).map fun n => -(n : Int)
  | '+' :: cs => (digits? cs).map fun n => (n : Int)
  | cs => (digits? cs).map fun n => (n : Int)

/-- The nearest double, computed only where the answer is not plainly zero or out of range. -/
def roundDecimal (negative : Bool) (coefficient : Nat) (exponent : Int) : Option Double :=
  if coefficient = 0 then Double.ofDecimal negative 0 0
  else if 400 < exponent then none
  else if exponent + (Nat.toDigits 10 coefficient).length < -400 then Double.ofDecimal negative 0 0
  else Double.ofDecimal negative coefficient exponent

def unsignedDecimal? (negative : Bool) (cs : List Char) : Option Double :=
  let isMark (c : Char) := c == 'e' || c == 'E'
  let mantissa := cs.takeWhile fun c => !isMark c
  let whole := mantissa.takeWhile (· != '.')
  let fraction := (mantissa.dropWhile (· != '.')).drop 1
  if !whole.all Char.isDigit || !fraction.all Char.isDigit || (whole.isEmpty && fraction.isEmpty) then
    none
  else
    let exponent := match cs.dropWhile fun c => !isMark c with
      | [] => some 0
      | _ :: rest => exponent? rest
    exponent.bind fun e =>
      roundDecimal negative (digitsToNat (whole ++ fraction)) (e - (fraction.length : Int))

/-- A decimal that rounds to a finite double. -/
def decimal? (s : String) : Option Double :=
  match s.toList with
  | '-' :: cs => unsignedDecimal? true cs
  | '+' :: cs => unsignedDecimal? false cs
  | cs => unsignedDecimal? false cs

/-- The number a text writes: an integer where it fits, else a double. -/
def number? (s : String) : Option Number :=
  match int64? s with
  | some i => Number.ofInt? i
  | none => (decimal? s).map .double

end RecordGraph.Text
