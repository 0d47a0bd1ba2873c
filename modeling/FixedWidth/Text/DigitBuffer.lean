import FixedWidth.Numeral

/-!
# Decimal digits in a buffer

The digits of a number of 64 bits are put into a buffer of twenty bytes from right to left: one
digit for every division by ten, or two digits for every division by a hundred, copied from a table
of all pairs. Every access is checked: a write to the left of the buffer, a read outside the table
and a byte that is not ASCII make the result empty.
-/

namespace FixedWidth

/-- Twenty bytes, of which those from `start` on are in use. -/
structure DigitBuffer where
  cells : Vector UInt8 20
  start : Fin 21

namespace DigitBuffer

/-- The buffer of which nothing is in use. -/
def blank : DigitBuffer := ⟨Vector.replicate 20 0, 20⟩

/-- Puts a byte in front of those in use, where there is room. -/
def push? (buffer : DigitBuffer) (b : UInt8) : Option DigitBuffer :=
  if h : 0 < buffer.start.val then
    some ⟨buffer.cells.set (buffer.start.val - 1) b (by omega), ⟨buffer.start.val - 1, by omega⟩⟩
  else none

def bytes (buffer : DigitBuffer) : List UInt8 :=
  buffer.cells.toList.drop buffer.start.val

/-- The character of an ASCII byte. -/
def asciiChar? (b : UInt8) : Option Char :=
  if b < 128 then some (Char.ofNat b.toNat) else none

/-- The text in use, if it is ASCII. -/
def text? (buffer : DigitBuffer) : Option String :=
  (buffer.bytes.mapM asciiChar?).map String.ofList

/-! ## One digit at a time -/

/-- The ASCII byte of a digit. -/
def digitByte (d : Nat) : UInt8 := 48 + UInt8.ofNat d

/-- Puts the digits of a number into a buffer, lowest first. -/
def pushDigits? (value : Nat) (buffer : DigitBuffer) : Option DigitBuffer :=
  match buffer.push? (digitByte (value % 10)) with
  | none => none
  | some buffer => if value / 10 = 0 then some buffer else pushDigits? (value / 10) buffer
termination_by value
decreasing_by omega

/-! ## Two digits at a time -/

/-- The digits of the numbers below a hundred, two bytes for each. -/
def pairTable : Vector UInt8 200 where
  toArray :=
    ("0001020304050607080910111213141516171819" ++
      "2021222324252627282930313233343536373839" ++
      "4041424344454647484950515253545556575859" ++
      "6061626364656667686970717273747576777879" ++
      "8081828384858687888990919293949596979899").toUTF8.data
  size_toArray := by decide +kernel

/-- Puts the two digits of a number below a hundred into a buffer. -/
def pushPair? (pair : Nat) (buffer : DigitBuffer) : Option DigitBuffer :=
  match pairTable[2 * pair]?, pairTable[2 * pair + 1]? with
  | some tens, some units => (buffer.push? units).bind (·.push? tens)
  | _, _ => none

/-- Puts the digits of a number into a buffer by pairs, a single one in front where they are odd in
number. -/
def pushPairs? (value : Nat) (buffer : DigitBuffer) : Option DigitBuffer :=
  if 100 ≤ value then
    match pushPair? (value % 100) buffer with
    | none => none
    | some buffer => pushPairs? (value / 100) buffer
  else if 10 ≤ value then pushPair? value buffer
  else buffer.push? (digitByte value)
termination_by value
decreasing_by omega

end DigitBuffer

/-- How many decimal digits are put into a buffer for every division: one or two. -/
inductive DigitEngine where
  | single
  | paired
deriving DecidableEq

namespace DigitEngine

/-- The buffer that holds the decimal digits of a number. -/
def fill? (engine : DigitEngine) (value : Nat) : Option DigitBuffer :=
  match engine with
  | .single => DigitBuffer.pushDigits? value .blank
  | .paired => DigitBuffer.pushPairs? value .blank

/-- The decimal digits of a number. -/
def digits? (engine : DigitEngine) (value : Nat) : Option String :=
  (engine.fill? value).bind DigitBuffer.text?

end DigitEngine

end FixedWidth
