import FixedWidth.Word

/-!
# Buffers of words

A buffer holds a fixed number of raw patterns of one width. It is seen as unsigned words, or made
from signed ones, without any change of bits, and written one word at a time at an index inside it.
In memory every word takes its bytes in little-endian order.
-/

namespace FixedWidth

/-! ## Bytes of a word -/

namespace Word

/-- The bytes of a word, lowest first. -/
def toBytes {k : Kind} (x : Word k) : List UInt8 :=
  (List.range k.width.bytes).map fun i => UInt8.ofNat (x.toNat >>> (8 * i))

/-- The number whose bytes are these, lowest first. -/
def natOfBytes : List UInt8 → Nat
  | [] => 0
  | b :: bs => b.toNat + 256 * natOfBytes bs

/-- The unsigned word with these bytes, if they are as many as its width has. -/
def ofBytes? (w : Width) (bytes : List UInt8) : Option (Unsigned w) :=
  if bytes.length = w.bytes then some (ofNat _ (natOfBytes bytes)) else none

end Word

/-! ## Buffers -/

/-- A buffer of `n` raw patterns of one width. -/
structure Buffer (w : Width) (n : Nat) where
  patterns : Vector (BitVec w.bits) n
deriving DecidableEq

namespace Buffer

variable {w : Width} {n : Nat}

/-- The buffer as unsigned words. -/
def view (buffer : Buffer w n) : Vector (Unsigned w) n := buffer.patterns.map fun b => ⟨b⟩

/-- The buffer whose patterns are the plain binary readings of unsigned words. -/
def ofUnsigned (words : Vector (Unsigned w) n) : Buffer w n := ⟨words.map fun x => x.bits⟩

/-- The buffer that shares the bits of signed words. -/
def ofSigned (words : Vector (Signed w) n) : Buffer w n := ⟨words.map fun x => x.bits⟩

def write (buffer : Buffer w n) (i : Fin n) (x : Unsigned w) : Buffer w n :=
  ⟨buffer.patterns.set i x.bits⟩

/-- The buffers after each of a sequence of writes. -/
def history (buffer : Buffer w n) : List (Fin n × Unsigned w) → List (Buffer w n)
  | [] => []
  | (i, x) :: steps => buffer.write i x :: (buffer.write i x).history steps

def writeAll (buffer : Buffer w n) (steps : List (Fin n × Unsigned w)) : Buffer w n :=
  steps.foldl (fun buffer step => buffer.write step.1 step.2) buffer

/-- The bytes of a buffer in memory order. -/
def toBytes (buffer : Buffer w n) : List UInt8 := buffer.view.toList.flatMap Word.toBytes

theorem view_write (buffer : Buffer w n) (i : Fin n) (x : Unsigned w) :
    (buffer.write i x).view = buffer.view.set i x := by
  simp [view, write]

end Buffer

end FixedWidth
