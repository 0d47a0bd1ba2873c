import FixedWidth.Scalar
import FixedWidth.Text.Padding

/-!
# The texts of words, scalars, kinds and failures

Every value that can be written has a document for each form that it supports.

* A word of an unsigned kind has all forms. In decimal, for display and for debugging alike, it
  never shows a sign; in the other radices a sign and the mark of the radix are written as asked.
* A scalar is written for display like a number of its kind. For debugging its tag stands before
  the number in brackets, signed numbers in two's complement where hexadecimal is asked for.
* Kinds and failures are plain text that no layout applies to, except that the debugging text of a
  failure with fields is spread over lines by the alternate flag.
-/

namespace FixedWidth

/-! ## Numbers -/

/-- The decimal text of a signed word. -/
def Word.signedDecimal {w : Width} (x : Signed w) (spec : Spec) : Document :=
  spec.number (x.toInt < 0) "" (Radix.decimal.write .lower x.toInt.natAbs)

/-- The hexadecimal text of the bits of a word. -/
def Word.hexadecimal {k : Kind} (x : Word k) (letters : LetterCase) (spec : Spec) : Document :=
  spec.number false "0x" (Radix.hexadecimal.write letters x.toNat)

/-- The text of an unsigned word. -/
def Word.document {w : Width} (x : Unsigned w) (engine : DigitEngine) (form : Form) (spec : Spec) :
    Document :=
  match form with
  | .display => engine.decimal spec x.toNat
  | .debug _ => engine.decimal spec x.toNat
  | .hexadecimal letters => x.hexadecimal letters spec
  | .octal => spec.number false "0o" (Radix.octal.write .lower x.toNat)
  | .binary => spec.number false "0b" (Radix.binary.write .lower x.toNat)

namespace Scalar

def decimal (a : Scalar) (spec : Spec) : Document :=
  match a with
  | ⟨⟨.unsigned, _⟩, x⟩ => DigitEngine.single.decimal spec x.toNat
  | ⟨⟨.signed, _⟩, x⟩ => x.signedDecimal spec

/-- The number inside the debugging text of a scalar. -/
def debugNumber (a : Scalar) (hex : Option LetterCase) (spec : Spec) : Document :=
  match a, hex with
  | ⟨⟨.signed, _⟩, x⟩, some letters => x.hexadecimal letters spec
  | _, _ => a.decimal spec

def debug (a : Scalar) (hex : Option LetterCase) (spec : Spec) : Document :=
  if spec.alternate then
    .text a.kind.tag ++ .text "(\n" ++
      .indented (a.debugNumber hex spec ++ .text ",\n") ++ .text ")"
  else
    .text a.kind.tag ++ .text "(" ++ a.debugNumber hex spec ++ .text ")"

end Scalar

/-! ## Failures -/

namespace KindError

/-- The fields of a failure, one on each line. -/
def fieldLines : List (String × Kind) → Document
  | [] => .text ""
  | (name, k) :: fields =>
    .indented (.text name ++ .text ": " ++ .text k.tag ++ .text ",\n") ++ fieldLines fields

/-- The fields of a failure on one line; `before` stands before the first of them. -/
def fieldList (before : String) : List (String × Kind) → Document
  | [] => .text ""
  | (name, k) :: fields =>
    .text before ++ .text name ++ .text ": " ++ .text k.tag ++ fieldList ", " fields

def debug (e : KindError) (spec : Spec) : Document :=
  if spec.alternate then
    .text e.name ++ .text " \x7b\n" ++ fieldLines e.fields ++ .text "\x7d"
  else
    .text e.name ++ fieldList " \x7b " e.fields ++ .text " \x7d"

end KindError

/-! ## Subjects -/

/-- What can be written: the word of a scalar with an engine for its decimal digits, a scalar, a
kind or a failure. -/
inductive Subject where
  | word (engine : DigitEngine) (a : Scalar)
  | scalar (a : Scalar)
  | kind (k : Kind)
  | arithmetic (e : ArithmeticError)
  | kinds (e : KindError)

namespace Subject

/-- The radix forms exist for unsigned words only; words of signed kinds are written elsewhere. -/
def document (subject : Subject) (form : Form) (spec : Spec) : Except Fault Document :=
  match subject, form with
  | .word engine ⟨⟨.unsigned, _⟩, x⟩, form => .ok (x.document engine form spec)
  | .scalar a, .display => .ok (a.decimal spec)
  | .scalar a, .debug hex => .ok (a.debug hex spec)
  | .kind k, .display => .ok (.text k.name)
  | .kind k, .debug _ => .ok (.text k.tag)
  | .arithmetic e, .display => .ok (.text e.message)
  | .arithmetic e, .debug _ => .ok (.text e.name)
  | .kinds e, .display => .ok (.text e.message)
  | .kinds e, .debug _ => .ok (e.debug spec)
  | _, _ => .error .undefined

end Subject

/-- The text of a scalar for display. -/
def Scalar.toText (a : Scalar) : String := (a.decimal {}).toText

/-- The text of a failure of kinds for debugging. -/
def KindError.debugText (e : KindError) : String := (e.debug {}).toText

end FixedWidth
