import FixedWidth.Buffer
import FixedWidth.Numeral.Reader
import FixedWidth.Primitive
import FixedWidth.Program
import FixedWidth.Proofs.Arithmetic.Division
import FixedWidth.Proofs.Arithmetic.Fold
import FixedWidth.Proofs.Arithmetic.Negation
import FixedWidth.Proofs.Arithmetic.Shift
import FixedWidth.Proofs.Arithmetic.Wrapping
import FixedWidth.Proofs.BitCount
import FixedWidth.Proofs.Buffer.Writing
import FixedWidth.Proofs.Conversion.Chain
import FixedWidth.Proofs.Conversion.Interfaces
import FixedWidth.Proofs.Equality
import FixedWidth.Proofs.Expression
import FixedWidth.Proofs.HashCode
import FixedWidth.Proofs.Numeral.Refusal
import FixedWidth.Proofs.Primitive.Binary32
import FixedWidth.Proofs.Primitive.Binary64
import FixedWidth.Proofs.Primitive.Integer
import FixedWidth.Proofs.Program.Typing
import FixedWidth.Proofs.Sorting
import FixedWidth.Proofs.Table.Blindness
import FixedWidth.Proofs.Text.Distinction
import FixedWidth.Proofs.Text.Engine
import FixedWidth.Proofs.Text.Failure
import FixedWidth.Proofs.Text.Field
import FixedWidth.Proofs.Text.RoundTrip
import FixedWidth.Table.Map
import FixedWidth.Table.Set
import FixedWidth.Word.BitCount
