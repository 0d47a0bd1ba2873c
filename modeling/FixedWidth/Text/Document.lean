/-!
# Documents and sinks

A document is a text in the order in which it is written, and a sink is where it is written to, one
character at a time. The first character that a sink has no room for fails, and a failed write ends
the writing of the whole document. An indented part puts a margin of four spaces before the first
character of every line, so that an empty line at its end stays empty.

`Document.emit` writes a document and can be stopped anywhere by the sink; `Document.chars` is the
text that is there when nothing stops it.
-/

namespace FixedWidth

/-- A text in the order in which it is written: text, one character a number of times, one document
after another, margins before the lines of another, or a part that cannot be written. -/
inductive Document where
  | text (s : String)
  | fill (n : Nat) (c : Char)
  | seq (first second : Document)
  | indented (body : Document)
  | refused
deriving DecidableEq

namespace Document

instance : Append Document := ⟨seq⟩

/-! ## The text of a document -/

/-- The margin of an indented line. -/
def margin : List Char := [' ', ' ', ' ', ' ']

/-- The characters of a text with a margin before each line; `atStart` says whether a line begins.
-/
def indentLines : (atStart : Bool) → List Char → List Char
  | _, [] => []
  | true, c :: cs => margin ++ c :: indentLines (c == '\n') cs
  | false, c :: cs => c :: indentLines (c == '\n') cs

def chars : Document → List Char
  | text s => s.toList
  | fill n c => List.replicate n c
  | seq first second => first.chars ++ second.chars
  | indented body => indentLines true body.chars
  | refused => []

/-- Whether every part of a document can be written. -/
def isWritable : Document → Bool
  | text _ => true
  | fill _ _ => true
  | seq first second => first.isWritable && second.isWritable
  | indented body => body.isWritable
  | refused => false

/-! ## Writing a document -/

/-- Writes a character behind a margin, with the mark of whether a line starts in the state. -/
def putIndented {σ : Type} (put : σ → Char → Except σ σ) :
    Bool × σ → Char → Except (Bool × σ) (Bool × σ)
  | (true, t), c =>
    match margin.foldlM put t >>= (put · c) with
    | .ok t => .ok (c == '\n', t)
    | .error t => .error (true, t)
  | (false, t), c =>
    match put t c with
    | .ok t => .ok (c == '\n', t)
    | .error t => .error (false, t)

/-- Writes a document with a writer of characters, up to the first that it does not accept. -/
def emit : Document → {σ : Type} → (σ → Char → Except σ σ) → σ → Except σ σ
  | text s, _, put, t => s.toList.foldlM put t
  | fill n c, _, put, t => (List.replicate n c).foldlM put t
  | seq first second, _, put, t => first.emit put t >>= second.emit put
  | indented body, _, put, t =>
    match body.emit (putIndented put) (true, t) with
    | .ok (_, t) => .ok t
    | .error (_, t) => .error t
  | refused, _, _, t => .error t

end Document

/-! ## Sinks -/

/-- What a sink has accepted, and its remaining room, if that is limited. -/
structure Sink where
  accepted : String := ""
  room : Option Nat := none

/-- Writes a character to a sink. -/
def Sink.put (s : Sink) (c : Char) : Except Sink Sink :=
  match s.room with
  | none => .ok { s with accepted := s.accepted.push c }
  | some 0 => .error s
  | some (n + 1) => .ok ⟨s.accepted.push c, some n⟩

/-- What came of writing a document: what the sink accepted, and whether this is all of it. -/
structure Written where
  text : String
  complete : Bool
deriving DecidableEq

/-- Writes a document to an empty sink with room for `limit` characters. -/
def Document.write (d : Document) (limit : Option Nat) : Written :=
  match d.emit Sink.put { room := limit } with
  | .ok s => ⟨s.accepted, true⟩
  | .error s => ⟨s.accepted, false⟩

/-- The text of a document, written to a sink without a limit. -/
def Document.toText (d : Document) : String := (d.write none).text

namespace Document

/-! ## The two meanings agree -/

theorem foldlM_putIndented {σ : Type} (put : σ → Char → Except σ σ) (cs : List Char)
    (atStart : Bool) (t : σ) :
    (match cs.foldlM (putIndented put) (atStart, t) with
      | .ok (_, t) => Except.ok t
      | .error (_, t) => Except.error t) = (indentLines atStart cs).foldlM put t := by
  induction cs generalizing atStart t with
  | nil => cases atStart <;> rfl
  | cons c cs ih =>
    cases atStart with
    | true =>
      simp only [List.foldlM_cons, indentLines, List.foldlM_append, putIndented]
      cases h : margin.foldlM put t with
      | error t => rfl
      | ok t =>
        cases hc : put t c with
        | error t => simp [bind, Except.bind, hc]
        | ok t => simpa [bind, Except.bind, hc] using ih (c == '\n') t
    | false =>
      simp only [List.foldlM_cons, indentLines, putIndented]
      cases hc : put t c with
      | error t => rfl
      | ok t => exact ih (c == '\n') t

/-- **Writing a document is writing its characters in order.** -/
theorem emit_eq_foldlM (d : Document) (h : d.isWritable) {σ : Type}
    (put : σ → Char → Except σ σ) (t : σ) : d.emit put t = d.chars.foldlM put t := by
  induction d generalizing σ with
  | text s => rfl
  | fill n c => rfl
  | seq first second ih₁ ih₂ =>
    simp only [isWritable, Bool.and_eq_true] at h
    simp only [emit, chars, List.foldlM_append]
    rw [ih₁ h.1, funext (ih₂ h.2 put)]
  | indented body ih =>
    simp only [emit, chars]
    rw [ih h, foldlM_putIndented]
  | refused => cases h

end Document

end FixedWidth
