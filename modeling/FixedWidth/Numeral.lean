/-!
# Numerals

A number is written in a radix from 2 to 36 as the list of its digits, highest first and without
superfluous zeros. The digits above nine are letters, and the case of the letters is chosen by
whoever writes; a reader accepts both.
-/

namespace FixedWidth

/-- The case of the letters that stand for the digits above nine. -/
inductive LetterCase where
  | lower
  | upper
deriving DecidableEq

/-- The character of a digit below 36. -/
def LetterCase.digit (letters : LetterCase) (d : Nat) : Char :=
  if d < 10 then Char.ofNat ('0'.toNat + d)
  else
    match letters with
    | .lower => Char.ofNat ('a'.toNat + (d - 10))
    | .upper => Char.ofNat ('A'.toNat + (d - 10))

/-- The digit that an ASCII digit or letter of either case stands for in radix 36. -/
def digitValue? (c : Char) : Option Nat :=
  if '0' ≤ c ∧ c ≤ '9' then some (c.toNat - '0'.toNat)
  else if 'a' ≤ c ∧ c ≤ 'z' then some (c.toNat - 'a'.toNat + 10)
  else if 'A' ≤ c ∧ c ≤ 'Z' then some (c.toNat - 'A'.toNat + 10)
  else none

/-- A radix in which numerals can be written with digits and letters. -/
structure Radix where
  base : Nat
  two_le : 2 ≤ base := by decide
  le_36 : base ≤ 36 := by decide

namespace Radix

def binary : Radix := { base := 2 }

def octal : Radix := { base := 8 }

def decimal : Radix := { base := 10 }

def hexadecimal : Radix := { base := 16 }

def ofNat? (n : Nat) : Option Radix :=
  if h : 2 ≤ n ∧ n ≤ 36 then some ⟨n, h.1, h.2⟩ else none

/-- The digits of a number, highest first; zero has the one digit zero. -/
def digits (r : Radix) (n : Nat) : List Nat :=
  if n < r.base then [n] else r.digits (n / r.base) ++ [n % r.base]
termination_by n
decreasing_by
  have := r.two_le
  exact Nat.div_lt_self (by omega) (by omega)

def write (r : Radix) (letters : LetterCase) (n : Nat) : String :=
  String.ofList ((r.digits n).map letters.digit)

/-- The digit that a character stands for, if it is below the radix. -/
def digitOf? (r : Radix) (c : Char) : Option Nat :=
  (digitValue? c).filter (· < r.base)

theorem digits_lt (r : Radix) (n : Nat) : ∀ d ∈ r.digits n, d < r.base := by
  have := r.two_le
  fun_induction digits r n with
  | case1 n h => simpa using h
  | case2 n h ih =>
    intro d hd
    rcases List.mem_append.mp hd with hd | hd
    · exact ih d hd
    · rw [List.mem_singleton.mp hd]
      exact Nat.mod_lt _ (by omega)

end Radix

end FixedWidth
