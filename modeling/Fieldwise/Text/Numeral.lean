/-!
# Numerals

The value of an integer numeral. The start of the text selects the base: `0x` sixteen, `0b` two, a
zero before further characters eight, and anything else ten. Letters for unsigned and long at the
end do not count. One underscore may stand between two digits or after the letters that select a
base, blanks around the numeral are ignored, and a decimal numeral may have a sign.

Between a number and its decimal digits there is a limit, in both directions (`maxDigits`): a longer
numeral has no value, and a number that needs more digits has no text.
-/

namespace Fieldwise.Numeral

/-- A letter that says that a constant is unsigned or long. -/
def isSuffixLetter (c : Char) : Bool := c == 'u' || c == 'U' || c == 'l' || c == 'L'

/-- The value of a digit or letter, as a digit of a base above it. -/
def digitValue (c : Char) : Nat :=
  if '0' ≤ c && c ≤ '9' then c.toNat - '0'.toNat
  else if 'a' ≤ c && c ≤ 'z' then c.toNat - 'a'.toNat + 10
  else if 'A' ≤ c && c ≤ 'Z' then c.toNat - 'A'.toNat + 10
  else 36

/-- The value of digits after a digit, read so far as `acc`. -/
def digitsAfter (base acc : Nat) : List Char → Option Nat
  | [] => some acc
  | '_' :: c :: cs =>
    if digitValue c < base then digitsAfter base (acc * base + digitValue c) cs else none
  | c :: cs =>
    if digitValue c < base then digitsAfter base (acc * base + digitValue c) cs else none

/-- The value of one or more digits of a base. -/
def digits (base : Nat) : List Char → Option Nat
  | [] => none
  | c :: cs => if digitValue c < base then digitsAfter base (digitValue c) cs else none

/-- The value of digits after the letters that select their base. -/
def digitsOfBase (base : Nat) : List Char → Option Nat
  | '_' :: cs => digits base cs
  | cs => digits base cs

/-- A character that may stand around a numeral. -/
def isBlank (c : Char) : Bool :=
  let n := c.toNat
  (9 ≤ n && n ≤ 13) || (28 ≤ n && n ≤ 32) || n == 0x85 || n == 0xa0

/-- The most decimal digits that are converted, from text or to text. -/
def maxDigits : Nat := 4300

/-- Whether a number has not too many decimal digits. -/
def fits (z : Int) : Bool := (Nat.toDigits 10 z.natAbs).length ≤ maxDigits

/-- The value of decimal digits, if there are not too many. -/
def decimal (cs : List Char) : Option Nat :=
  if (cs.filter (· != '_')).length ≤ maxDigits then digits 10 cs else none

/-- The value of a decimal numeral with or without a sign. -/
def signed : List Char → Option Int
  | '-' :: cs => (decimal cs).map fun n : Nat => -(n : Int)
  | '+' :: cs => (decimal cs).map fun n : Nat => (n : Int)
  | cs => (decimal cs).map fun n : Nat => (n : Int)

/-- A text without what a test holds for at its end. -/
def dropEnd (p : Char → Bool) (cs : List Char) : List Char := (cs.reverse.dropWhile p).reverse

/-- The value of a numeral without suffix. -/
def valueOf (cs : List Char) : Option Int :=
  let trimmed := dropEnd isBlank cs
  match cs with
  | '0' :: c :: _ =>
    match trimmed.drop 1 with
    | [] => some 0
    | _ :: rest =>
      if c == 'x' || c == 'X' then (digitsOfBase 16 rest).map fun n => (n : Int)
      else if c == 'b' || c == 'B' then (digitsOfBase 2 rest).map fun n => (n : Int)
      else if c == 'o' || c == 'O' then (digitsOfBase 8 rest).map fun n => (n : Int)
      else (digits 8 trimmed).map fun n => (n : Int)
  | _ => signed (trimmed.dropWhile isBlank)

/-- The value of a numeral, if it is one. -/
def value? (text : String) : Option Int := valueOf (dropEnd isSuffixLetter text.toList)

/-- The types of the constants that have an integer value. -/
def integerTypes : List String := ["int", "unsigned int", "long int", "unsigned long int"]

end Fieldwise.Numeral
