import Mathlib

/-!
# The bytes of JSON texts

The bytes that stand for something in a JSON text.
-/

namespace JsonText

abbrev Bytes := List UInt8

/-- The bytes of a string literal. -/
def bytesOf (s : String) : Bytes := s.toUTF8.data.toList

def dquote : UInt8 := 0x22
def backslash : UInt8 := 0x5C
def comma : UInt8 := 0x2C
def colon : UInt8 := 0x3A
def minus : UInt8 := 0x2D
def openBracket : UInt8 := 0x5B
def closeBracket : UInt8 := 0x5D
def openBrace : UInt8 := 0x7B
def closeBrace : UInt8 := 0x7D

def hexVal (b : UInt8) : Option Nat :=
  let n := b.toNat
  if 48 ≤ n ∧ n ≤ 57 then some (n - 48)
  else if 97 ≤ n ∧ n ≤ 102 then some (n - 87)
  else if 65 ≤ n ∧ n ≤ 70 then some (n - 55)
  else none

def isDigit (b : UInt8) : Bool := decide (48 ≤ b.toNat ∧ b.toNat ≤ 57)

def readNat (ds : Bytes) : Nat := ds.foldl (fun n b => n * 10 + (b.toNat - 48)) 0

/-- The sign of an exponent. -/
def expSign : Bytes → Bytes × Bytes
  | [] => ([], [])
  | b :: s => if b = minus ∨ b = 0x2B then ([b], s) else ([], b :: s)

def isSpace (b : UInt8) : Bool := decide (b = 0x20 ∨ b = 0x09 ∨ b = 0x0A ∨ b = 0x0D)

def skipSpace (s : Bytes) : Bytes := s.dropWhile isSpace

end JsonText
