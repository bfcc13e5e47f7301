/-!
# Code units

A path is a run of fixed-width code units: octets in a narrow path, 16-bit units in a wide one. The
path grammar is written in ASCII alone, so it asks little of a unit: a number to compare with ASCII
values, and a unit for each octet. The laws say that the number determines the unit and that the
unit of an octet has that octet's number; every rule below is stated through them, which is why
narrow and wide paths behave alike.
-/

set_option autoImplicit false

namespace PathForms

/-- A type of code units. `width` is the size of one unit in octets, which is one or two. -/
class CodeUnit (α : Type) where
  code : α → Nat
  ofByte : UInt8 → α
  width : Nat
  code_injective : ∀ a b : α, code a = code b → a = b
  code_ofByte : ∀ b : UInt8, code (ofByte b) = b.toNat
  width_pos : 0 < width
  width_le : width ≤ 2

instance : CodeUnit UInt8 where
  code a := a.toNat
  ofByte b := b
  width := 1
  code_injective _ _ h := UInt8.toNat_inj.1 h
  code_ofByte _ := rfl
  width_pos := by decide
  width_le := by decide

instance : CodeUnit UInt16 where
  code a := a.toNat
  ofByte b := b.toUInt16
  width := 2
  code_injective _ _ h := UInt16.toNat_inj.1 h
  code_ofByte b := UInt8.toNat_toUInt16 b
  width_pos := by decide
  width_le := by decide

namespace CodeUnit

def dot : UInt8 := 46
def slash : UInt8 := 47
def colon : UInt8 := 58
def backslash : UInt8 := 92
def tilde : UInt8 := 126

variable {α : Type} [CodeUnit α]

def nul : α := ofByte 0

def isByte (b : UInt8) (a : α) : Bool := code a == b.toNat

def isNul (a : α) : Bool := isByte 0 a

def isDot (a : α) : Bool := isByte dot a

def toAscii? (a : α) : Option UInt8 :=
  if code a < 128 then some (UInt8.ofNat (code a)) else none

def isUpper (a : α) : Bool := decide (65 ≤ code a ∧ code a ≤ 90)

def isLower (a : α) : Bool := decide (97 ≤ code a ∧ code a ≤ 122)

def isDriveLetter (a : α) : Bool := isUpper a || isLower a

/-- Lowers the ASCII capitals and leaves every other unit alone, accented capitals included. -/
def foldCase (a : α) : α :=
  if isUpper a then ofByte (UInt8.ofNat (code a + 32)) else a

theorem eq_iff_code_eq {a b : α} : a = b ↔ code a = code b :=
  ⟨fun h => by rw [h], code_injective a b⟩

theorem isByte_iff {b : UInt8} {a : α} : isByte b a = true ↔ a = ofByte b := by
  rw [eq_iff_code_eq (a := a), code_ofByte, isByte, beq_iff_eq]

end CodeUnit

end PathForms
