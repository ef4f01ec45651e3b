import SslFrontend.Number.Shortest
import SslFrontend.Text.Pool

/-! # Values

What a literal or a variable holds: a whole number of 32 bits, a binary32
number, or a text of the unit's string space.  In storage every value takes
four bytes, the least significant first.
-/

namespace SslFrontend

inductive ValueKind where
  | int
  | float
  | string
deriving DecidableEq, Repr

/-- The number by which a host knows a kind of value. -/
def ValueKind.tag : ValueKind → Nat
  | .int => 1
  | .float => 2
  | .string => 3

inductive Value where
  | int (n : Int32)
  | float (x : Binary32)
  | string (handle : Handle)
deriving DecidableEq, Repr

namespace Value

instance : Inhabited Value := ⟨.int 0⟩

def kind : Value → ValueKind
  | .int _ => .int
  | .float _ => .float
  | .string _ => .string

def int? : Value → Option Int32
  | .int n => some n
  | _ => none

/-- How code is printed with a value; a text shows its offset only. -/
def text : Value → String
  | .int n => toString n.toInt
  | .float x => x.text
  | .string handle => s!"@{handle.offset}"

/-- The word a value is stored as. -/
def word : Value → UInt32
  | .int n => n.toUInt32
  | .float x => x.bits
  | .string handle => UInt32.ofNat handle.offset

/-- The four bytes of a word, the least significant first. -/
def wordBytes (w : UInt32) : List UInt8 :=
  [w.toUInt8, (w >>> 8).toUInt8, (w >>> 16).toUInt8, (w >>> 24).toUInt8]

theorem wordBytes_length (w : UInt32) : (wordBytes w).length = 4 := rfl

def bytes (value : Value) : List UInt8 := wordBytes value.word

/-- The greatest index that a value can carry. -/
def maxIndex : Nat := 0x7FFFFFFF

/-- A table index or an argument count as a value. -/
def ofIndex (index : Nat) : Value := .int (Int32.ofNat (min index maxIndex))

def index? : Value → Option Nat
  | .int n => if 0 ≤ n then some n.toNatClampNeg else none
  | _ => none

theorem index?_ofIndex {index : Nat} (h : index ≤ maxIndex) :
    (ofIndex index).index? = some index := by
  have hsmall : index < 2 ^ 31 := Nat.lt_succ_of_le h
  have hint : (Int32.ofNat index).toInt = (index : Int) :=
    Int32.toInt_ofNat_of_lt hsmall
  have hle : (0 : Int32) ≤ Int32.ofNat index := by
    rw [Int32.le_iff_toInt_le, hint]
    simp
  rw [ofIndex, Nat.min_eq_left h, index?, if_pos hle, Int32.toNatClampNeg, hint]
  rfl

end Value

end SslFrontend
