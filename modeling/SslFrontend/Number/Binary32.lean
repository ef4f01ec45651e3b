import SslFrontend.Number.Rounding

/-! # Binary32 numbers

A floating-point number of 32 bits, kept as its bits: a sign, eight bits of
exponent and twenty-three of fraction.  Reading a decimal and converting a
whole number round once, to the nearest number, a half going to the even
fraction.  The four operations of arithmetic are the machine's.
-/

namespace SslFrontend

structure Binary32 where
  bits : UInt32
deriving DecidableEq, Repr, Inhabited

namespace Binary32

def signBit : UInt32 := 0x80000000

/-- The least bit pattern that is no finite magnitude: infinity. -/
def infinityBits : Nat := 0x7F800000

def isNegative (x : Binary32) : Bool := x.bits &&& signBit != 0

/-- The bits without the sign. -/
def magnitude (x : Binary32) : Nat := (x.bits &&& 0x7FFFFFFF).toNat

def isZero (x : Binary32) : Bool := x.magnitude == 0

def isFinite (x : Binary32) : Bool := x.magnitude < infinityBits

def isNaN (x : Binary32) : Bool := infinityBits < x.magnitude

/-- Twenty-three stored bits of fraction stand below the leading one. -/
def fractionBits : Nat := 23

/-- The leading one, counted in units of the least bit of the fraction. -/
def leadingOne : Nat := Nat.pow 2 fractionBits

/-- The exponent of the least bit of the smallest positive number. -/
def minExponent : Int := -149

/-- Magnitude bits of the number nearest to `num / den`; infinity when it is
out of range. -/
def nearestBits (num den : Nat) : Nat :=
  if num = 0 then 0
  else
    let exponent := max (Number.floorLog2 num den - fractionBits) minExponent
    let (top, bottom) := Number.scaled 2 num den (-exponent)
    let fraction := Number.divNearest top bottom
    min infinityBits ((exponent - minExponent).toNat * leadingOne + fraction)

def ofMagnitude (negative : Bool) (magnitude : Nat) : Binary32 :=
  ⟨UInt32.ofNat magnitude ||| (if negative then signBit else 0)⟩

/-- The number nearest to `num / den`, or its negation. -/
def ofRatio (negative : Bool) (num den : Nat) : Binary32 :=
  ofMagnitude negative (nearestBits num den)

def ofInt (n : Int) : Binary32 := ofRatio (n < 0) n.natAbs 1

/-- Decimal exponents outside this bound are out of range for any mantissa of
ordinary length: `10 ^ 39` overflows and `10 ^ -46` rounds to zero. -/
def decimalRange : Int := 50

/-- The number nearest to `mantissa · 10 ^ exponent`. -/
def ofDecimal (mantissa : Nat) (exponent : Int) : Binary32 :=
  let leading := (Nat.toDigits 10 mantissa).length + exponent
  if mantissa = 0 ∨ leading < -decimalRange then ⟨0⟩
  else if decimalRange < leading then ofMagnitude false infinityBits
  else
    let (num, den) := Number.scaled 10 mantissa 1 exponent
    ofRatio false num den

def neg (x : Binary32) : Binary32 := ⟨x.bits ^^^ signBit⟩

def lift (op : Float32 → Float32 → Float32) (x y : Binary32) : Binary32 :=
  ⟨(op (Float32.ofBits x.bits) (Float32.ofBits y.bits)).toBits⟩

def add : Binary32 → Binary32 → Binary32 := lift (· + ·)

def sub : Binary32 → Binary32 → Binary32 := lift (· - ·)

def mul : Binary32 → Binary32 → Binary32 := lift (· * ·)

def div : Binary32 → Binary32 → Binary32 := lift (· / ·)

/-- A finite magnitude as `fraction · 2 ^ exponent`. -/
def decode (x : Binary32) : Nat × Int :=
  let stored := x.magnitude % leadingOne
  match x.magnitude / leadingOne with
  | 0 => (stored, minExponent)
  | field + 1 => (leadingOne + stored, minExponent + field)

example : (ofDecimal 15 (-1)).bits = 0x3FC00000 := by decide +kernel
example : (ofDecimal 1 (-45)).bits = 1 := by decide +kernel
example : (ofDecimal 34028236 31).isFinite = false := by decide +kernel
example : (ofInt (-16777217)).bits = 0xCB800000 := by decide +kernel

end Binary32

end SslFrontend
