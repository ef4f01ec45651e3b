/-! # Rounding a quotient

`divNearest num den` is the whole number nearest to `num / den`; a quotient
halfway between two of them goes to the even one.  `floorLog2 num den` is the
exponent of the greatest power of two that is at most `num / den`.  Main
statements: the rounded quotient is at most half a unit away, and a half goes
to the even neighbour.
-/

namespace SslFrontend.Number

def divNearest (num den : Nat) : Nat :=
  let low := num / den
  let twice := 2 * (num % den)
  if twice < den then low
  else if twice > den then low + 1
  else low + low % 2

theorem divNearest_near {num den : Nat} (h : 0 < den) :
    2 * num ≤ 2 * (divNearest num den * den) + den ∧
      2 * (divNearest num den * den) ≤ 2 * num + den := by
  have hdm : den * (num / den) + num % den = num := Nat.div_add_mod num den
  have hlt : num % den < den := Nat.mod_lt num h
  have hmul : num / den * den = den * (num / den) := Nat.mul_comm _ _
  unfold divNearest
  dsimp only
  split
  · rw [hmul]; omega
  split
  · rw [Nat.add_mul, hmul]; omega
  · rcases Nat.mod_two_eq_zero_or_one (num / den) with hm | hm
    · rw [hm, Nat.add_zero, hmul]; omega
    · rw [hm, Nat.add_mul, hmul]; omega

theorem divNearest_even_of_tie {num den : Nat} (h : 2 * (num % den) = den) :
    divNearest num den % 2 = 0 := by
  unfold divNearest
  dsimp only
  rw [if_neg (by omega), if_neg (by omega)]
  omega

/-- `num · base ^ shift / den`, for a shift of either sign, as a pair of
naturals. -/
def scaled (base num den : Nat) (shift : Int) : Nat × Nat :=
  match shift with
  | .ofNat up => (num * Nat.pow base up, den)
  | .negSucc down => (num, den * Nat.pow base (down + 1))

def floorLog2 (num den : Nat) : Int :=
  let guess : Int := (num.log2 : Int) - (den.log2 : Int)
  let (top, bottom) := scaled 2 num den (-guess)
  if bottom ≤ top then guess else guess - 1

end SslFrontend.Number
