/-
  Fixed — a number with a fixed count of decimal places.

  A finite double is a whole number times a power of two, so it is a quotient of whole numbers and its
  decimal places are found without any rounding but the last.

  1. **Rounding** — `roundHalfEven`, the whole number nearest to a quotient, of two the even one.
  2. **Doubles** — sign, numerator and denominator of a double.
  3. **Text** — sign, whole part, point and places.
-/

namespace StyleFold.Decimal

/-! ## Rounding -/

/-- The whole number nearest to `num / den`, the even one of two. -/
def roundHalfEven (num den : Nat) : Nat :=
  let q := num / den
  let twice := 2 * (num % den)
  if twice < den then q
  else if den < twice then q + 1
  else q + q % 2

/-- No whole number is nearer than the rounded one: the error is half a unit at most. -/
theorem roundHalfEven_error (num den : Nat) (h : 0 < den) :
    2 * (den * roundHalfEven num den) ≤ 2 * num + den ∧
      2 * num ≤ 2 * (den * roundHalfEven num den) + den := by
  have split : den * (num / den) + num % den = num := Nat.div_add_mod num den
  have less : num % den < den := Nat.mod_lt num h
  simp only [roundHalfEven]
  -- Below the half the remainder is the error, above it what the remainder lacks, and at the half
  -- both are the same.
  split
  · omega
  · split
    · rw [Nat.mul_add]
      omega
    · rcases Nat.mod_two_eq_zero_or_one (num / den) with even | odd
      · rw [even, Nat.add_zero]
        omega
      · rw [odd, Nat.mul_add]
        omega

/-- A tie goes to the even neighbour. -/
theorem roundHalfEven_of_tie (num den : Nat) (h : 2 * (num % den) = den) :
    roundHalfEven num den % 2 = 0 := by
  simp only [roundHalfEven, h, Nat.lt_irrefl, if_false]
  omega

/-! ## Doubles -/

/-- A finite double as a signed quotient. -/
structure Quotient where
  negative : Bool
  num : Nat
  den : Nat

/-- The value of a double that is finite, from its sign bit, eleven bits of exponent and 52 of fraction. -/
def Quotient.ofFloat (x : Float) : Quotient :=
  let bits := x.toBits.toNat
  let exponent := bits / Nat.pow 2 52 % Nat.pow 2 11
  let fraction := bits % Nat.pow 2 52
  let significand := if exponent = 0 then fraction else Nat.pow 2 52 + fraction
  let scale := max exponent 1
  { negative := bits / Nat.pow 2 63 = 1
    num := significand * Nat.pow 2 (scale - 1075)
    den := Nat.pow 2 (1075 - scale) }

/-! ## Text -/

/-- The decimal digits of a number, at least one. -/
def digits (n : Nat) : List Char := Nat.toDigits 10 n

/-- The quotient with `places` digits after the point; it keeps its sign where nothing but zeros is left. -/
def Quotient.toText (places : Nat) (x : Quotient) : List Char :=
  let scaled := roundHalfEven (x.num * Nat.pow 10 places) x.den
  let below := digits (scaled % Nat.pow 10 places)
  (if x.negative then ['-'] else []) ++ digits (scaled / Nat.pow 10 places) ++
    if places = 0 then [] else '.' :: (List.replicate (places - below.length) '0' ++ below)

/-- A double with `places` digits after the point. -/
def fixed (places : Nat) (x : Float) : String := String.ofList ((Quotient.ofFloat x).toText places)

/-! ## Sanity checks -/

example : roundHalfEven 5 2 = 2 ∧ roundHalfEven 7 2 = 4 ∧ roundHalfEven 8 3 = 3 := by decide
example : Quotient.toText 1 ⟨false, 1, 4⟩ = ['0', '.', '2'] := by decide +kernel
example : Quotient.toText 1 ⟨true, 3, 4⟩ = ['-', '0', '.', '8'] := by decide +kernel
example : Quotient.toText 2 ⟨false, 2501, 100⟩ = ['2', '5', '.', '0', '1'] := by decide +kernel

end StyleFold.Decimal
