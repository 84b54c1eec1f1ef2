/-
  Number — TOML integers, fractions, dates and times.

  Integers are decimal, or hexadecimal, octal or binary with a letter in front; they must fit 64 bits.
  Fractions and dates are checked and then forgotten: a fraction must not exceed the range of double
  precision upwards, a date must be one of the calendar.
-/
import StyleFold.Toml.Lexical
import StyleFold.Toml.Value

namespace StyleFold.Toml

/-! ## Integers -/

/-- The sign in front of a number, if there is one, and the rest. -/
def sign (t : Text) : Bool × Text :=
  match t with
  | '-' :: rest => (true, rest)
  | '+' :: rest => (false, rest)
  | t => (false, t)

/-- A decimal number with its sign; a zero in front is a number of its own. -/
def decimal? (t : Text) : Option ((Bool × List Nat) × Text) :=
  let (negative, rest) := sign t
  match rest with
  | '0' :: rest => some ((negative, [0]), rest)
  | rest => (digits? 10 rest).map fun r => ((negative, r.1), r.2)

/-- The value of an integer, if it fits 64 bits. -/
def boundedInteger? (negative : Bool) (magnitude : Nat) : Option Value :=
  let n : Int := if negative then -magnitude else magnitude
  if -Int.pow 2 63 ≤ n ∧ n < Int.pow 2 63 then some (.integer n) else none

/-- An integer in any of the four bases. -/
def integer? (t : Text) : Option (Value × Text) :=
  let based (base : Nat) (t : Text) : Option (Value × Text) := do
    let (ds, rest) ← digits? base t
    return (← boundedInteger? false (ofDigits base ds), rest)
  match t with
  | '0' :: 'x' :: t => based 16 t
  | '0' :: 'o' :: t => based 8 t
  | '0' :: 'b' :: t => based 2 t
  | t => do
    let ((negative, ds), rest) ← decimal? t
    return (← boundedInteger? negative (ofDigits 10 ds), rest)

/-! ## Fractions -/

/-- Whether `digits` times ten to the power `exponent` exceeds the range of double precision: the bound
    lies half a unit in the last place above the greatest finite number. -/
def exceedsDouble (digits : List Nat) (exponent : Int) : Bool :=
  let n := ofDigits 10 digits
  let bound := Nat.pow 2 1024 - Nat.pow 2 970
  if n = 0 then false
  else if 400 < exponent then true
  else if 0 ≤ exponent then bound ≤ n * Nat.pow 10 exponent.toNat
  else if exponent < -(400 + digits.length : Int) then false
  else bound * Nat.pow 10 (-exponent).toNat ≤ n

/-- The exponent part. -/
def exponent? : Text → Option (Int × Text)
  | c :: t =>
    if c = 'e' ∨ c = 'E' then do
      let (negative, t) := sign t
      let (ds, rest) ← digits? 10 t
      let n := ofDigits 10 ds
      return (if negative then -(n : Int) else n, rest)
    else
      none
  | [] => none

/-- The digits after the point. -/
def fraction? : Text → Option (List Nat × Text)
  | '.' :: t => digits? 10 t
  | _ => none

/-- Infinity and the undefined number, with a sign or without. -/
def special? (t : Text) : Option (Value × Text) :=
  match (sign t).2 with
  | 'i' :: 'n' :: 'f' :: rest => some (.float, rest)
  | 'n' :: 'a' :: 'n' :: rest => some (.float, rest)
  | _ => none

/-- A number with a point or an exponent. -/
def float? (t : Text) : Option (Value × Text) := do
  let ((negative, whole), rest) ← decimal? t
  let (ds, exponent, rest) ←
    match exponent? rest with
    | some (e, rest) => some (whole, e, rest)
    | none => do
      let (part, rest) ← fraction? rest
      let (e, rest) := (exponent? rest).getD (0, rest)
      some (whole ++ part, e - part.length, rest)
  if !negative && exceedsDouble ds exponent then none else return (.float, rest)

/-! ## Dates and times -/

/-- The rest of a text that begins with `c`. -/
def skip? (c : Char) : Text → Option Text
  | d :: t => if d = c then some t else none
  | [] => none

/-- Days of a month. -/
def daysIn (year month : Nat) : Nat :=
  if month = 2 then
    if year % 4 = 0 ∧ (year % 100 ≠ 0 ∨ year % 400 = 0) then 29 else 28
  else if month = 4 ∨ month = 6 ∨ month = 9 ∨ month = 11 then 30
  else 31

/-- The text after a number of so many digits that lies within bounds. -/
def boundedDigits? (count low high : Nat) (t : Text) : Option (Nat × Text) :=
  (fixedDigits? count t).filter fun r => low ≤ r.1 && r.1 ≤ high

/-- The text after a date. -/
def date? (t : Text) : Option Text := do
  let (year, t) ← fixedDigits? 4 t
  let (month, t) ← boundedDigits? 2 1 12 (← skip? '-' t)
  let (_, t) ← boundedDigits? 2 1 (daysIn year month) (← skip? '-' t)
  return t

/-- The text after the fraction of a second, if there is one: a point and plain digits. -/
def skipFraction : Text → Text
  | '.' :: c :: t => if c.isDigit then t.dropWhile Char.isDigit else '.' :: c :: t
  | t => t

/-- The text after the hours and minutes. -/
def clock? (t : Text) : Option Text := do
  let (_, t) ← boundedDigits? 2 0 23 t
  let (_, t) ← boundedDigits? 2 0 59 (← skip? ':' t)
  return t

/-- The text after a time of day; a leap second is allowed. -/
def time? (t : Text) : Option Text := do
  let t ← clock? t
  let (_, t) ← boundedDigits? 2 0 60 (← skip? ':' t)
  return skipFraction t

/-- The text after an offset from universal time. -/
def offset? : Text → Option Text
  | c :: t =>
    if c = 'Z' ∨ c = 'z' then some t
    else if c = '+' ∨ c = '-' then clock? t
    else none
  | [] => none

/-- The text after the time of day that follows a date. -/
def timeOfDate? : Text → Option Text
  | c :: t =>
    if c = 'T' ∨ c = 't' ∨ c = ' ' then do
      let t ← time? t
      return (offset? t).getD t
    else
      none
  | [] => none

/-- A date, a time, or both. -/
def dateTime? (t : Text) : Option (Value × Text) :=
  match date? t with
  | some rest => some (.dateTime, (timeOfDate? rest).getD rest)
  | none => (time? t).map fun rest => (.dateTime, rest)

/-! ## Any of them -/

/-- A number, a date or a time. -/
def number? : Reader Value := fun t =>
  (dateTime? t).orElse fun _ => (float? t).orElse fun _ => (special? t).orElse fun _ => integer? t

/-! ## Sanity checks -/

example : time? "07:32:00.12,".toList = some [','] := by decide
example : time? "07:32:00.1_2".toList = some ['_', '2'] := by decide
example : fraction? ".1_2".toList = some ([1, 2], []) := by decide

end StyleFold.Toml
