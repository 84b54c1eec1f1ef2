/-
  Counter — counts as the machine adds them.

  A length or a count is a natural number here.  The machine holds it in a word of 64 bits, which is wide
  enough for whatever memory holds.  A running total or the count of a tree made by hand may be any word,
  though, and a sum of two words drops its carry.  Two sums of the program take in such a number: the total
  of folded values, and the balance of children and siblings taken away that a verification checks.
  Both are sums of words.  A build that checks for overflow stops where such a sum would wrap around;
  what is said here is what a build without the check does.

  1. **Words** — numbers below `2 ^ 64` are told apart by their words, and so are a number and the next.
  2. **Sums** — the sum of two numbers in a word, exact where it fits.
-/

namespace StyleFold

/-- What the machine holds a count in. -/
abbrev Counter := UInt64

namespace Counter

/-! ## Words -/

/-- Two numbers that fit into a word are one if their words are. -/
theorem eq_of_ofNat {m n : Nat} (h : UInt64.ofNat m = UInt64.ofNat n) (hm : m < UInt64.size)
    (hn : n < UInt64.size) : m = n := by
  rw [← UInt64.toNat_ofNat_of_lt' hm, h, UInt64.toNat_ofNat_of_lt' hn]

/-- One more is another word, even where it is zero again. -/
theorem ofNat_succ_ne (n : Nat) : UInt64.ofNat (n + 1) ≠ UInt64.ofNat n := by
  intro h
  have hmod := congrArg UInt64.toNat h
  rw [UInt64.toNat_ofNat', UInt64.toNat_ofNat'] at hmod
  omega

/-! ## Sums -/

/-- The sum of two counts as the machine takes it. -/
def sum (m n : Nat) : Counter := UInt64.ofNat m + UInt64.ofNat n

/-- The carry is dropped from the sum as it is from the word of the sum. -/
theorem sum_eq_ofNat (m n : Nat) : sum m n = UInt64.ofNat (m + n) := (UInt64.ofNat_add m n).symm

/-- A number is the sum of two counts if its word is, and both fit. -/
theorem eq_add_of_sum {k m n : Nat} (h : UInt64.ofNat k = sum m n) (hk : k < UInt64.size)
    (hsum : m + n < UInt64.size) : k = m + n :=
  eq_of_ofNat (h.trans (sum_eq_ofNat m n)) hk hsum

/-- The largest word and one more make zero. -/
example : sum (UInt64.size - 1) 1 = 0 := by decide

end Counter

end StyleFold
