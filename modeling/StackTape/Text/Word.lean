/-!
# Machine words

Widths, levels and pointers are signed 64 bit words, so their sums and products wrap around.
-/

namespace StackTape

/-- The number of 64 bit words, `2 ^ 64`. -/
def wordCount : Nat := 18446744073709551616

/-- The least number above the signed 64 bit words, `2 ^ 63`. -/
def wordBound : Nat := 9223372036854775808

/-- The signed 64 bit word congruent to `n` modulo `2 ^ 64`. -/
def wrap64 (n : Int) : Int := Int.bmod n wordCount

/-- A word in range is its own wrapped form. -/
theorem wrap64_eq_self {n : Int} (lo : -wordBound ≤ n) (hi : n < wordBound) : wrap64 n = n := by
  simp only [wordBound] at lo hi
  unfold wrap64 wordCount
  rw [Int.bmod_eq_of_le] <;> omega

theorem wrap64_lt (n : Int) : wrap64 n < wordBound := by
  have h : wrap64 n < (wordCount + 1) / 2 := Int.bmod_lt (by decide)
  simp only [wordCount, wordBound] at h ⊢
  omega

end StackTape
