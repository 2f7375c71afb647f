/-
# Rounding a quotient to the nearest integer

A quotient of natural numbers is rounded to the nearest integer, and to the even one of two that
are equally near.  Both directions of the conversion between binary and decimal numbers rest on
this one operation, carried out exactly.
-/

namespace ArenaScheme

namespace Number

/-- The integer nearest to `n / d`; half way between two integers it is the even one. -/
def roundDiv (n d : Nat) : Nat :=
  let q := n / d
  let r := n % d
  if 2 * r < d then q
  else if d < 2 * r then q + 1
  else q + q % 2

/-- The rounded quotient is at most half a unit away from the exact one. -/
theorem roundDiv_near (n : Nat) {d : Nat} (hd : 0 < d) :
    2 * n ≤ 2 * d * roundDiv n d + d ∧ 2 * d * roundDiv n d ≤ 2 * n + d := by
  have hr : n % d < d := Nat.mod_lt n hd
  have hn : 2 * (d * (n / d)) + 2 * (n % d) = 2 * n := by
    have := Nat.div_add_mod n d
    omega
  have hstep : 2 * d * (n / d + 1) = 2 * (d * (n / d)) + 2 * d := by
    rw [Nat.mul_add, Nat.mul_assoc, Nat.mul_one]
  have hsame : 2 * d * (n / d) = 2 * (d * (n / d)) := Nat.mul_assoc 2 d (n / d)
  unfold roundDiv
  simp only
  split
  · rw [hsame]; omega
  · split
    · rw [hstep]; omega
    · rcases Nat.mod_two_eq_zero_or_one (n / d) with h | h
      · rw [h, Nat.add_zero, hsame]; omega
      · rw [h, hstep]; omega

/-- A tie goes to the even neighbour. -/
theorem roundDiv_even {n d : Nat} (h : 2 * (n % d) = d) : roundDiv n d % 2 = 0 := by
  simp only [roundDiv, h, Nat.lt_irrefl, if_false]
  omega

end Number

end ArenaScheme
