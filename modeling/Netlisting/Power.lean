/-!
# Powers of two and of ten

The two bases in which numbers are written here, as functions of the exponent.
-/

namespace Netlisting

def pow2 (n : Nat) : Nat := Nat.pow 2 n

def pow10 (n : Nat) : Nat := Nat.pow 10 n

theorem pow2_zero : pow2 0 = 1 := rfl

theorem pow10_zero : pow10 0 = 1 := rfl

theorem pow2_succ (n : Nat) : pow2 (n + 1) = pow2 n * 2 := Nat.pow_succ 2 n

theorem pow10_succ (n : Nat) : pow10 (n + 1) = pow10 n * 10 := Nat.pow_succ 10 n

theorem pow2_add (m n : Nat) : pow2 (m + n) = pow2 m * pow2 n := Nat.pow_add 2 m n

theorem pow10_add (m n : Nat) : pow10 (m + n) = pow10 m * pow10 n := Nat.pow_add 10 m n

theorem pow2_pos (n : Nat) : 0 < pow2 n := Nat.pow_pos (by decide)

theorem pow10_pos (n : Nat) : 0 < pow10 n := Nat.pow_pos (by decide)

end Netlisting
