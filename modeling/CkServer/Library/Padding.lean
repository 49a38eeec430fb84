import Mathlib.Data.Nat.Notation

/-! # Padding in wrapping arithmetic

The distance from `p` up to a multiple of `n` is the remainder of `n - p`. Where the subtraction
wraps around at `m`, the remainder is the one of another number. -/

namespace Padding

variable {m n p d : ℕ}

def pad (m p n : ℕ) : ℕ := (n + m - p % m) % m % n

theorem pad_lt (m p : ℕ) (hn : 0 < n) : pad m p n < n := Nat.mod_lt _ hn

/-- What the two remainders have taken away. -/
theorem add_pad (hm : 0 < m) (p n : ℕ) :
    p + pad m p n + (n * ((n + m - p % m) % m / n) + m * ((n + m - p % m) / m)) =
      m * (p / m) + m + n := by
  have hlt := Nat.mod_lt p hm
  have hp := Nat.div_add_mod p m
  have hwrap := Nat.div_add_mod (n + m - p % m) m
  have hrest := Nat.div_add_mod ((n + m - p % m) % m) n
  rw [pad]
  omega

/-- A common divisor of `n` and `m` divides the padded address. -/
theorem dvd_add_pad (hm : 0 < m) (hdn : d ∣ n) (hdm : d ∣ m) (p : ℕ) : d ∣ p + pad m p n := by
  have htaken : d ∣ n * ((n + m - p % m) % m / n) + m * ((n + m - p % m) / m) :=
    Nat.dvd_add (Nat.dvd_mul_right_of_dvd hdn _) (Nat.dvd_mul_right_of_dvd hdm _)
  have hsum : d ∣ m * (p / m) + m + n :=
    Nat.dvd_add (Nat.dvd_add (Nat.dvd_mul_right_of_dvd hdm _) hdm) hdn
  rw [← add_pad hm p n] at hsum
  exact (Nat.dvd_add_left htaken).mp hsum

/-! ## The exact condition -/

/-- Without a wrap. -/
theorem add_pad_of_le (hnm : n < m) (hp : p ≤ n) :
    p + pad m p n = 0 ∨ p + pad m p n = n := by
  have hsmall : p % m = p := Nat.mod_eq_of_lt (by omega)
  rcases Nat.eq_zero_or_pos p with rfl | hpos
  · left
    rw [pad, hsmall, Nat.sub_zero, Nat.add_mod_right, Nat.mod_eq_of_lt hnm, Nat.mod_self]
  · right
    have hsub : n + m - p = n - p + m := by omega
    have hm : (n - p) % m = n - p := Nat.mod_eq_of_lt (by omega)
    have hmod : (n - p) % n = n - p := Nat.mod_eq_of_lt (by omega)
    rw [pad, hsmall, hsub, Nat.add_mod_right, hm, hmod]
    omega

/-- With a wrap the padded address is a multiple of `n` below `m`, counted from `m`. -/
theorem add_pad_of_lt (hp : p < m) (h : n < p) :
    p + pad m p n + n * ((n + m - p) / n) = m + n := by
  have hsmall : p % m = p := Nat.mod_eq_of_lt hp
  have hrest := Nat.div_add_mod (n + m - p) n
  rw [pad, hsmall, Nat.mod_eq_of_lt (by omega : n + m - p < m)]
  omega

/-- The padded address is a multiple of `n` exactly if `n` divides `m`, the subtraction does not
wrap, or the padded address is `m`. -/
theorem dvd_add_pad_iff (hn : 0 < n) (hnm : n < m) (hp : p < m) :
    n ∣ (p + pad m p n) % m ↔ n ∣ m ∨ p ≤ n ∨ m < p + n := by
  by_cases hle : p ≤ n
  · have hdvd : n ∣ (p + pad m p n) % m := by
      rcases add_pad_of_le hnm hle with hzero | hself
      · rw [hzero, Nat.zero_mod]
        exact Nat.dvd_zero n
      · have hmod : (p + pad m p n) % m = n := by rw [hself, Nat.mod_eq_of_lt hnm]
        exact ⟨1, hmod.trans (Nat.mul_one n).symm⟩
    exact iff_of_true hdvd (.inr (.inl hle))
  · have hsum := add_pad_of_lt hp (Nat.not_le.mp hle)
    by_cases hlast : m < p + n
    · -- one multiple of `n` is taken away, and the sum is `m`
      have hone : (n + m - p) / n = 1 :=
        Nat.div_eq_of_lt_le (by omega) (by omega)
      rw [hone, Nat.mul_one] at hsum
      have hself : p + pad m p n = m := by omega
      rw [hself, Nat.mod_self]
      exact iff_of_true (Nat.dvd_zero n) (.inr (.inr hlast))
    · obtain ⟨k, hk⟩ : ∃ k, (n + m - p) / n = k + 2 :=
        ⟨(n + m - p) / n - 2, by
          have htwo : 2 ≤ (n + m - p) / n := (Nat.le_div_iff_mul_le hn).mpr (by omega)
          omega⟩
      rw [hk, Nat.mul_add, Nat.mul_two] at hsum
      have hm : p + pad m p n + n * (k + 1) = m := by
        rw [Nat.mul_add, Nat.mul_one]
        omega
      have hlt : p + pad m p n < m := by
        have hpos : 0 < n * (k + 1) := Nat.mul_pos hn (Nat.succ_pos k)
        omega
      rw [Nat.mod_eq_of_lt hlt]
      constructor
      · intro hdvd
        left
        rw [← hm]
        exact Nat.dvd_add hdvd (Nat.dvd_mul_right n (k + 1))
      · rintro (hdvd | h | h)
        · rw [← hm] at hdvd
          exact (Nat.dvd_add_left (Nat.dvd_mul_right n (k + 1))).mp hdvd
        · exact absurd h hle
        · exact absurd h hlast

end Padding
