import Mathlib.Data.Int.Log
import Mathlib.Data.Rat.Floor
import Mathlib.Tactic.Linarith
import Mathlib.Tactic.FieldSimp

/-! # Double precision

The results of the operations on doubles, for values that are zero or in the normal range: the
exact result to 53 significant bits, a tie to the even significand. -/

namespace Binary64

/-- The nearest integer, and of two the even one. -/
def nearest (x : ℚ) : ℤ :=
  if x - ⌊x⌋ < 1 / 2 ∨ x - ⌊x⌋ = 1 / 2 ∧ ⌊x⌋ % 2 = 0 then ⌊x⌋ else ⌊x⌋ + 1

/-- What the last bit of the significand counts. -/
def ulp (q : ℚ) : ℚ := 2 ^ (Int.log 2 q - 52)

def round (q : ℚ) : ℚ := nearest (q / ulp q) * ulp q

def div (p q : ℚ) : ℚ := round (p / q)

theorem nearest_intCast (z : ℤ) : nearest z = z := by
  have hlt : ((z : ℚ) - ⌊(z : ℚ)⌋) < 1 / 2 := by norm_num
  rw [nearest, if_pos (.inl hlt), Int.floor_intCast]

theorem nearest_le_of_le {x : ℚ} {z : ℤ} (h : x ≤ z) : nearest x ≤ z := by
  rw [nearest]
  split
  · exact Int.cast_le.mp ((Int.floor_le x).trans h)
  · rename_i hfrac
    have hlt : (⌊x⌋ : ℚ) < z := by
      have hhalf : 1 / 2 ≤ x - ⌊x⌋ := not_lt.mp fun hlt => hfrac (.inl hlt)
      linarith
    exact Int.add_one_le_of_lt (Int.cast_lt.mp hlt)

theorem sub_half_le_nearest (x : ℚ) : x - 1 / 2 ≤ nearest x := by
  rw [nearest]
  split
  · rename_i hfrac
    rcases hfrac with hlt | ⟨heq, -⟩ <;> linarith
  · have hlt := Int.lt_floor_add_one x
    push_cast
    linarith

theorem ulp_pos (q : ℚ) : 0 < ulp q := zpow_pos (by norm_num) _

/-- The last bit counts at most a 2⁵²nd part. -/
theorem ulp_mul_le {q : ℚ} (hq : 0 < q) : ulp q * 2 ^ 52 ≤ q := by
  have hlog := Int.zpow_log_le_self (R := ℚ) one_lt_two hq
  have hsplit : ulp q * 2 ^ 52 = 2 ^ Int.log 2 q := by
    rw [ulp, ← zpow_natCast, ← zpow_add₀ (by norm_num)]
    congr 1
    omega
  rw [hsplit]
  exact_mod_cast hlog

/-- An integer is a multiple of the last bit below 2⁵³. -/
theorem exists_eq_mul_ulp {q : ℚ} (hq : 0 < q) (hlt : q < 2 ^ 53) (z : ℤ) :
    ∃ w : ℤ, (z : ℚ) = w * ulp q := by
  have hlog : Int.log 2 q < 53 := by
    rw [← Int.lt_zpow_iff_log_lt one_lt_two hq]
    exact_mod_cast hlt
  obtain ⟨k, hk⟩ := Int.eq_ofNat_of_zero_le (show 0 ≤ 52 - Int.log 2 q by omega)
  refine ⟨z * 2 ^ k, ?_⟩
  have hulp : ulp q = (2 ^ k)⁻¹ := by
    rw [ulp, ← zpow_natCast, ← zpow_neg]
    congr 1
    omega
  rw [hulp]
  push_cast
  field_simp

theorem round_le_of_le {q : ℚ} {z : ℤ} (hq : 0 < q) (hlt : q < 2 ^ 53) (h : q ≤ z) :
    round q ≤ z := by
  obtain ⟨w, hw⟩ := exists_eq_mul_ulp hq hlt z
  have hpos := ulp_pos q
  have hle : nearest (q / ulp q) ≤ w := by
    apply nearest_le_of_le
    rwa [div_le_iff₀ hpos, ← hw]
  rw [round, hw]
  exact mul_le_mul_of_nonneg_right (by exact_mod_cast hle) hpos.le

theorem sub_half_ulp_le_round (q : ℚ) : q - ulp q / 2 ≤ round q := by
  have hpos := ulp_pos q
  have hle := mul_le_mul_of_nonneg_right (sub_half_le_nearest (q / ulp q)) hpos.le
  rw [sub_mul, div_mul_cancel₀ _ hpos.ne'] at hle
  rw [round]
  linarith

theorem round_natCast {n : ℕ} (hn : n < 2 ^ 53) : round n = n := by
  rcases Nat.eq_zero_or_pos n with rfl | hpos
  · have hzero : nearest 0 = 0 := by exact_mod_cast nearest_intCast 0
    simp [round, hzero]
  · have hq : (0 : ℚ) < n := by exact_mod_cast hpos
    obtain ⟨w, hw⟩ := exists_eq_mul_ulp hq (by exact_mod_cast hn) n
    have hdiv : (n : ℚ) / ulp n = w := by
      rw [div_eq_iff (ulp_pos _).ne']
      exact_mod_cast hw
    rw [round, hdiv, nearest_intCast]
    exact_mod_cast hw.symm

/-- Below 2⁵³, rounding a quotient does not change what it is rounded up to. -/
theorem ceil_div {m n : ℕ} (hm : m < 2 ^ 53) (hn : 0 < n) :
    ⌈div m n⌉₊ = ⌈(m : ℚ) / n⌉₊ := by
  rcases Nat.eq_zero_or_pos m with rfl | hpos
  · have hzero : round 0 = 0 := by exact_mod_cast round_natCast (n := 0) (by norm_num)
    simp [div, hzero]
  have hn' : (0 : ℚ) < n := by exact_mod_cast hn
  have hq : 0 < (m : ℚ) / n := by positivity
  have hlt : (m : ℚ) / n < 2 ^ 53 := by
    rw [div_lt_iff₀ hn']
    have hone : (1 : ℚ) ≤ n := by exact_mod_cast hn
    have hm' : (m : ℚ) < 2 ^ 53 := by exact_mod_cast hm
    nlinarith
  rw [div, Nat.ceil_eq_iff (Nat.ceil_pos.mpr hq).ne']
  constructor
  · -- the quotient is at least 1/n above the integer below it, and rounding moves it by less
    have hbelow : ((⌈(m : ℚ) / n⌉₊ - 1 : ℕ) : ℚ) < (m : ℚ) / n :=
      Nat.lt_ceil.mp (Nat.sub_lt (Nat.ceil_pos.mpr hq) one_pos)
    generalize ⌈(m : ℚ) / n⌉₊ - 1 = k at hbelow
    have hgap : (k : ℚ) + 1 / n ≤ m / n := by
      rw [lt_div_iff₀ hn'] at hbelow
      have hnat : k * n + 1 ≤ m := by exact_mod_cast hbelow
      rw [le_div_iff₀ hn', add_mul, div_mul_cancel₀ _ hn'.ne']
      exact_mod_cast hnat
    have hulp : ulp ((m : ℚ) / n) / 2 < 1 / n := by
      have hle := ulp_mul_le hq
      have hm' : (m : ℚ) < 2 ^ 53 := by exact_mod_cast hm
      have hfrac : (m : ℚ) / n < 2 ^ 53 * (1 / n) := by
        rw [div_lt_iff₀ hn', mul_assoc, div_mul_cancel₀ _ hn'.ne']
        linarith
      linarith
    have hround := sub_half_ulp_le_round ((m : ℚ) / n)
    linarith
  · exact_mod_cast round_le_of_le (z := ⌈(m : ℚ) / n⌉₊) hq hlt (by exact_mod_cast Nat.le_ceil _)

end Binary64
