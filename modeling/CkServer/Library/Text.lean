import Mathlib.Algebra.Group.Nat.Defs
import Mathlib.Data.Int.Notation
import Mathlib.Data.Nat.Notation

/-! # Byte strings

Texts are lists of bytes. String literals are read through their characters' codes, and
numbers are printed and read in decimal. -/

namespace Text

/-- The byte of a character, the low eight bits of its code. -/
def byte (c : Char) : UInt8 := UInt8.ofNat c.toNat

def ascii (s : String) : List UInt8 := s.toList.map byte

/-! ## Decimal numbers -/

/-- The decimal digits of `n`, most significant first and without leading zeros. -/
def decimal (n : ℕ) : List UInt8 := (Nat.toDigits 10 n).map byte

def isDigit (b : UInt8) : Bool := 48 ≤ b.toNat && b.toNat ≤ 57

/-- The value of a nonempty string of decimal digits. -/
def decimal? (bs : List UInt8) : Option ℕ :=
  if bs ≠ [] ∧ bs.all isDigit then some (bs.foldl (fun n b => 10 * n + (b.toNat - 48)) 0)
  else none

theorem byte_toNat_of_isDigit {c : Char} (hc : c.isDigit) : (byte c).toNat = c.toNat := by
  simp only [Char.isDigit, Bool.and_eq_true, decide_eq_true_eq] at hc
  have hle : c.toNat ≤ 57 := hc.2
  simp only [byte, UInt8.toNat_ofNat']
  omega

theorem isDigit_byte {c : Char} (hc : c.isDigit) : isDigit (byte c) := by
  have hnat := byte_toNat_of_isDigit hc
  simp only [Char.isDigit, Bool.and_eq_true, decide_eq_true_eq] at hc
  have hge : 48 ≤ c.toNat := hc.1
  have hle : c.toNat ≤ 57 := hc.2
  simp only [isDigit, hnat, Bool.and_eq_true, decide_eq_true_eq]
  exact ⟨hge, hle⟩

theorem isDigit_of_mem_decimal {n : ℕ} {b : UInt8} (hb : b ∈ decimal n) : isDigit b := by
  obtain ⟨c, hc, rfl⟩ := List.mem_map.mp hb
  exact isDigit_byte (Nat.isDigit_of_mem_toDigits (by decide) (by decide) hc)

theorem decimal_ne_nil (n : ℕ) : decimal n ≠ [] := by
  simp [decimal, Nat.toDigits_ne_nil]

private theorem foldl_byte (cs : List Char) (hcs : ∀ c ∈ cs, c.isDigit) (acc : ℕ) :
    (cs.map byte).foldl (fun n b => 10 * n + (b.toNat - 48)) acc =
      Nat.ofDigitChars 10 cs acc := by
  induction cs generalizing acc with
  | nil => simp
  | cons c cs ih =>
      rw [List.map_cons, List.foldl_cons, Nat.ofDigitChars_cons,
        byte_toNat_of_isDigit (hcs c (by simp)), ih (fun d hd => hcs d (by simp [hd]))]
      rfl

/-- Reading undoes printing. -/
theorem decimal?_decimal (n : ℕ) : decimal? (decimal n) = some n := by
  have hdigits : (decimal n).all isDigit := by
    rw [List.all_eq_true]
    exact fun b hb => isDigit_of_mem_decimal hb
  have hvalue := foldl_byte (Nat.toDigits 10 n)
    (fun c hc => Nat.isDigit_of_mem_toDigits (by decide) (by decide) hc) 0
  rw [Nat.ofDigitChars_ten_toDigits] at hvalue
  rw [decimal?, if_pos ⟨decimal_ne_nil n, hdigits⟩]
  exact congrArg some hvalue

theorem decimal_injective {m n : ℕ} (h : decimal m = decimal n) : m = n := by
  have hread := decimal?_decimal m
  rw [h, decimal?_decimal] at hread
  exact (Option.some.inj hread).symm

theorem length_decimal_le {n digits : ℕ} (hdigits : 0 < digits) (h : n < 10 ^ digits) :
    (decimal n).length ≤ digits := by
  rw [decimal, List.length_map]
  exact (Nat.length_toDigits_le_iff (by omega) hdigits).mpr h

/-! ## The last digit -/

/-- The digit `d`. -/
def digit (d : ℕ) : UInt8 := UInt8.ofNat (48 + d)

theorem byte_digitChar {d : ℕ} (h : d < 10) : byte (Nat.digitChar d) = digit d := by
  have hall : ∀ d < 10, byte (Nat.digitChar d) = digit d := by decide
  exact hall d h

theorem digit_ne_zero {d : ℕ} (h : d < 10) (hne : d ≠ 0) : digit d ≠ byte '0' := by
  have hall : ∀ d < 10, d ≠ 0 → digit d ≠ byte '0' := by decide
  exact hall d h hne

theorem decimal_of_lt {n : ℕ} (h : n < 10) : decimal n = [digit n] := by
  rw [decimal, Nat.toDigits_of_lt_base h, List.map_singleton, byte_digitChar h]

theorem decimal_of_le {n : ℕ} (h : 10 ≤ n) :
    decimal n = decimal (n / 10) ++ [digit (n % 10)] := by
  rw [decimal, Nat.toDigits_of_base_le (by decide) h, List.map_append, List.map_singleton,
    byte_digitChar (Nat.mod_lt n (by decide))]
  rfl

/-- Only zero has a leading zero. -/
theorem head?_decimal_ne_zero {n : ℕ} (h : n ≠ 0) : (decimal n).head? ≠ some (byte '0') := by
  induction n using Nat.strongRecOn with
  | ind n ih =>
      by_cases hlt : n < 10
      · rw [decimal_of_lt hlt, List.head?_cons]
        exact fun heq => digit_ne_zero hlt h (Option.some.inj heq)
      · obtain ⟨first, rest, hfirst⟩ := List.exists_cons_of_ne_nil (decimal_ne_nil (n / 10))
        have hhead := ih (n / 10) (by omega) (by omega)
        rw [hfirst] at hhead
        rw [decimal_of_le (by omega), hfirst]
        exact hhead

/-! ## Integers -/

/-- The value of a number with or without a minus sign. -/
def integer? (bs : List UInt8) : Option ℤ :=
  if bs.head? = some (byte '-') then (decimal? bs.tail).map fun n : ℕ => -(n : ℤ)
  else (decimal? bs).map fun n : ℕ => (n : ℤ)

theorem head?_decimal_ne_minus (n : ℕ) : (decimal n).head? ≠ some (byte '-') := by
  intro hhead
  obtain ⟨tail, htail⟩ := List.head?_eq_some_iff.mp hhead
  have hdigit := isDigit_of_mem_decimal (n := n) (b := byte '-') (by simp [htail])
  exact absurd hdigit (by decide)

/-- The decimal notation of `n`: a minus sign for a negative number only, at least one digit, and
no leading zeros. -/
structure Canonical (text : List UInt8) (n : ℤ) : Prop where
  sign : text.head? = some (byte '-') ↔ n < 0
  digits : ∃ ds, text = (if n < 0 then [byte '-'] else []) ++ ds ∧ ds ≠ [] ∧
    (∀ b ∈ ds, isDigit b) ∧ (ds.head? = some (byte '0') → ds = [byte '0'])
  reads : integer? text = some n

theorem eq_of_head?_decimal {n : ℕ} (h : (decimal n).head? = some (byte '0')) :
    decimal n = [byte '0'] := by
  by_cases hn : n = 0
  · subst hn
    rfl
  · exact absurd h (head?_decimal_ne_zero hn)

theorem canonical_decimal (n : ℕ) : Canonical (decimal n) n where
  sign := by
    have hhead := head?_decimal_ne_minus n
    simp only [hhead, false_iff]
    omega
  digits := by
    refine ⟨decimal n, ?_, decimal_ne_nil n, fun b => isDigit_of_mem_decimal, eq_of_head?_decimal⟩
    rw [if_neg (by omega), List.nil_append]
  reads := by
    rw [integer?, if_neg (head?_decimal_ne_minus n), decimal?_decimal, Option.map_some]

theorem canonical_minus {n : ℕ} (h : n ≠ 0) : Canonical (byte '-' :: decimal n) (-n) where
  sign := by
    simp only [List.head?_cons, true_iff]
    omega
  digits := by
    refine ⟨decimal n, ?_, decimal_ne_nil n, fun b => isDigit_of_mem_decimal, eq_of_head?_decimal⟩
    rw [if_pos (by omega), List.singleton_append]
  reads := by
    rw [integer?, List.head?_cons, if_pos rfl, List.tail_cons, decimal?_decimal, Option.map_some]

end Text
