import Mathlib.Data.List.Infix

/-! # First occurrences

`search?` finds the first position at which a pattern begins. The facts kept here are
what an incremental reader needs: a position that has been found stays the first one when
more input arrives, and a two-symbol terminator ends exactly the text that contains none. -/

namespace Search

variable {α : Type*} [DecidableEq α]

/-- The first position at which `pat` begins in the list, if there is one. -/
def search? (pat : List α) : List α → Option ℕ
  | [] => if pat = [] then some 0 else none
  | x :: xs => if pat <+: x :: xs then some 0 else (search? pat xs).map (· + 1)

/-! ## Found and not found -/

theorem search?_some_split {pat : List α} :
    ∀ {xs : List α} {i : ℕ}, search? pat xs = some i →
      xs = xs.take i ++ pat ++ xs.drop (i + pat.length) := by
  intro xs
  induction xs with
  | nil =>
      intro i h
      by_cases hp : pat = []
      · simp [hp]
      · simp [search?, hp] at h
  | cons x xs ih =>
      intro i h
      by_cases hp : pat <+: x :: xs
      · obtain rfl : 0 = i := by simpa [search?, hp] using h
        obtain ⟨rest, hrest⟩ := hp
        rw [← hrest]
        simp
      · simp only [search?, hp, if_false, Option.map_eq_some_iff] at h
        obtain ⟨j, hj, rfl⟩ := h
        rw [List.take_succ_cons, Nat.add_right_comm, List.drop_succ_cons, List.cons_append,
          List.cons_append, ← ih hj]

theorem search?_some_le {pat xs : List α} {i : ℕ} (h : search? pat xs = some i) :
    i + pat.length ≤ xs.length := by
  have hlen := congrArg List.length (search?_some_split h)
  simp only [List.length_append, List.length_take, List.length_drop] at hlen
  by_cases hi : i ≤ xs.length
  · rw [Nat.min_eq_left hi] at hlen
    omega
  · rw [Nat.min_eq_right (by omega)] at hlen
    have hp : pat.length = 0 := by omega
    have hnil : pat = [] := List.length_eq_zero_iff.mp hp
    subst hnil
    cases xs <;> simp [search?] at h <;> omega

theorem search?_eq_none_iff {pat : List α} (xs : List α) :
    search? pat xs = none ↔ ¬ pat <:+: xs := by
  induction xs with
  | nil => simp [search?]
  | cons x xs ih =>
      by_cases hp : pat <+: x :: xs
      · simp [search?, List.infix_cons_iff, hp]
      · simp [search?, List.infix_cons_iff, hp, ih]

/-- Before the first occurrence there is none. -/
theorem not_infix_take_of_search? {pat : List α} (hne : pat ≠ []) :
    ∀ {xs : List α} {i : ℕ}, search? pat xs = some i → ¬ pat <:+: xs.take i := by
  intro xs
  induction xs with
  | nil =>
      intro i h
      simp [search?, hne] at h
  | cons x xs ih =>
      intro i h
      by_cases hp : pat <+: x :: xs
      · obtain rfl : 0 = i := by simpa [search?, hp] using h
        simpa using hne
      · simp only [search?, hp, if_false, Option.map_eq_some_iff] at h
        obtain ⟨j, hj, rfl⟩ := h
        rw [List.take_succ_cons, List.infix_cons_iff, not_or]
        refine ⟨?_, ih hj⟩
        intro hpre
        rw [← List.take_succ_cons] at hpre
        exact hp (hpre.trans (List.take_prefix (j + 1) (x :: xs)))

/-! ## Two-symbol terminators -/

/-- A text without the terminator `a b`, followed by it, has it first at its own end. The
symbols must differ: otherwise the text's last symbol could begin an earlier one. -/
theorem search?_pair_append {a b : α} (hab : a ≠ b) (rest : List α) :
    ∀ {line : List α}, ¬ [a, b] <:+: line →
      search? [a, b] (line ++ [a, b] ++ rest) = some line.length := by
  intro line
  induction line with
  | nil =>
      intro _
      simp [search?]
  | cons x xs ih =>
      intro hfree
      rw [List.infix_cons_iff, not_or] at hfree
      have hpre : ¬ [a, b] <+: x :: (xs ++ [a, b] ++ rest) := by
        intro hpre
        cases xs with
        | nil =>
            simp only [List.nil_append, List.cons_append, List.cons_prefix_cons] at hpre
            exact hab hpre.2.1.symm
        | cons y ys =>
            simp only [List.cons_append, List.cons_prefix_cons] at hpre
            exact hfree.1 (by simp [hpre.1, hpre.2.1])
      have hrec := ih hfree.2
      rw [List.cons_append, List.cons_append, search?, if_neg hpre, hrec]
      rfl

end Search
