import Mathlib.Data.List.Basic
import Mathlib.Logic.Function.Basic

/-! # Things in places

A thing is in one place or in none. Each place has a list of the things in it, and a thing that
moves is dropped from one list and put on another. -/

namespace Custody

universe u v

variable {α : Type u} {κ : Type v}

/-- `xs` has the things in the place `c`, each once. -/
structure Stock (place : α → Option κ) (c : κ) (xs : List α) : Prop where
  mem_iff : ∀ x, x ∈ xs ↔ place x = some c
  nodup : xs.Nodup

variable {place : α → Option κ} {b c : κ} {x : α} {xs ys : List α}

/-- Nothing is in two places. -/
theorem Stock.notMem (h : Stock place c xs) (k : Stock place b ys) (hne : c ≠ b) (hx : x ∈ xs) :
    x ∉ ys := by
  intro hy
  rw [h.mem_iff] at hx
  rw [k.mem_iff, hx] at hy
  exact hne (Option.some_inj.mp hy)

theorem stock_none (c : κ) : Stock (fun _ : α => (none : Option κ)) c [] := by
  constructor
  · simp
  · exact List.nodup_nil

variable [DecidableEq α]

/-- A thing moves between other places. -/
theorem Stock.other (h : Stock place c xs) (hx : x ∉ xs) (hne : b ≠ c) :
    Stock (Function.update place x (some b)) c xs := by
  refine ⟨fun y => ?_, h.nodup⟩
  by_cases hy : y = x
  · subst hy
    rw [Function.update_self]
    constructor
    · exact fun hmem => absurd hmem hx
    · exact fun heq => absurd (Option.some_inj.mp heq) hne
  · rw [Function.update_of_ne hy]
    exact h.mem_iff y

/-- A thing comes. -/
theorem Stock.put (h : Stock place c xs) (hx : x ∉ xs) :
    Stock (Function.update place x (some c)) c (x :: xs) := by
  refine ⟨fun y => ?_, List.nodup_cons.mpr ⟨hx, h.nodup⟩⟩
  by_cases hy : y = x
  · subst hy
    simp
  · rw [Function.update_of_ne hy, List.mem_cons, or_iff_right hy]
    exact h.mem_iff y

/-- A thing goes. -/
theorem Stock.drop (h : Stock place c xs) (hne : b ≠ c) :
    Stock (Function.update place x (some b)) c (xs.erase x) := by
  refine ⟨fun y => ?_, h.nodup.erase x⟩
  rw [h.nodup.mem_erase_iff]
  by_cases hy : y = x
  · subst hy
    rw [Function.update_self]
    constructor
    · exact fun hmem => absurd rfl hmem.1
    · exact fun heq => absurd (Option.some_inj.mp heq) hne
  · rw [Function.update_of_ne hy, and_iff_right hy]
    exact h.mem_iff y

/-- What has a place after a move had one before, or has just come. -/
theorem update_ne_none {y : α} :
    Function.update place x (some b) y ≠ none ↔ y = x ∨ place y ≠ none := by
  by_cases hy : y = x
  · subst hy
    simp
  · rw [Function.update_of_ne hy, or_iff_right hy]

end Custody
