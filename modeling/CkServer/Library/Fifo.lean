import Mathlib.Data.Nat.Notation
import Mathlib.Order.Basic

/-! # Queues with their history

All that has been put into a queue is kept, with the number of things that have been taken out
again. -/

universe u

structure Fifo (α : Type u) where
  received : List α := []
  consumed : ℕ := 0
  consumed_le : consumed ≤ received.length := by exact Nat.zero_le _

namespace Fifo

variable {α : Type u} (q : Fifo α) (xs : List α) (n : ℕ)

def content : List α := q.received.drop q.consumed

def put : Fifo α where
  received := q.received ++ xs
  consumed := q.consumed
  consumed_le := by
    rw [List.length_append]
    exact Nat.le_add_right_of_le q.consumed_le

/-- At most `n` things are taken out. -/
def take : Fifo α where
  received := q.received
  consumed := min (q.consumed + n) q.received.length
  consumed_le := Nat.min_le_right _ _

@[simp] theorem content_put : (q.put xs).content = q.content ++ xs :=
  List.drop_append_of_le_length q.consumed_le

@[simp] theorem content_take : (q.take n).content = q.content.drop n := by
  simp only [content, take, List.drop_drop]
  by_cases h : q.consumed + n ≤ q.received.length
  · rw [Nat.min_eq_left h]
  · rw [Nat.min_eq_right (by omega), List.drop_length, List.drop_of_length_le (by omega)]

/-- What has been taken out is what came first. -/
theorem consumed_append_content : q.received.take q.consumed ++ q.content = q.received :=
  List.take_append_drop _ _

/-- What is taken out comes right after what was taken out before. -/
theorem consumed_take :
    (q.take n).received.take (q.take n).consumed =
      q.received.take q.consumed ++ q.content.take n := by
  simp only [take, content, ← List.take_add]
  by_cases hle : q.consumed + n ≤ q.received.length
  · rw [Nat.min_eq_left hle]
  · rw [Nat.min_eq_right (by omega), List.take_length, List.take_of_length_le (by omega)]

end Fifo
