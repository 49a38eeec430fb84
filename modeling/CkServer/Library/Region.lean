import Mathlib.Data.Nat.Notation

/-! # Regions of memory

A region is the list of its elements. A write has no meaning outside of it. -/

universe u

namespace Region

variable {α : Type u}

/-- `*(r + i) = x`. -/
def write (r : List α) (i : ℕ) (x : α) : Option (List α) :=
  if i < r.length then some (r.set i x) else none

/-- Writes one after another, from the cursor `i` on. -/
def writeAll (r : List α) (i : ℕ) : List α → Option (List α)
  | [] => some r
  | x :: xs => (write r i x).bind fun r => writeAll r (i + 1) xs

/-- The elements from `i` on and before `j` are reversed. -/
def reverse (r : List α) (i j : ℕ) : List α :=
  r.take i ++ ((r.drop i).take (j - i)).reverse ++ r.drop j

/-- The elements from `i` on are replaced by `xs`. -/
def overlay (r : List α) (i : ℕ) (xs : List α) : List α :=
  r.take i ++ xs ++ r.drop (i + xs.length)

variable {r xs ys : List α} {x : α} {i : ℕ}

@[simp] theorem overlay_nil (r : List α) (i : ℕ) : overlay r i [] = r := by
  simp [overlay]

theorem length_overlay (h : i + xs.length ≤ r.length) : (overlay r i xs).length = r.length := by
  simp only [overlay, List.length_append, List.length_take, List.length_drop]
  omega

theorem take_overlay (h : i ≤ r.length) : (overlay r i xs).take i = r.take i := by
  have hi : (r.take i).length = i := List.length_take_of_le h
  rw [overlay, List.append_assoc, List.take_append_of_le_length (by omega), List.take_take,
    Nat.min_self]

theorem take_overlay_length (h : i ≤ r.length) :
    (overlay r i xs).take (i + xs.length) = r.take i ++ xs := by
  have hi : (r.take i ++ xs).length = i + xs.length := by
    rw [List.length_append, List.length_take_of_le h]
  rw [overlay, ← hi, List.take_left]

theorem overlay_cons (h : i < r.length) :
    overlay r i (x :: xs) = overlay (r.set i x) (i + 1) xs := by
  have htake : (r.set i x).take (i + 1) = r.take i ++ [x] := by
    rw [List.take_add_one, List.take_set_of_le (Nat.le_refl i)]
    simp [h]
  have hdrop : (r.set i x).drop (i + 1 + xs.length) = r.drop (i + 1 + xs.length) :=
    List.drop_set_of_lt (by omega)
  have hlength : i + (x :: xs).length = i + 1 + xs.length := by
    rw [List.length_cons]
    omega
  rw [overlay, overlay, htake, hdrop, hlength, List.append_assoc, List.append_assoc,
    List.append_assoc]
  rfl

theorem write_eq (h : i < r.length) : write r i x = some (r.set i x) := if_pos h

/-- Writes inside the region replace what was there. -/
theorem writeAll_eq (h : i + xs.length ≤ r.length) : writeAll r i xs = some (overlay r i xs) := by
  induction xs generalizing r i with
  | nil => rw [overlay_nil, writeAll]
  | cons x xs ih =>
      rw [List.length_cons] at h
      have hi : i < r.length := by omega
      have hrest : i + 1 + xs.length ≤ (r.set i x).length := by
        rw [List.length_set]
        omega
      rw [writeAll, write_eq hi, Option.bind_some, ih hrest, overlay_cons hi]

theorem writeAll_append (r : List α) (i : ℕ) (xs ys : List α) :
    writeAll r i (xs ++ ys) = (writeAll r i xs).bind fun r => writeAll r (i + xs.length) ys := by
  induction xs generalizing r i with
  | nil => rfl
  | cons x xs ih =>
      rw [List.cons_append, writeAll, writeAll, Option.bind_assoc, List.length_cons,
        Nat.add_comm xs.length 1, ← Nat.add_assoc]
      congr 1
      funext r'
      exact ih r' (i + 1)

/-- One more write goes behind the others. -/
theorem write_overlay (h : i + xs.length < r.length) :
    write (overlay r i xs) (i + xs.length) x = some (overlay r i (xs ++ [x])) := by
  have hall : writeAll r i (xs ++ [x]) = some (overlay r i (xs ++ [x])) :=
    writeAll_eq (by rw [List.length_append, List.length_singleton]; omega)
  rw [writeAll_append, writeAll_eq (by omega), Option.bind_some, writeAll] at hall
  cases hwrite : write (overlay r i xs) (i + xs.length) x with
  | none => simp [hwrite] at hall
  | some r' => simpa [hwrite, writeAll] using hall

/-- Of the elements that have been written all but the last ones are reversed. -/
theorem reverse_overlay (h : i ≤ r.length) :
    reverse (overlay r i (xs ++ ys)) i (i + xs.length) = overlay r i (xs.reverse ++ ys) := by
  have hi : (r.take i).length = i := List.length_take_of_le h
  have hdrop : (overlay r i (xs ++ ys)).drop i = xs ++ (ys ++ r.drop (i + (xs ++ ys).length)) := by
    rw [overlay, List.append_assoc, List.drop_left' hi, List.append_assoc]
  have hrest : (overlay r i (xs ++ ys)).drop (i + xs.length) =
      ys ++ r.drop (i + (xs ++ ys).length) := by
    rw [← List.drop_drop, hdrop, List.drop_left]
  rw [reverse, take_overlay h, hdrop, hrest, Nat.add_sub_cancel_left, List.take_left, overlay]
  simp only [List.length_append, List.length_reverse, List.append_assoc]

end Region
