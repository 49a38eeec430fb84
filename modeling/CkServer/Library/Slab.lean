import Mathlib.Data.Nat.Notation
import Mathlib.Tactic.Ring

/-! # Slots cut out of blocks

A slab hands out slots of one size. It takes a slot that came back before one that nobody has
had, and it takes a new block only when it has neither. -/

/-- `room` has the slots of the newest block that nobody has had, and `free` those that came
back. -/
structure Slab where
  blocks : ℕ
  room : ℕ
  free : ℕ
  used : ℕ

namespace Slab

variable {m peak : ℕ} {s t : Slab}

/-- A step of a slab whose blocks have at least `m` slots each. -/
inductive Step (m : ℕ) (s : Slab) : Slab → Prop
  | reuse {free : ℕ} (hfree : s.free = free + 1) :
      Step m s { s with free := free, used := s.used + 1 }
  | carve {room : ℕ} (hfree : s.free = 0) (hroom : s.room = room + 1) :
      Step m s { s with room := room, used := s.used + 1 }
  | grow {room : ℕ} (hfree : s.free = 0) (hroom : s.room = 0) (hblock : m ≤ room + 1) :
      Step m s { blocks := s.blocks + 1, room := room, free := 0, used := s.used + 1 }
  | giveBack {used : ℕ} (hused : s.used = used + 1) :
      Step m s { s with free := s.free + 1, used := used }

/-- Every slot of every block is accounted for, and the blocks are no more than as many slots
as have been in use at a time need. -/
structure Kept (m peak : ℕ) (s : Slab) : Prop where
  slots : m * s.blocks ≤ s.room + s.free + s.used
  blocks : m * s.blocks < peak + m

theorem kept_empty (peak : ℕ) (hm : 0 < m) : Kept m peak ⟨0, 0, 0, 0⟩ :=
  ⟨Nat.zero_le _, by simp only [Nat.mul_zero]; omega⟩

/-- Slots in use that there was a new block for were all there were. -/
theorem Kept.step (h : Kept m peak s) (hstep : Step m s t) (hpeak : t.used ≤ peak) :
    Kept m peak t := by
  obtain ⟨hslots, hblocks⟩ := h
  cases hstep with
  | reuse hfree => exact ⟨by simp only; omega, hblocks⟩
  | carve _ hroom => exact ⟨by simp only; omega, hblocks⟩
  | giveBack hused => exact ⟨by simp only; omega, hblocks⟩
  | grow hfree hroom hblock =>
      have hused : s.used + 1 ≤ peak := hpeak
      constructor
      · simp only [Nat.mul_succ]
        omega
      · simp only [Nat.mul_succ]
        omega

/-- That is the least number of blocks with so many slots. -/
theorem Kept.blocks_le (h : Kept m peak s) (hm : 0 < m) : s.blocks ≤ (peak + m - 1) / m := by
  have hlt := h.blocks
  rw [Nat.le_div_iff_mul_le hm, Nat.mul_comm]
  omega

end Slab
