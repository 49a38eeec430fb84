import CkServer.Library.Custody
import CkServer.Model.PoolSystem
import Mathlib.Tactic.Basic

/-! # No slot is lost

A slot is in use, held by a call in progress, or on the free list. A thread that takes a new
block clears the free list without the mutex of the list, and what others have put there since
its test is lost. These are the only steps at which a slot has no place. -/

namespace CkServer

universe u

/-- The sizes of a pool: slots are whole words, and a block has room for a slot wherever the
padding ends. -/
structure PoolSizes (BlockSize size : ℕ) : Prop where
  dvd : 8 ∣ size
  pos : 0 < size
  room : 2 * size + 7 ≤ BlockSize
  int : BlockSize < 2 ^ 31

/-- The pools of `initMemoryPool`. -/
theorem poolSizes_initMemoryPool {i : ℕ} (hi : i < MEMORY_POOL_NUM) :
    PoolSizes 4096 ((i + 1) * SLOT_BASE_SIZE) := by
  rw [MEMORY_POOL_NUM] at hi
  rw [SLOT_BASE_SIZE]
  constructor
  · exact Nat.dvd_mul_left 8 (i + 1)
  · omega
  · omega
  · omega

/-! ## Slots in blocks -/

/-- The slots that have been carved lie in blocks behind the first word, apart from each other
and from what is left of the current block. -/
structure Carved (p : MemoryPool) (m : Memory) (slots : List ℕ) : Prop where
  handed : PoolUser.Handed m
  inside : ∀ q ∈ slots, ∃ e ∈ m.live, e.1 + 8 ≤ q ∧ q + p.SlotSize_ ≤ e.1 + e.2
  apart : ∀ q ∈ slots, ∀ r ∈ slots, q ≠ r → Apart q p.SlotSize_ r p.SlotSize_
  rest : p.curSlot_ < p.lastSlot_ →
    ∃ e ∈ m.live, e.1 + 8 ≤ p.curSlot_ ∧ p.lastSlot_ + p.SlotSize_ = e.1 + e.2 + 1 ∧
      ∀ q ∈ slots, q + p.SlotSize_ ≤ p.curSlot_ ∨ e.1 + e.2 ≤ q

variable {p : MemoryPool} {m : Memory} {slots : List ℕ} {q size BlockSize : ℕ}

/-- A slot is not null, and its first word is inside the address space. -/
theorem Carved.bounds (h : Carved p m slots) (hq : q ∈ slots) : q ≠ 0 ∧ q < 2 ^ 64 := by
  obtain ⟨e, he, hle, hend⟩ := h.inside q hq
  have hlive := h.handed.2 e he
  omega

/-- Only the sizes, the bounds of what is left and the blocks matter. -/
theorem Carved.of_eq {p' : MemoryPool} {m' : Memory} (h : Carved p m slots)
    (hsize : p'.SlotSize_ = p.SlotSize_) (hcur : p'.curSlot_ = p.curSlot_)
    (hlast : p'.lastSlot_ = p.lastSlot_) (hlive : m'.live = m.live) : Carved p' m' slots := by
  have hhanded := h.handed
  rw [PoolUser.Handed] at hhanded
  constructor
  · rwa [PoolUser.Handed, hlive]
  · rw [hsize, hlive]
    exact h.inside
  · rw [hsize]
    exact h.apart
  · rw [hsize, hlive, hcur, hlast]
    exact h.rest

theorem Carved.cur_notMem (h : Carved p m slots) (hpos : 0 < p.SlotSize_)
    (hlt : p.curSlot_ < p.lastSlot_) : p.curSlot_ ∉ slots := by
  intro hmem
  obtain ⟨e, -, -, hlast, hapart⟩ := h.rest hlt
  have hcur := hapart _ hmem
  omega

/-- The next slot of the current block. -/
theorem Carved.carve (h : Carved p m slots) (hlt : p.curSlot_ < p.lastSlot_) :
    Carved { p with curSlot_ := p.curSlot_ + p.SlotSize_ } m (p.curSlot_ :: slots) := by
  obtain ⟨e, he, hfirst, hlast, hapart⟩ := h.rest hlt
  have hcur (q : ℕ) (hq : q ∈ slots) : Apart q p.SlotSize_ p.curSlot_ p.SlotSize_ := by
    have hside := hapart q hq
    rw [Apart]
    omega
  constructor
  · exact h.handed
  · intro q hq
    rcases List.mem_cons.mp hq with rfl | hq
    · exact ⟨e, he, hfirst, by simp only; omega⟩
    · exact h.inside q hq
  · intro q hq r hr hne
    rcases List.mem_cons.mp hq with rfl | hq
    · rcases List.mem_cons.mp hr with rfl | hr
      · exact absurd rfl hne
      · exact (hcur r hr).symm
    · rcases List.mem_cons.mp hr with rfl | hr
      · exact hcur q hq
      · exact h.apart q hq r hr hne
  · intro _
    refine ⟨e, he, by simp only; omega, hlast, fun q hq => ?_⟩
    simp only
    rcases List.mem_cons.mp hq with rfl | hq
    · exact .inl le_rfl
    · have hside := hapart q hq
      omega

/-- A new block has room for a slot, whatever the padding. -/
theorem Carved.allocateNewBlock {B : ℕ} (h : Carved p m slots) (hsizes : PoolSizes BlockSize size)
    (hblock : p.BlockSize_ = BlockSize) (hsize : p.SlotSize_ = size)
    (hhanded : PoolUser.Handed (p.allocateNewBlock m B).2) :
    Carved (p.allocateNewBlock m B).1 (p.allocateNewBlock m B).2 slots ∧
      (p.allocateNewBlock m B).1.curSlot_ < (p.allocateNewBlock m B).1.lastSlot_ := by
  have hpad : MemoryPool.padPointer (B + 8) size < size := Nat.mod_lt _ hsizes.pos
  have hroom := hsizes.room
  have hlive : (p.allocateNewBlock m B).2.live = (B, BlockSize) :: m.live := by
    rw [← hblock]
    rfl
  have hslot : (p.allocateNewBlock m B).1.SlotSize_ = p.SlotSize_ := rfl
  have hcur : (p.allocateNewBlock m B).1.curSlot_ =
      B + 8 + MemoryPool.padPointer (B + 8) size := by
    rw [← hsize]
    rfl
  have hlast : (p.allocateNewBlock m B).1.lastSlot_ = B + BlockSize - size + 1 := by
    rw [← hsize, ← hblock]
    rfl
  have hnew : ∀ e ∈ m.live, Apart B BlockSize e.1 e.2 :=
    (List.pairwise_cons.mp (hlive ▸ hhanded.1)).1
  refine ⟨⟨hhanded, ?_, ?_, fun _ => ?_⟩, by omega⟩
  · intro q hq
    obtain ⟨e, he, hin⟩ := h.inside q hq
    exact ⟨e, by rw [hlive]; exact List.mem_cons_of_mem _ he, hin⟩
  · rw [hslot]
    exact h.apart
  · refine ⟨(B, BlockSize), by rw [hlive]; exact List.mem_cons_self, ?_, ?_, fun q hq => ?_⟩
    · omega
    · rw [hlast, hslot, hsize]
      simp only
      omega
    · obtain ⟨e, he, hle, hend⟩ := h.inside q hq
      have hapart := hnew e he
      rw [Apart] at hapart
      rw [hcur, hslot, hsize]
      simp only
      omega

namespace PoolSystem

variable {ι : Type u} {s : PoolSystem ι} {i : ι}

open Custody

/-! ## Where the slots are -/

inductive Place (ι : Type u) where
  | inUse
  | held (i : ι)
  | free
  deriving DecidableEq

/-- Each carved slot has one place, and `frees` is the free list. -/
structure Placed (s : PoolSystem ι) (place : ℕ → Option (Place ι)) (frees : List ℕ) : Prop where
  inUse : Stock place .inUse s.inUse
  held : ∀ i, Stock place (.held i) (s.pc i).slot.toList
  free : Stock place .free frees
  carved : ∀ q, q ∈ s.carved ↔ place q ≠ none
  linked : s.memory.byte.Linked s.pool.freeList_ frees

variable {place : ℕ → Option (Place ι)} {frees xs : List ℕ} {c : Place ι}

theorem Placed.mem_carved (h : Placed s place frees) (hstock : Stock place c xs) (hq : q ∈ xs) :
    q ∈ s.carved := by
  rw [h.carved, (hstock.mem_iff q).mp hq]
  exact Option.some_ne_none c

theorem Placed.carved_move (h : Placed s place frees) (hq : q ∈ s.carved) (c : Place ι) (r : ℕ) :
    r ∈ s.carved ↔ Function.update place q (some c) r ≠ none := by
  rw [update_ne_none, h.carved r, iff_or_self]
  rintro rfl
  exact (h.carved r).mp hq

/-- The slots lie in blocks, and each has its place. -/
structure InPlace (s : PoolSystem ι) (BlockSize size : ℕ) : Prop where
  BlockSize_ : s.pool.BlockSize_ = BlockSize
  SlotSize_ : s.pool.SlotSize_ = size
  carved : Carved s.pool s.memory s.carved
  placed : ∃ place frees, Placed s place frees

theorem inPlace_initial (byte : Bytes) (undefined : MemoryPool) (BlockSize size : ℕ) :
    (initial byte undefined BlockSize size : PoolSystem ι).InPlace BlockSize size := by
  refine ⟨rfl, rfl, ⟨?_, ?_, ?_, ?_⟩, fun _ => none, [], ?_⟩
  · exact ⟨List.Pairwise.nil, by simp [initial]⟩
  · simp [initial]
  · simp [initial]
  · intro hlt
    exact absurd hlt (lt_irrefl 0)
  · exact ⟨stock_none _, fun _ => stock_none _, stock_none _, by simp [initial], rfl⟩

/-- The first word of a slot does not overlap another slot. -/
theorem InPlace.word_apart (h : s.InPlace BlockSize size) (hsizes : PoolSizes BlockSize size)
    {r : ℕ} (hq : q ∈ s.carved) (hr : r ∈ s.carved) (hne : q ≠ r) : Apart q 8 r size := by
  have hapart := h.carved.apart q hq r hr hne
  rw [h.SlotSize_, Apart] at hapart
  have hword := Nat.le_of_dvd hsizes.pos hsizes.dvd
  rw [Apart]
  omega

/-! ### Accounting -/

/-- The slot `q` is held by a call in progress. -/
def Held (s : PoolSystem ι) (q : ℕ) : Prop := ∃ i, (s.pc i).slot = some q

/-- The slot `q` can be reached from `freeList_`. -/
def Free (s : PoolSystem ι) (q : ℕ) : Prop := s.memory.byte.Reaches s.pool.freeList_ q

/-- Every slot that has been carved is in exactly one place. -/
def Accounted (s : PoolSystem ι) : Prop :=
  ∀ q ∈ s.carved,
    q ∈ s.inUse ∧ ¬ s.Held q ∧ ¬ s.Free q ∨ q ∉ s.inUse ∧ s.Held q ∧ ¬ s.Free q ∨
      q ∉ s.inUse ∧ ¬ s.Held q ∧ s.Free q

theorem Placed.held_iff (hp : Placed s place frees) : s.Held q ↔ ∃ i, place q = some (.held i) := by
  rw [Held]
  apply exists_congr
  intro i
  rw [← (hp.held i).mem_iff, Option.mem_toList]

theorem InPlace.accounted (h : s.InPlace BlockSize size) : s.Accounted := by
  intro q hq
  obtain ⟨place, frees, hp⟩ := h.placed
  have hfree : s.Free q ↔ place q = some .free := by
    rw [← hp.free.mem_iff]
    exact hp.linked.mem_iff_reaches.symm
  rw [hp.inUse.mem_iff, hp.held_iff, hfree]
  cases hplace : place q with
  | none => exact absurd hplace ((hp.carved q).mp hq)
  | some c => cases c <;> simp

theorem not_free_of_null (hnull : s.pool.freeList_ = 0) : ¬ s.Free q := by
  intro hreach
  rw [Free, hnull] at hreach
  cases hreach with
  | here hne => exact hne rfl
  | next hne _ => exact hne rfl

/-! ### A block with a slot left -/

/-- The pool and the memory when the current block has a slot left. -/
def ready (s : PoolSystem ι) (newBlock : ℕ) : MemoryPool × Memory :=
  if s.pool.curSlot_ ≥ s.pool.lastSlot_ then s.pool.allocateNewBlock s.memory newBlock
  else (s.pool, s.memory)

theorem InPlace.ready (h : s.InPlace BlockSize size) (hsizes : PoolSizes BlockSize size)
    {newBlock : ℕ} (hhanded : PoolUser.Handed (s.ready newBlock).2) :
    Carved (s.ready newBlock).1 (s.ready newBlock).2 s.carved ∧
      (s.ready newBlock).1.curSlot_ < (s.ready newBlock).1.lastSlot_ ∧
      (s.ready newBlock).1.BlockSize_ = BlockSize ∧ (s.ready newBlock).1.SlotSize_ = size := by
  by_cases hfull : s.pool.curSlot_ ≥ s.pool.lastSlot_
  · rw [PoolSystem.ready, if_pos hfull] at hhanded ⊢
    obtain ⟨hcarved, hlt⟩ := h.carved.allocateNewBlock hsizes h.BlockSize_ h.SlotSize_ hhanded
    exact ⟨hcarved, hlt, h.BlockSize_, h.SlotSize_⟩
  · rw [PoolSystem.ready, if_neg hfull]
    exact ⟨h.carved, not_le.mp hfull, h.BlockSize_, h.SlotSize_⟩

/-- The slot has not been carved before. -/
theorem InPlace.fresh (h : s.InPlace BlockSize size) (hsizes : PoolSizes BlockSize size)
    {newBlock : ℕ} (hhanded : PoolUser.Handed (s.ready newBlock).2) :
    (s.ready newBlock).1.curSlot_ ∉ s.carved := by
  obtain ⟨hcarved, hlt, -, hsize⟩ := h.ready hsizes hhanded
  apply hcarved.cur_notMem
  · rw [hsize]
    exact hsizes.pos
  · exact hlt

theorem Placed.linked_ready (hp : Placed s place frees) {newBlock : ℕ}
    (hok : s.pool.curSlot_ ≥ s.pool.lastSlot_ → s.pool.freeList_ = 0) :
    (s.ready newBlock).2.byte.Linked (s.ready newBlock).1.freeList_ frees := by
  by_cases hfull : s.pool.curSlot_ ≥ s.pool.lastSlot_
  · rw [PoolSystem.ready, if_pos hfull]
    cases frees with
    | nil => rfl
    | cons q frees => exact absurd (hp.linked.1.symm.trans (hok hfull)) hp.linked.2.1
  · rw [PoolSystem.ready, if_neg hfull]
    exact hp.linked

section Steps

variable [DecidableEq ι]

theorem held_update {place' : ℕ → Option (Place ι)} {pc : PoolPc}
    (hself : Stock place' (.held i) pc.slot.toList)
    (hothers : ∀ j, j ≠ i → Stock place' (.held j) (s.pc j).slot.toList) (j : ι) :
    Stock place' (.held j) (Function.update s.pc i pc j).slot.toList := by
  by_cases hj : j = i
  · rw [hj, Function.update_self]
    exact hself
  · rw [Function.update_of_ne hj]
    exact hothers j hj

/-- The threads other than `i` keep what they hold. -/
theorem Placed.held_move (h : Placed s place frees) {pc : PoolPc} (hstock : Stock place c xs)
    (hq : q ∈ xs) (hc : ∀ j, j ≠ i → c ≠ .held j) {b : Place ι} (hb : ∀ j, j ≠ i → b ≠ .held j)
    (hself : Stock (Function.update place q (some b)) (.held i) pc.slot.toList) (j : ι) :
    Stock (Function.update place q (some b)) (.held j)
      (Function.update s.pc i pc j).slot.toList := by
  apply held_update hself
  intro j hj
  exact (h.held j).other (hstock.notMem (h.held j) (hc j hj) hq) (hb j hj)

/-- A thread takes a step, and holds what it held before. -/
theorem Placed.setPc (h : Placed s place frees) {pc : PoolPc} (hslot : pc.slot = (s.pc i).slot) :
    Placed (s.setPc i pc) place frees := by
  refine ⟨h.inUse, held_update ?_ fun j _ => h.held j, h.free, h.carved, h.linked⟩
  rw [hslot]
  exact h.held i

/-! ### Moves -/

theorem Placed.takeFree (h : Placed s place (q :: frees)) (hpc : (s.pc i).slot = none)
    {p : MemoryPool} (hlist : p.freeList_ = s.memory.load q) :
    Placed { s.setPc i (.returning q) with pool := p }
      (Function.update place q (some (.held i))) frees := by
  have hmem : q ∈ q :: frees := List.mem_cons_self
  have hdrop := h.free.drop (x := q) (b := Place.held i) (by simp)
  rw [List.erase_cons_head] at hdrop
  have hself := (h.held i).put (h.free.notMem (h.held i) (by simp) hmem)
  rw [hpc] at hself
  refine ⟨?_, ?_, hdrop, h.carved_move (h.mem_carved h.free hmem) _, ?_⟩
  · exact h.inUse.other (h.free.notMem h.inUse (by simp) hmem) (by simp)
  · exact h.held_move h.free hmem (by simp) (fun j hj => by simpa using hj.symm) hself
  · obtain ⟨-, -, hrest⟩ := h.linked
    rw [hlist]
    exact hrest

/-- A slot that is new. -/
theorem Placed.carve (h : Placed s place frees) (hpc : (s.pc i).slot = none)
    (hnew : q ∉ s.carved) {p : MemoryPool} {m : Memory}
    (hlinked : m.byte.Linked p.freeList_ frees) :
    Placed { s.setPc i (.returning q) with pool := p, memory := m, carved := q :: s.carved }
      (Function.update place q (some (.held i))) frees := by
  have hnone {c : Place ι} {xs : List ℕ} (hstock : Stock place c xs) : q ∉ xs := fun hq =>
    hnew (h.mem_carved hstock hq)
  have hself := (h.held i).put (hnone (h.held i))
  rw [hpc] at hself
  refine ⟨h.inUse.other (hnone h.inUse) (by simp), held_update hself fun j hj => ?_,
    h.free.other (hnone h.free) (by simp), fun r => ?_, hlinked⟩
  · exact (h.held j).other (hnone (h.held j)) (by simpa using hj.symm)
  · rw [update_ne_none, ← h.carved r, List.mem_cons]

theorem Placed.use (h : Placed s place frees) (hpc : (s.pc i).slot = some q) :
    Placed { s.setPc i .idle with inUse := q :: s.inUse }
      (Function.update place q (some .inUse)) frees := by
  have hmem : q ∈ (s.pc i).slot.toList := by simp [hpc]
  have hself := (h.held i).drop (x := q) (b := Place.inUse) (by simp)
  rw [hpc, Option.toList_some, List.erase_cons_head] at hself
  refine ⟨?_, ?_, ?_, h.carved_move (h.mem_carved (h.held i) hmem) _, h.linked⟩
  · exact h.inUse.put ((h.held i).notMem h.inUse (by simp) hmem)
  · exact h.held_move (h.held i) hmem (fun j hj => by simpa using hj.symm) (by simp) hself
  · exact h.free.other ((h.held i).notMem h.free (by simp) hmem) (by simp)

theorem Placed.giveBack (h : Placed s place frees) (hpc : (s.pc i).slot = none) (hq : q ∈ s.inUse)
    (hne : q ≠ 0) :
    Placed { s.setPc i (.deallocating q) with inUse := s.inUse.erase q }
      (Function.update place q (some (.held i))) frees := by
  have hself := (h.held i).put (h.inUse.notMem (h.held i) (by simp) hq)
  have hslot : (PoolPc.deallocating q).slot = some q := if_neg hne
  rw [hpc, Option.toList_none, ← Option.toList_some, ← hslot] at hself
  refine ⟨h.inUse.drop (by simp), ?_, ?_, h.carved_move (h.mem_carved h.inUse hq) _, h.linked⟩
  · exact h.held_move h.inUse hq (by simp) (fun j hj => by simpa using hj.symm) hself
  · exact h.free.other (h.inUse.notMem h.free (by simp) hq) (by simp)

theorem Placed.give (h : Placed s place frees) (hpc : (s.pc i).slot = some q) {p : MemoryPool}
    {m : Memory} (hlinked : m.byte.Linked p.freeList_ (q :: frees)) :
    Placed { s.setPc i .idle with pool := p, memory := m }
      (Function.update place q (some .free)) (q :: frees) := by
  have hmem : q ∈ (s.pc i).slot.toList := by simp [hpc]
  have hself := (h.held i).drop (x := q) (b := Place.free) (by simp)
  rw [hpc, Option.toList_some, List.erase_cons_head] at hself
  refine ⟨?_, ?_, ?_, h.carved_move (h.mem_carved (h.held i) hmem) _, hlinked⟩
  · exact h.inUse.other ((h.held i).notMem h.inUse (by simp) hmem) (by simp)
  · exact h.held_move (h.held i) hmem (fun j hj => by simpa using hj.symm) (by simp) hself
  · exact h.free.put ((h.held i).notMem h.free (by simp) hmem)

/-! ## The steps -/

theorem InPlace.setPc (h : s.InPlace BlockSize size) {pc : PoolPc}
    (hslot : pc.slot = (s.pc i).slot) : (s.setPc i pc).InPlace BlockSize size := by
  obtain ⟨place, frees, hp⟩ := h.placed
  exact ⟨h.BlockSize_, h.SlotSize_, h.carved, place, frees, hp.setPc hslot⟩

theorem InPlace.takeFree (h : s.InPlace BlockSize size) (hpc : s.pc i = .takingFree) :
    (s.next (.takeFree i)).InPlace BlockSize size := by
  have hslot : (s.pc i).slot = none := by rw [hpc]; rfl
  by_cases hnull : s.pool.freeList_ = 0
  · have htake : s.pool.takeFree s.memory = none := by simp [MemoryPool.takeFree, hnull]
    simp only [next, htake]
    exact h.setPc hslot.symm
  · have htake : s.pool.takeFree s.memory =
        some ({ s.pool with freeList_ := s.memory.load s.pool.freeList_ }, s.pool.freeList_) := by
      simp [MemoryPool.takeFree, hnull]
    obtain ⟨place, frees, hp⟩ := h.placed
    cases frees with
    | nil => exact absurd hp.linked hnull
    | cons q frees =>
        have hhead : s.pool.freeList_ = q := hp.linked.1
        simp only [next, htake, hhead]
        exact ⟨h.BlockSize_, h.SlotSize_, h.carved.of_eq rfl rfl rfl rfl, _, frees,
          hp.takeFree hslot rfl⟩

/-! ### A slot from a block -/

theorem next_takeFresh (s : PoolSystem ι) (i : ι) (newBlock : ℕ) :
    s.next (.takeFresh i newBlock) =
      { s.setPc i (.returning (s.ready newBlock).1.curSlot_) with
        pool :=
          { (s.ready newBlock).1 with
            curSlot_ := (s.ready newBlock).1.curSlot_ +
              (s.ready newBlock).1.SlotSize_ / sizeofSlot * sizeofSlot }
        memory := (s.ready newBlock).2
        carved := (s.ready newBlock).1.curSlot_ :: s.carved } := rfl

/-- The free list is kept where no new block is taken. -/
def KeepsFreeList (s : PoolSystem ι) : PoolAction ι → Prop
  | .takeFresh _ _ => s.pool.curSlot_ ≥ s.pool.lastSlot_ → s.pool.freeList_ = 0
  | _ => True

instance (s : PoolSystem ι) : ∀ a, Decidable (s.KeepsFreeList a)
  | .takeFresh _ _ =>
      inferInstanceAs (Decidable (s.pool.curSlot_ ≥ s.pool.lastSlot_ → s.pool.freeList_ = 0))
  | .callAllocate _ | .test _ | .takeFree _ | .allocateReturns _ | .callDeallocate _ _
  | .give _ | .write _ _ => .isTrue trivial

theorem InPlace.takeFresh (h : s.InPlace BlockSize size) (hsizes : PoolSizes BlockSize size)
    {newBlock : ℕ} (hen : s.Enabled (.takeFresh i newBlock))
    (hok : s.KeepsFreeList (.takeFresh i newBlock)) :
    (s.next (.takeFresh i newBlock)).InPlace BlockSize size := by
  obtain ⟨hpc, hhanded⟩ := hen
  have hslot : (s.pc i).slot = none := by rw [hpc]; rfl
  obtain ⟨hcarved, hlt, hblock, hsize⟩ := h.ready hsizes hhanded
  obtain ⟨place, frees, hp⟩ := h.placed
  have hwords : (s.ready newBlock).1.SlotSize_ / sizeofSlot * sizeofSlot =
      (s.ready newBlock).1.SlotSize_ := by
    rw [hsize]
    exact Nat.div_mul_cancel hsizes.dvd
  rw [next_takeFresh, hwords]
  exact ⟨hblock, hsize, hcarved.carve hlt, _, frees,
    hp.carve hslot (h.fresh hsizes hhanded) (hp.linked_ready hok)⟩

/-! ### The other steps -/

theorem InPlace.allocateReturns (h : s.InPlace BlockSize size) {temp : ℕ}
    (hpc : s.pc i = .returning temp) : (s.next (.allocateReturns i)).InPlace BlockSize size := by
  obtain ⟨place, frees, hp⟩ := h.placed
  have hslot : (s.pc i).slot = some temp := by rw [hpc]; rfl
  simp only [next, hpc]
  exact ⟨h.BlockSize_, h.SlotSize_, h.carved, _, frees, hp.use hslot⟩

theorem InPlace.callDeallocate (h : s.InPlace BlockSize size) {ptr : ℕ} (hpc : s.pc i = .idle)
    (hptr : ptr = 0 ∨ ptr ∈ s.inUse) :
    (s.next (.callDeallocate i ptr)).InPlace BlockSize size := by
  obtain ⟨place, frees, hp⟩ := h.placed
  have hslot : (s.pc i).slot = none := by rw [hpc]; rfl
  have hzero : 0 ∉ s.inUse := fun hmem => (h.carved.bounds (hp.mem_carved hp.inUse hmem)).1 rfl
  by_cases hnull : ptr = 0
  · subst hnull
    have hsame : s.next (.callDeallocate i 0) = s.setPc i (.deallocating 0) := by
      simp only [next, List.erase_of_not_mem hzero]
      rfl
    rw [hsame]
    exact h.setPc hslot.symm
  · exact ⟨h.BlockSize_, h.SlotSize_, h.carved, _, frees,
      hp.giveBack hslot (hptr.resolve_left hnull) hnull⟩

theorem InPlace.give (h : s.InPlace BlockSize size) (hsizes : PoolSizes BlockSize size) {ptr : ℕ}
    (hpc : s.pc i = .deallocating ptr) : (s.next (.give i)).InPlace BlockSize size := by
  obtain ⟨place, frees, hp⟩ := h.placed
  by_cases hnull : ptr = 0
  · have hsame : s.next (.give i) = s.setPc i .idle := by
      simp only [next, hpc, hnull, MemoryPool.deallocate]
      rfl
    rw [hsame]
    exact h.setPc (by rw [hpc, hnull]; rfl)
  · have hslot : (s.pc i).slot = some ptr := by
      rw [hpc]
      exact if_neg hnull
    have hmem : ptr ∈ (s.pc i).slot.toList := by simp [hslot]
    have hptr := hp.mem_carved (hp.held i) hmem
    have hlist : s.pool.freeList_ < 2 ^ 64 := by
      cases frees with
      | nil =>
          have hzero : s.pool.freeList_ = 0 := hp.linked
          omega
      | cons q frees =>
          rw [hp.linked.1]
          exact (h.carved.bounds (hp.mem_carved hp.free List.mem_cons_self)).2
    have hlinked : (s.memory.byte.store ptr s.pool.freeList_).Linked s.pool.freeList_ frees := by
      apply hp.linked.congr
      intro q hq x hx hlt
      have hne : q ≠ ptr := fun heq =>
        (hp.held i).notMem hp.free (by simp) hmem (heq ▸ hq)
      have hapart := h.word_apart hsizes (hp.mem_carved hp.free hq) hptr hne
      have hword := Nat.le_of_dvd hsizes.pos hsizes.dvd
      rw [Apart] at hapart
      exact Bytes.store_of_notMem (by omega)
    simp only [next, hpc, MemoryPool.deallocate, if_pos hnull]
    refine ⟨h.BlockSize_, h.SlotSize_, h.carved.of_eq rfl rfl rfl rfl, _, _,
      hp.give hslot ⟨rfl, hnull, ?_⟩⟩
    rw [Memory.store, Bytes.load_store _ _ hlist]
    exact hlinked

theorem InPlace.write (h : s.InPlace BlockSize size) (hsizes : PoolSizes BlockSize size)
    {address : ℕ} {value : UInt8} (hen : s.CanWrite address) :
    (s.next (.write address value)).InPlace BlockSize size := by
  obtain ⟨place, frees, hp⟩ := h.placed
  refine ⟨h.BlockSize_, h.SlotSize_, h.carved.of_eq rfl rfl rfl rfl, place, frees,
    hp.inUse, hp.held, hp.free, hp.carved, ?_⟩
  apply hp.linked.congr
  intro q hq x hx hlt
  have hcarved := hp.mem_carved hp.free hq
  apply Function.update_of_ne
  rintro rfl
  rcases hen with ⟨r, hr, hle, hend⟩ | hout
  · have hne : q ≠ r := fun heq => hp.inUse.notMem hp.free (by simp) hr (heq ▸ hq)
    have hapart := h.word_apart hsizes hcarved (hp.mem_carved hp.inUse hr) hne
    rw [h.SlotSize_] at hend
    rw [Apart] at hapart
    omega
  · obtain ⟨e, he, hfirst, hlast⟩ := h.carved.inside q hcarved
    have hword := Nat.le_of_dvd hsizes.pos hsizes.dvd
    rw [h.SlotSize_] at hlast
    exact hout e he (by omega)

theorem InPlace.next (h : s.InPlace BlockSize size) (hsizes : PoolSizes BlockSize size)
    {a : PoolAction ι} (hen : s.Enabled a) (hok : s.KeepsFreeList a) :
    (s.next a).InPlace BlockSize size := by
  cases a with
  | callAllocate i =>
      have hpc : s.pc i = .idle := hen
      exact h.setPc (by rw [hpc]; rfl)
  | test i =>
      have hpc : s.pc i = .testing := hen
      apply h.setPc
      rw [hpc]
      split <;> rfl
  | takeFree i => exact h.takeFree hen
  | takeFresh i newBlock => exact h.takeFresh hsizes hen hok
  | allocateReturns i =>
      have hpc : (s.pc i).isReturning = true := hen
      cases heq : s.pc i with
      | returning temp => exact h.allocateReturns heq
      | _ =>
          rw [heq] at hpc
          cases hpc
  | callDeallocate i ptr => exact h.callDeallocate hen.1 hen.2
  | give i =>
      have hpc : (s.pc i).isDeallocating = true := hen
      cases heq : s.pc i with
      | deallocating ptr => exact h.give hsizes heq
      | _ =>
          rw [heq] at hpc
          cases hpc
  | write address value => exact h.write hsizes hen

/-! ## Runs -/

/-- The slots of the free list are lost with it. -/
theorem InPlace.not_accounted (h : s.InPlace BlockSize size) (hsizes : PoolSizes BlockSize size)
    {a : PoolAction ι} (hen : s.Enabled a) (hbad : ¬ s.KeepsFreeList a) :
    ¬ (s.next a).Accounted := by
  cases a with
  | takeFresh i newBlock =>
      rw [KeepsFreeList, Classical.not_imp] at hbad
      obtain ⟨hfull, hlist⟩ := hbad
      obtain ⟨place, frees, hp⟩ := h.placed
      cases frees with
      | nil => exact absurd hp.linked hlist
      | cons q frees =>
          have hmem : q ∈ q :: frees := List.mem_cons_self
          have hq := hp.mem_carved hp.free hmem
          have hfresh := h.fresh hsizes hen.2
          have hnew : (s.next (.takeFresh i newBlock)).pool.freeList_ = 0 := by
            rw [next_takeFresh, PoolSystem.ready, if_pos hfull]
            rfl
          have hheld : ¬ (s.next (.takeFresh i newBlock)).Held q := by
            rintro ⟨j, hj⟩
            rw [next_takeFresh] at hj
            by_cases hji : j = i
            · rw [hji] at hj
              simp only [PoolSystem.setPc, Function.update_self, PoolPc.slot, Option.some_inj] at hj
              exact hfresh (hj ▸ hq)
            · simp only [PoolSystem.setPc, Function.update_of_ne hji] at hj
              exact (hp.held j).notMem hp.free (by simp) (by simp [hj]) hmem
          intro hall
          rcases hall q (List.mem_cons_of_mem _ hq) with hplace | hplace | hplace
          · exact hp.inUse.notMem hp.free (by simp) hplace.1 hmem
          · exact hheld hplace.2.1
          · exact not_free_of_null hnew hplace.2.2
  | _ => exact absurd trivial hbad

/-- In every run on a pool each carved slot is at all times in use, held by a call in progress or
on the free list, and in one of these places only, exactly if no thread takes a new block while
there is something on the free list. -/
theorem accounted_iff {byte : Bytes} {undefined : MemoryPool} (hsizes : PoolSizes BlockSize size)
    {as : List (PoolAction ι)}
    (hruns : (poolSystem ι).Runs (initial byte undefined BlockSize size) as) :
    (∀ bs, bs <+: as →
        ((poolSystem ι).run (initial byte undefined BlockSize size) bs).Accounted) ↔
      (poolSystem ι).Always KeepsFreeList (initial byte undefined BlockSize size) as := by
  exact (poolSystem ι).forall_prefix_iff_always (I := fun s => s.InPlace BlockSize size)
    (fun _ _ h hen hok => h.next hsizes hen hok) (fun _ h => h.accounted)
    (fun _ _ h hen hbad => h.not_accounted hsizes hen hbad)
    (inPlace_initial byte undefined BlockSize size) hruns

end Steps

/-- The pool of the slots of 512 bytes, and two threads. -/
def largestSlots : PoolSystem (Fin 2) := initial (fun _ => 0) ⟨0, 0, 0, 0, 0, 0⟩ 4096 512

/-- A slot is given back while another thread is on its way to the block, and is allocated
again. -/
def reusedSlot : List (PoolAction (Fin 2)) :=
  [.callAllocate 0, .test 0, .takeFresh 0 4096, .allocateReturns 0, .callAllocate 1, .test 1,
    .callDeallocate 0 4608, .give 0, .takeFresh 1 8192, .allocateReturns 1, .callAllocate 0,
    .test 0, .takeFree 0]

theorem accounted_reusedSlot :
    (poolSystem (Fin 2)).Runs largestSlots reusedSlot ∧
      (((poolSystem (Fin 2)).run largestSlots reusedSlot).pc 0).slot = some 4608 ∧
      ∀ bs, bs <+: reusedSlot → ((poolSystem (Fin 2)).run largestSlots bs).Accounted := by
  have hruns : (poolSystem (Fin 2)).Runs largestSlots reusedSlot := by decide +kernel
  refine ⟨hruns, by decide +kernel, ?_⟩
  exact (accounted_iff (poolSizes_initMemoryPool (by decide : 63 < MEMORY_POOL_NUM)) hruns).mpr
    (by decide +kernel)

/-- One thread has taken the seven slots of a block and comes for another one. When it has found
the free list empty, the other thread gives a slot back. -/
def slotsOfBlock : List (PoolAction (Fin 2)) :=
  (List.range 7).flatMap fun _ =>
    [.callAllocate 0, .test 0, .takeFresh 0 4096, .allocateReturns 0]

def lostSlot : List (PoolAction (Fin 2)) :=
  slotsOfBlock ++ [.callAllocate 0, .test 0, .callDeallocate 1 4608, .give 1, .takeFresh 0 8192]

theorem not_accounted_lostSlot :
    (poolSystem (Fin 2)).Runs largestSlots lostSlot ∧
      4608 ∈ ((poolSystem (Fin 2)).run largestSlots lostSlot).carved ∧
      4608 ∉ ((poolSystem (Fin 2)).run largestSlots lostSlot).inUse ∧
      ((poolSystem (Fin 2)).run largestSlots lostSlot).pool.freeList_ = 0 ∧
      ¬ ((poolSystem (Fin 2)).run largestSlots lostSlot).Accounted := by
  have hcarved : 4608 ∈ ((poolSystem (Fin 2)).run largestSlots lostSlot).carved := by
    decide +kernel
  have hinUse : 4608 ∉ ((poolSystem (Fin 2)).run largestSlots lostSlot).inUse := by
    decide +kernel
  have hnull : ((poolSystem (Fin 2)).run largestSlots lostSlot).pool.freeList_ = 0 := by
    decide +kernel
  have hheld : ∀ i, (((poolSystem (Fin 2)).run largestSlots lostSlot).pc i).slot ≠ some 4608 := by
    decide +kernel
  refine ⟨by decide +kernel, hcarved, hinUse, hnull, fun hall => ?_⟩
  rcases hall 4608 hcarved with hplace | hplace | hplace
  · exact hinUse hplace.1
  · obtain ⟨i, hi⟩ := hplace.2.1
    exact hheld i hi
  · exact not_free_of_null hnull hplace.2.2

end PoolSystem

end CkServer
