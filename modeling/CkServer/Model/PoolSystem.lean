import CkServer.Model.MemoryPool

/-! # Threads on one memory pool

The threads `ι` call `allocate` and `deallocate` on one pool. A step is a section under one of
the two mutexes, or the test of `freeList_` that `allocate` makes before it locks. -/

namespace CkServer

universe u

/-- Where a thread is: outside the functions of the pool, or before the next of their steps. -/
inductive PoolPc where
  | idle
  | testing
  /-- Before the section under `mutexForFreeList_`. -/
  | takingFree
  /-- Before the section under `mutexForBlock_`. -/
  | takingFresh
  | returning (temp : ℕ)
  | deallocating (ptr : ℕ)
  deriving DecidableEq

/-- The slot that a call in progress holds. -/
def PoolPc.slot : PoolPc → Option ℕ
  | .returning temp => some temp
  | .deallocating ptr => if ptr = 0 then none else some ptr
  | _ => none

def PoolPc.isReturning : PoolPc → Bool
  | .returning _ => true
  | _ => false

def PoolPc.isDeallocating : PoolPc → Bool
  | .deallocating _ => true
  | _ => false

/-- The state. `inUse` has the slots that the callers have got and not given back, and `carved`
those that have been cut off a block. -/
structure PoolSystem (ι : Type u) where
  pool : MemoryPool
  memory : Memory
  pc : ι → PoolPc := fun _ => .idle
  inUse : List ℕ := []
  carved : List ℕ := []

inductive PoolAction (ι : Type u) where
  | callAllocate (i : ι)
  /-- The test of `freeList_` without a mutex. -/
  | test (i : ι)
  | takeFree (i : ι)
  | takeFresh (i : ι) (newBlock : ℕ)
  | allocateReturns (i : ι)
  | callDeallocate (i : ι) (ptr : ℕ)
  /-- The section of `deallocate`, and its end. -/
  | give (i : ι)
  /-- The program writes to its memory. -/
  | write (address : ℕ) (value : UInt8)

namespace PoolSystem

variable {ι : Type u} [DecidableEq ι]

def setPc (s : PoolSystem ι) (i : ι) (pc : PoolPc) : PoolSystem ι :=
  { s with pc := Function.update s.pc i pc }

def next (s : PoolSystem ι) : PoolAction ι → PoolSystem ι
  | .callAllocate i => s.setPc i .testing
  | .test i => s.setPc i (if s.pool.freeList_ ≠ 0 then .takingFree else .takingFresh)
  | .takeFree i =>
      match s.pool.takeFree s.memory with
      | some (p, temp) => { s.setPc i (.returning temp) with pool := p }
      | none => s.setPc i .takingFresh
  | .takeFresh i newBlock =>
      let (p, m, temp) := s.pool.takeFresh s.memory newBlock
      { s.setPc i (.returning temp) with pool := p, memory := m, carved := temp :: s.carved }
  | .allocateReturns i =>
      match s.pc i with
      | .returning temp => { s.setPc i .idle with inUse := temp :: s.inUse }
      | _ => s
  | .callDeallocate i ptr =>
      { s.setPc i (.deallocating ptr) with inUse := s.inUse.erase ptr }
  | .give i =>
      match s.pc i with
      | .deallocating ptr =>
          let (p, m) := s.pool.deallocate s.memory ptr
          { s.setPc i .idle with pool := p, memory := m }
      | _ => s
  | .write address value =>
      { s with
        memory := { s.memory with byte := Function.update s.memory.byte address value } }

/-- The program may write to a slot that it has, and to what is not in a block of the pool. -/
def CanWrite (s : PoolSystem ι) (address : ℕ) : Prop :=
  (∃ p ∈ s.inUse, p ≤ address ∧ address < p + s.pool.SlotSize_) ∨
    ∀ e ∈ s.memory.live, ¬ (e.1 ≤ address ∧ address < e.1 + e.2)

instance (s : PoolSystem ι) (address : ℕ) : Decidable (s.CanWrite address) :=
  inferInstanceAs (Decidable ((∃ p ∈ s.inUse, p ≤ address ∧ address < p + s.pool.SlotSize_) ∨
    ∀ e ∈ s.memory.live, ¬ (e.1 ≤ address ∧ address < e.1 + e.2)))

/-- A slot is given back by a caller that has it. -/
def Enabled (s : PoolSystem ι) : PoolAction ι → Prop
  | .callAllocate i => s.pc i = .idle
  | .test i => s.pc i = .testing
  | .takeFree i => s.pc i = .takingFree
  | .takeFresh i newBlock =>
      s.pc i = .takingFresh ∧ PoolUser.Handed (s.next (.takeFresh i newBlock)).memory
  | .allocateReturns i => (s.pc i).isReturning = true
  | .callDeallocate i ptr => s.pc i = .idle ∧ (ptr = 0 ∨ ptr ∈ s.inUse)
  | .give i => (s.pc i).isDeallocating = true
  | .write address _ => s.CanWrite address

instance (s : PoolSystem ι) : ∀ a, Decidable (s.Enabled a)
  | .callAllocate i => inferInstanceAs (Decidable (s.pc i = .idle))
  | .test i => inferInstanceAs (Decidable (s.pc i = .testing))
  | .takeFree i => inferInstanceAs (Decidable (s.pc i = .takingFree))
  | .takeFresh i newBlock =>
      inferInstanceAs (Decidable
        (s.pc i = .takingFresh ∧ PoolUser.Handed (s.next (.takeFresh i newBlock)).memory))
  | .allocateReturns i => inferInstanceAs (Decidable ((s.pc i).isReturning = true))
  | .callDeallocate i ptr =>
      inferInstanceAs (Decidable (s.pc i = .idle ∧ (ptr = 0 ∨ ptr ∈ s.inUse)))
  | .give i => inferInstanceAs (Decidable ((s.pc i).isDeallocating = true))
  | .write address _ => inferInstanceAs (Decidable (s.CanWrite address))

/-- A pool after its constructor and `init`. -/
def initial (byte : Bytes) (undefined : MemoryPool) (BlockSize size : ℕ) : PoolSystem ι where
  pool := (MemoryPool.new undefined BlockSize).init size
  memory := { byte := byte }

end PoolSystem

/-- The machine of a memory pool among the threads `ι`. -/
def poolSystem (ι : Type u) [DecidableEq ι] : Machine (PoolSystem ι) (PoolAction ι) where
  enabled := PoolSystem.Enabled
  next := PoolSystem.next

instance {ι : Type u} [DecidableEq ι] (s : PoolSystem ι) (a : PoolAction ι) :
    Decidable ((poolSystem ι).enabled s a) :=
  inferInstanceAs (Decidable (s.Enabled a))

end CkServer
