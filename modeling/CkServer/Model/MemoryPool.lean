import CkServer.Library.Machine
import CkServer.Library.Memory
import Mathlib.Logic.Function.Basic

/-! # The memory pools

Memory is bytes at 64-bit addresses, and a null pointer is 0. The address that `operator new`
returns is open: whoever calls gives it. -/

namespace CkServer

def MEMORY_POOL_NUM : ℕ := 64
def SLOT_BASE_SIZE : ℕ := 8
def MAX_SLOT_SIZE : ℕ := 512

/-- `sizeof(Slot)`, which is `sizeof(Slot*)`. -/
def sizeofSlot : ℕ := 8

/-- `live` has the address and the size of what `operator new` has handed out and not got back,
and `stored` the addresses of the words that the pools have written during the last call. -/
structure Memory where
  byte : Bytes
  live : List (ℕ × ℕ) := []
  stored : List ℕ := []

namespace Memory

def load (m : Memory) (a : ℕ) : ℕ := m.byte.load a

def store (m : Memory) (a v : ℕ) : Memory :=
  { m with byte := m.byte.store a v, stored := a :: m.stored }

def operatorNew (m : Memory) (newBlock size : ℕ) : Memory :=
  { m with live := (newBlock, size) :: m.live }

def operatorDelete (m : Memory) (ptr : ℕ) : Memory :=
  { m with live := m.live.filter fun e => e.1 ≠ ptr }

end Memory

structure MemoryPool where
  BlockSize_ : ℕ
  SlotSize_ : ℕ
  firstBlock_ : ℕ
  curSlot_ : ℕ
  freeList_ : ℕ
  lastSlot_ : ℕ

namespace MemoryPool

/-- The constructor sets `BlockSize_` only. -/
def new (undefined : MemoryPool) (BlockSize : ℕ := 4096) : MemoryPool :=
  { undefined with BlockSize_ := BlockSize }

def init (p : MemoryPool) (size : ℕ) : MemoryPool :=
  { p with SlotSize_ := size, firstBlock_ := 0, curSlot_ := 0, freeList_ := 0, lastSlot_ := 0 }

/-- `size_t` wraps around. -/
def padPointer (p align : ℕ) : ℕ := (align + 2 ^ 64 - p % 2 ^ 64) % 2 ^ 64 % align

def allocateNewBlock (p : MemoryPool) (m : Memory) (newBlock : ℕ) : MemoryPool × Memory :=
  let m := m.operatorNew newBlock p.BlockSize_
  let m := m.store newBlock p.firstBlock_
  let body := newBlock + sizeofSlot
  let paddingSize := padPointer body p.SlotSize_
  ({ p with
      firstBlock_ := newBlock
      curSlot_ := body + paddingSize
      lastSlot_ := newBlock + p.BlockSize_ - p.SlotSize_ + 1
      freeList_ := 0 }, m)

/-- The section of `allocate` under `mutexForFreeList_`. -/
def takeFree (p : MemoryPool) (m : Memory) : Option (MemoryPool × ℕ) :=
  if p.freeList_ ≠ 0 then some ({ p with freeList_ := m.load p.freeList_ }, p.freeList_) else none

/-- The section of `allocate` under `mutexForBlock_`. -/
def takeFresh (p : MemoryPool) (m : Memory) (newBlock : ℕ) : MemoryPool × Memory × ℕ :=
  let (p, m) := if p.curSlot_ ≥ p.lastSlot_ then p.allocateNewBlock m newBlock else (p, m)
  ({ p with curSlot_ := p.curSlot_ + p.SlotSize_ / sizeofSlot * sizeofSlot }, m, p.curSlot_)

def allocate (p : MemoryPool) (m : Memory) (newBlock : ℕ) : MemoryPool × Memory × ℕ :=
  match if p.freeList_ ≠ 0 then p.takeFree m else none with
  | some (p, temp) => (p, m, temp)
  | none => p.takeFresh m newBlock

def deallocate (p : MemoryPool) (m : Memory) (ptr : ℕ) : MemoryPool × Memory :=
  if ptr ≠ 0 then ({ p with freeList_ := ptr }, m.store ptr p.freeList_) else (p, m)

/-- The loop of `~MemoryPool`. There is no result where it would read or delete what is not
live. -/
def deleteBlocks : ℕ → Memory → ℕ → Option Memory
  | 0, _, _ => none
  | fuel + 1, m, cur =>
      if cur = 0 then some m
      else if cur ∈ m.live.map Prod.fst then
        deleteBlocks fuel (m.operatorDelete cur) (m.load cur)
      else none

/-- `~MemoryPool`. Each turn of its loop deletes something. -/
def destroy (p : MemoryPool) (m : Memory) : Option Memory :=
  deleteBlocks (m.live.length + 1) m p.firstBlock_

end MemoryPool

/-- `memoryPool` is the array of `getMemoryPool`. -/
structure HashBucket where
  memoryPool : ℕ → MemoryPool
  memory : Memory

namespace HashBucket

def initMemoryPool (b : HashBucket) : HashBucket :=
  { b with
    memoryPool := fun i =>
      if i < MEMORY_POOL_NUM then (b.memoryPool i).init ((i + 1) * SLOT_BASE_SIZE)
      else b.memoryPool i }

/-- The destructors of the static array, the last element first. -/
def destroy (b : HashBucket) : Option Memory :=
  (List.range MEMORY_POOL_NUM).reverse.foldlM (fun m i => (b.memoryPool i).destroy m) b.memory

/-- The pool for a size. -/
def index (size : ℕ) : ℕ := (size + 7) / SLOT_BASE_SIZE - 1

def useMemory (b : HashBucket) (size newBlock : ℕ) : HashBucket × ℕ :=
  if size = 0 then (b, 0)
  else if size > MAX_SLOT_SIZE then
    ({ b with memory := b.memory.operatorNew newBlock size }, newBlock)
  else
    let (p, m, ptr) := (b.memoryPool (index size)).allocate b.memory newBlock
    ({ memoryPool := Function.update b.memoryPool (index size) p, memory := m }, ptr)

def freeMemory (b : HashBucket) (ptr size : ℕ) : HashBucket :=
  if ptr = 0 then b
  else if size > MAX_SLOT_SIZE then { b with memory := b.memory.operatorDelete ptr }
  else
    let (p, m) := (b.memoryPool (index size)).deallocate b.memory ptr
    { memoryPool := Function.update b.memoryPool (index size) p, memory := m }

end HashBucket

/-! ## A program that uses the pools -/

/-- `inUse` has the pointers that the program has got and not given back, with the sizes it
asked for. -/
structure PoolUser where
  bucket : HashBucket
  inUse : List (ℕ × ℕ) := []

namespace PoolUser

inductive Action where
  | useMemory (size newBlock : ℕ)
  | freeMemory (ptr size : ℕ)
  | write (address : ℕ) (value : UInt8)

/-- The bucket at the beginning of a call. -/
def begin (u : PoolUser) : HashBucket :=
  { u.bucket with memory := { u.bucket.memory with stored := [] } }

def next (u : PoolUser) : Action → PoolUser
  | .useMemory size newBlock =>
      let (b, ptr) := u.begin.useMemory size newBlock
      { bucket := b, inUse := if ptr = 0 then u.inUse else (ptr, size) :: u.inUse }
  | .freeMemory ptr size =>
      { bucket := u.begin.freeMemory ptr size, inUse := u.inUse.erase (ptr, size) }
  | .write address value =>
      { u with
        bucket := { u.begin with
          memory := { u.begin.memory with
            byte := Function.update u.begin.memory.byte address value } } }

/-- What `operator new` has handed out is not null, does not overlap and does not reach the end
of the address space. -/
def Handed (m : Memory) : Prop :=
  m.live.Pairwise (fun e f => Apart e.1 e.2 f.1 f.2) ∧ ∀ e ∈ m.live, e.1 ≠ 0 ∧ e.1 + e.2 < 2 ^ 64

instance (m : Memory) : Decidable (Handed m) :=
  inferInstanceAs (Decidable (m.live.Pairwise (fun e f => Apart e.1 e.2 f.1 f.2) ∧
    ∀ e ∈ m.live, e.1 ≠ 0 ∧ e.1 + e.2 < 2 ^ 64))

/-- A pointer is given back once and with its size, and only memory in use is written. -/
def enabled (u : PoolUser) : Action → Prop
  | .useMemory size newBlock => Handed (u.next (.useMemory size newBlock)).bucket.memory
  | .freeMemory ptr size => ptr = 0 ∨ (ptr, size) ∈ u.inUse
  | .write address _ => ∃ e ∈ u.inUse, e.1 ≤ address ∧ address < e.1 + e.2

instance (u : PoolUser) : (a : Action) → Decidable (u.enabled a)
  | .useMemory size newBlock =>
      inferInstanceAs (Decidable (Handed (u.next (.useMemory size newBlock)).bucket.memory))
  | .freeMemory ptr size => inferInstanceAs (Decidable (ptr = 0 ∨ (ptr, size) ∈ u.inUse))
  | .write address _ =>
      inferInstanceAs (Decidable (∃ e ∈ u.inUse, e.1 ≤ address ∧ address < e.1 + e.2))

def machine : Machine PoolUser Action where
  enabled := enabled
  next := next

instance (u : PoolUser) (a : Action) : Decidable (machine.enabled u a) :=
  inferInstanceAs (Decidable (u.enabled a))

/-- The program once `initMemoryPool` has run. The memory and the pools before are arbitrary but
for the constructor's block size. -/
def initial (byte : Bytes) (undefined : ℕ → MemoryPool) : PoolUser where
  bucket := HashBucket.initMemoryPool
    { memoryPool := fun i => MemoryPool.new (undefined i), memory := { byte := byte } }

end PoolUser

end CkServer
