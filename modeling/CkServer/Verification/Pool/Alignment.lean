import CkServer.Verification.Pool.Slots
import Mathlib.Algebra.Group.Nat.Defs

/-! # The alignment of the slots

Every slot is where its block began to be carved up, and a number of slots further on. A property
of addresses that goes on from slot to slot, and that the first slots have, is kept by the free
lists and by the program. -/

namespace CkServer

open HashBucket

variable {u : PoolUser} {owner : Owners} {free blocks : ℕ → List ℕ} {i size B : ℕ}
  {P : ℕ → ℕ → Prop}

/-! ## What `allocate` returns -/

/-- Where the pool `i` begins to carve up the block `B`. -/
def firstSlot (i B : ℕ) : ℕ := B + 8 + MemoryPool.padPointer (B + 8) ((i + 1) * 8)

theorem PoolLists.allocate_cases {m : Memory} {p : MemoryPool} {qs bs : List ℕ}
    (h : PoolLists m owner p i qs bs) (B : ℕ) :
    (p.freeList_ ≠ 0 ∧
      p.allocate m B = ({ p with freeList_ := m.load p.freeList_ }, m, p.freeList_)) ∨
    (p.freeList_ = 0 ∧ p.curSlot_ < p.lastSlot_ ∧
      p.allocate m B = ({ p with curSlot_ := p.curSlot_ + (i + 1) * 8 }, m, p.curSlot_)) ∨
    (p.freeList_ = 0 ∧ p.lastSlot_ ≤ p.curSlot_ ∧
      p.allocate m B =
        ({ p with
            firstBlock_ := B
            curSlot_ := firstSlot i B + (i + 1) * 8
            lastSlot_ := B + 4096 - (i + 1) * 8 + 1
            freeList_ := 0 }, (m.operatorNew B 4096).store B p.firstBlock_, firstSlot i B)) := by
  have hslot : (i + 1) * 8 / sizeofSlot * sizeofSlot = (i + 1) * 8 := by
    rw [sizeofSlot]
    omega
  by_cases hfree : p.freeList_ = 0
  · right
    have htake : p.allocate m B = p.takeFresh m B := by simp [MemoryPool.allocate, hfree]
    by_cases hfull : p.curSlot_ ≥ p.lastSlot_
    · refine .inr ⟨hfree, hfull, ?_⟩
      rw [htake, MemoryPool.takeFresh, if_pos hfull, allocateNewBlock_eq h]
      simp only [h.SlotSize_, hslot]
      rfl
    · refine .inl ⟨hfree, Nat.not_le.mp hfull, ?_⟩
      rw [htake, MemoryPool.takeFresh, if_neg hfull]
      simp only [h.SlotSize_, hslot]
  · left
    refine ⟨hfree, ?_⟩
    simp [MemoryPool.allocate, MemoryPool.takeFree, hfree]

namespace PoolUser

/-- What `useMemory` returns. -/
def returned (u : PoolUser) (size newBlock : ℕ) : ℕ := (u.begin.useMemory size newBlock).2

/-- `allocate` opens a block. -/
def OpensBlock (u : PoolUser) (size : ℕ) : Prop :=
  (u.bucket.memoryPool (index size)).freeList_ = 0 ∧
    (u.bucket.memoryPool (index size)).lastSlot_ ≤ (u.bucket.memoryPool (index size)).curSlot_

instance (u : PoolUser) (size : ℕ) : Decidable (u.OpensBlock size) :=
  inferInstanceAs (Decidable ((u.bucket.memoryPool (index size)).freeList_ = 0 ∧
    (u.bucket.memoryPool (index size)).lastSlot_ ≤ (u.bucket.memoryPool (index size)).curSlot_))

/-- The program after a call for a small size. -/
theorem useMemory_small (u : PoolUser) (hpos : 1 ≤ size) (hsize : size ≤ MAX_SLOT_SIZE) (B : ℕ)
    {p : MemoryPool} {m : Memory} {ptr : ℕ}
    (h : (u.bucket.memoryPool (index size)).allocate u.begin.memory B = (p, m, ptr)) :
    u.returned size B = ptr ∧
      u.next (.useMemory size B) =
        u.set (index size) p m (if ptr = 0 then u.inUse else (ptr, size) :: u.inUse) := by
  have huse : u.begin.useMemory size B =
      ({ memoryPool := Function.update u.bucket.memoryPool (index size) p, memory := m }, ptr) := by
    have hpool : u.begin.memoryPool = u.bucket.memoryPool := rfl
    rw [HashBucket.useMemory, if_neg (by omega), if_neg (Nat.not_lt.mpr hsize), hpool, h]
  refine ⟨by rw [returned, huse], ?_⟩
  simp only [next, huse]
  rfl

end PoolUser

/-! ## Free lists -/

/-- The free list of a pool stays where its slots are not written. -/
theorem PoolsKept.reaches_freeList {m' : Bytes} {b : ℕ} (h : PoolsKept u owner free blocks)
    (hi : i < 64)
    (hsame : ∀ x q, owner x = some (.free i q) → m' x = u.bucket.memory.byte x)
    (hb : m'.Reaches (u.bucket.memoryPool i).freeList_ b) :
    u.bucket.memory.byte.Reaches (u.bucket.memoryPool i).freeList_ b := by
  have hpool := h.lists i hi
  have hlinked : m'.Linked (u.bucket.memoryPool i).freeList_ (free i) := by
    apply hpool.freeList_.congr
    intro q hq x hx hlt
    exact hsame x q ((hpool.slot q hq).1 x hx (by omega))
  exact hpool.freeList_.mem_iff_reaches.mp (hlinked.mem_iff_reaches.mpr hb)

/-- The slots of the pool `i` have the property `P i`: those in the free lists, those in use and the
one that is carved up next. -/
structure Regular (P : ℕ → ℕ → Prop) (u : PoolUser) : Prop where
  curSlot_ : ∀ i < 64, (u.bucket.memoryPool i).curSlot_ < (u.bucket.memoryPool i).lastSlot_ →
    P i (u.bucket.memoryPool i).curSlot_
  freeList_ : ∀ i < 64, ∀ q,
    u.bucket.memory.byte.Reaches (u.bucket.memoryPool i).freeList_ q → P i q
  inUse : ∀ e ∈ u.inUse, e.2 ≤ MAX_SLOT_SIZE → P (index e.2) e.1

/-- The first slot of a new block has the property of its pool. -/
def Begins (P : ℕ → ℕ → Prop) (u : PoolUser) : PoolUser.Action → Prop
  | .useMemory size B =>
      1 ≤ size → size ≤ MAX_SLOT_SIZE → u.OpensBlock size →
        P (index size) (firstSlot (index size) B)
  | _ => True

/-- The new block of a call has had no owner. -/
theorem PoolsKept.owner_of_newBlock {m' : Memory} {v x : ℕ} (h : PoolsKept u owner free blocks)
    (hm : m' = (u.begin.memory.operatorNew B 4096).store B v) (hhanded : PoolUser.Handed m')
    (hx : B ≤ x) (hlt : x < B + 8) : owner x = none := by
  subst hm
  exact h.owner_of_fresh (List.pairwise_cons.mp hhanded.1).1 hx (by omega)

/-- What a call for a small size returns. -/
theorem Regular.returned (h : Regular P u) (hkept : PoolsKept u owner free blocks)
    (hpos : 1 ≤ size) (hsize : size ≤ MAX_SLOT_SIZE) (hbegins : Begins P u (.useMemory size B)) :
    P (index size) (u.returned size B) := by
  have hi := index_lt hpos hsize
  rcases (hkept.begin.lists _ hi).allocate_cases B with
    ⟨hfree, htake⟩ | ⟨hfree, hroom, htake⟩ | ⟨hfree, hfull, htake⟩
  · rw [(u.useMemory_small hpos hsize B htake).1]
    exact h.freeList_ _ hi _ (.here hfree)
  · rw [(u.useMemory_small hpos hsize B htake).1]
    exact h.curSlot_ _ hi hroom
  · rw [(u.useMemory_small hpos hsize B htake).1]
    exact hbegins hpos hsize ⟨hfree, hfull⟩

/-! ## Steps -/

/-- The pool `i` changes, and the free lists of the others stay. -/
theorem Regular.set {p : MemoryPool} {m : Memory} {inUse : List (ℕ × ℕ)} (h : Regular P u)
    (hcur : p.curSlot_ < p.lastSlot_ → P i p.curSlot_)
    (hself : ∀ q, m.byte.Reaches p.freeList_ q → P i q)
    (hothers : ∀ j < 64, j ≠ i → ∀ q, m.byte.Reaches (u.bucket.memoryPool j).freeList_ q →
      u.bucket.memory.byte.Reaches (u.bucket.memoryPool j).freeList_ q)
    (hin : ∀ e ∈ inUse, e.2 ≤ MAX_SLOT_SIZE → P (index e.2) e.1) :
    Regular P (u.set i p m inUse) := by
  refine ⟨?_, ?_, hin⟩
  · intro j hj
    by_cases hji : j = i
    · subst hji
      simpa only [PoolUser.set, Function.update_self] using hcur
    · simpa only [PoolUser.set, Function.update_of_ne hji] using h.curSlot_ j hj
  · intro j hj q hq
    by_cases hji : j = i
    · subst hji
      simp only [PoolUser.set, Function.update_self] at hq
      exact hself q hq
    · simp only [PoolUser.set, Function.update_of_ne hji] at hq
      exact h.freeList_ j hj q (hothers j hj hji q hq)

theorem Regular.inUse_cons {ptr : ℕ} (h : Regular P u) (hptr : P (index size) ptr) :
    ∀ e ∈ (if ptr = 0 then u.inUse else (ptr, size) :: u.inUse),
      e.2 ≤ MAX_SLOT_SIZE → P (index e.2) e.1 := by
  intro e he
  split at he
  · exact h.inUse e he
  · rcases List.mem_cons.mp he with rfl | he
    · exact fun _ => hptr
    · exact h.inUse e he

theorem Regular.allocate (h : Regular P u) (hkept : PoolsKept u owner free blocks)
    (hadd : ∀ i q, P i q → P i (q + (i + 1) * 8)) (hpos : 1 ≤ size) (hsize : size ≤ MAX_SLOT_SIZE)
    (hhanded : PoolUser.Handed (u.next (.useMemory size B)).bucket.memory)
    (hbegins : Begins P u (.useMemory size B)) : Regular P (u.next (.useMemory size B)) := by
  have hi := index_lt hpos hsize
  have hptr := h.returned hkept hpos hsize hbegins
  rcases (hkept.begin.lists _ hi).allocate_cases B with
    ⟨hfree, htake⟩ | ⟨hfree, hroom, htake⟩ | ⟨hfree, hfull, htake⟩
  · obtain ⟨hreturned, hnext⟩ := u.useMemory_small hpos hsize B htake
    rw [hreturned] at hptr
    rw [hnext]
    refine h.set ?_ (fun q hq => h.freeList_ _ hi q (.next hfree hq)) (fun _ _ _ _ hq => hq)
      (h.inUse_cons hptr)
    dsimp only
    exact h.curSlot_ _ hi
  · obtain ⟨hreturned, hnext⟩ := u.useMemory_small hpos hsize B htake
    rw [hreturned] at hptr
    rw [hnext]
    exact h.set (fun _ => hadd _ _ hptr) (h.freeList_ _ hi) (fun _ _ _ _ hq => hq)
      (h.inUse_cons hptr)
  · obtain ⟨hreturned, hnext⟩ := u.useMemory_small hpos hsize B htake
    rw [hreturned] at hptr
    rw [hnext] at hhanded ⊢
    refine h.set (fun _ => hadd _ _ hptr) ?_ ?_ (h.inUse_cons hptr)
    · intro q hq
      cases hq with
      | here hne => exact absurd rfl hne
      | next hne _ => exact absurd rfl hne
    · intro j hj _ q hq
      refine hkept.reaches_freeList hj (fun x q hx => ?_) hq
      -- the header of the new block is in no free list
      apply Bytes.store_of_notMem
      rintro ⟨hle, hlt⟩
      rw [hkept.owner_of_newBlock rfl hhanded hle hlt] at hx
      cases hx

/-- A call that leaves the pools and their memory as they are. -/
theorem Regular.of_eq {u' : PoolUser} (h : Regular P u)
    (hpool : u'.bucket.memoryPool = u.bucket.memoryPool)
    (hbyte : u'.bucket.memory.byte = u.bucket.memory.byte)
    (hin : ∀ e ∈ u'.inUse, e.2 ≤ MAX_SLOT_SIZE → e ∈ u.inUse) : Regular P u' := by
  refine ⟨?_, ?_, fun e he hsmall => h.inUse e (hin e he hsmall) hsmall⟩
  · rw [hpool]
    exact h.curSlot_
  · rw [hpool, hbyte]
    exact h.freeList_

theorem Regular.useMemory (h : Regular P u) (hkept : PoolsKept u owner free blocks)
    (hadd : ∀ i q, P i q → P i (q + (i + 1) * 8))
    (hhanded : PoolUser.Handed (u.next (.useMemory size B)).bucket.memory)
    (hbegins : Begins P u (.useMemory size B)) : Regular P (u.next (.useMemory size B)) := by
  by_cases hzero : size = 0
  · have hnext : u.next (.useMemory size B) = { u with bucket := u.begin } := by
      simp [PoolUser.next, HashBucket.useMemory, hzero]
    rw [hnext]
    exact h.of_eq rfl rfl (fun e he _ => he)
  · by_cases hsize : size > MAX_SLOT_SIZE
    · have huse : u.begin.useMemory size B =
          ({ u.begin with memory := u.begin.memory.operatorNew B size }, B) := by
        rw [HashBucket.useMemory, if_neg hzero, if_pos hsize]
      simp only [PoolUser.next, huse]
      refine h.of_eq rfl rfl (fun e he hsmall => ?_)
      simp only at he
      split at he
      · exact he
      · rcases List.mem_cons.mp he with rfl | he
        · exact absurd hsmall (Nat.not_le.mpr hsize)
        · exact he
    · exact h.allocate hkept hadd (Nat.pos_of_ne_zero hzero) (Nat.not_lt.mp hsize) hhanded hbegins

theorem Regular.deallocate {ptr : ℕ} (h : Regular P u) (hkept : PoolsKept u owner free blocks)
    (he : (ptr, size) ∈ u.inUse) (hne : ptr ≠ 0) (hsize : size ≤ MAX_SLOT_SIZE) :
    Regular P (u.next (.freeMemory ptr size)) := by
  have hslot := hkept.users _ he
  have hi := index_lt hslot.size_pos hsize
  have hregion := hslot.owned
  rw [slotSize_of_le hsize] at hregion
  have hnext : u.next (.freeMemory ptr size) =
      u.set (index size) { u.bucket.memoryPool (index size) with freeList_ := ptr }
        (u.begin.memory.store ptr (u.bucket.memoryPool (index size)).freeList_)
        (u.inUse.erase (ptr, size)) := by
    simp only [PoolUser.next, HashBucket.freeMemory, if_neg (Nat.not_lt.mpr hsize),
      MemoryPool.deallocate, ne_eq, hne, not_false_eq_true, if_true]
    rfl
  have hsame : ∀ j < 64, ∀ b,
      (u.begin.memory.store ptr (u.bucket.memoryPool (index size)).freeList_).byte.Reaches
        (u.bucket.memoryPool j).freeList_ b →
      u.bucket.memory.byte.Reaches (u.bucket.memoryPool j).freeList_ b := by
    intro j hj b hb
    refine hkept.reaches_freeList hj (fun x q hx => ?_) hb
    apply Bytes.store_of_notMem
    rintro ⟨hle, hlt⟩
    rw [hregion x hle (by omega)] at hx
    cases hx
  rw [hnext]
  refine h.set (h.curSlot_ _ hi) ?_ (fun j hj _ => hsame j hj)
    (fun e he => h.inUse e (List.mem_of_mem_erase he))
  intro q hq
  cases hq with
  | here _ => exact h.inUse _ he hsize
  | next _ hrest =>
      have hload : (u.begin.memory.store ptr
          (u.bucket.memoryPool (index size)).freeList_).byte.load ptr =
            (u.bucket.memoryPool (index size)).freeList_ :=
        Bytes.load_store _ ptr ((hkept.lists _ hi).freeList_lt hkept.handed)
      simp only [hload] at hrest
      exact h.freeList_ _ hi q (hsame _ hi q hrest)

theorem Regular.freeMemory {ptr : ℕ} (h : Regular P u) (hkept : PoolsKept u owner free blocks)
    (hptr : ptr = 0 ∨ (ptr, size) ∈ u.inUse) : Regular P (u.next (.freeMemory ptr size)) := by
  by_cases hne : ptr = 0
  · simp only [PoolUser.next, HashBucket.freeMemory, if_pos hne]
    exact h.of_eq rfl rfl (fun e he _ => List.mem_of_mem_erase he)
  · by_cases hsize : size > MAX_SLOT_SIZE
    · simp only [PoolUser.next, HashBucket.freeMemory, if_neg hne, if_pos hsize]
      exact h.of_eq rfl rfl (fun e he _ => List.mem_of_mem_erase he)
    · exact h.deallocate hkept (hptr.resolve_left hne) hne (Nat.not_lt.mp hsize)

/-- The program writes to its own memory, and not to a free slot. -/
theorem Regular.write {a : ℕ} {v : UInt8} (h : Regular P u) (hkept : PoolsKept u owner free blocks)
    (ha : ∃ e ∈ u.inUse, e.1 ≤ a ∧ a < e.1 + e.2) : Regular P (u.next (.write a v)) := by
  obtain ⟨e, he, hle, hlt⟩ := ha
  refine ⟨h.curSlot_, ?_, h.inUse⟩
  intro i hi q hq
  refine h.freeList_ i hi q (hkept.reaches_freeList hi (fun x q hx => ?_) hq)
  apply Function.update_of_ne
  rintro rfl
  have hsize := le_slotSize e.2
  rw [(hkept.users e he).owned x hle (by omega)] at hx
  cases hx

theorem Regular.next (h : Regular P u) (hkept : PoolsKept u owner free blocks)
    (hadd : ∀ i q, P i q → P i (q + (i + 1) * 8)) {a : PoolUser.Action} (ha : u.enabled a)
    (hbegins : Begins P u a) : Regular P (u.next a) := by
  cases a with
  | useMemory size B => exact h.useMemory hkept hadd ha hbegins
  | freeMemory ptr size => exact h.freeMemory hkept ha
  | write a v => exact h.write hkept ha

theorem regular_initial (P : ℕ → ℕ → Prop) (byte : Bytes) (undefined : ℕ → MemoryPool) :
    Regular P (PoolUser.initial byte undefined) := by
  have hpool : ∀ i < 64, (PoolUser.initial byte undefined).bucket.memoryPool i =
      (MemoryPool.new (undefined i)).init ((i + 1) * SLOT_BASE_SIZE) := fun i hi => if_pos hi
  refine ⟨?_, ?_, by simp [PoolUser.initial]⟩
  · intro i hi hlt
    rw [hpool i hi] at hlt
    exact absurd hlt (Nat.lt_irrefl 0)
  · intro i hi q hq
    rw [hpool i hi] at hq
    cases hq with
    | here hne => exact absurd rfl hne
    | next hne _ => exact absurd rfl hne

/-! ## Runs -/

/-- The lists of the pools and the owners of the memory can be told. -/
def PoolUser.Kept (u : PoolUser) : Prop := ∃ owner free blocks, PoolsKept u owner free blocks

theorem PoolUser.Kept.next (h : u.Kept) {a : PoolUser.Action} (ha : u.enabled a) :
    (u.next a).Kept := by
  obtain ⟨owner, free, blocks, hkept⟩ := h
  obtain ⟨owner', free', blocks', hnext, -⟩ := hkept.next a ha
  exact ⟨owner', free', blocks', hnext⟩

theorem PoolUser.kept_initial (byte : Bytes) (undefined : ℕ → MemoryPool) :
    (PoolUser.initial byte undefined).Kept := ⟨_, _, _, poolsKept_initial byte undefined⟩

theorem Regular.next_of_kept (hadd : ∀ i q, P i q → P i (q + (i + 1) * 8))
    (h : u.Kept ∧ Regular P u) {a : PoolUser.Action} (ha : u.enabled a) (hbegins : Begins P u a) :
    (u.next a).Kept ∧ Regular P (u.next a) := by
  obtain ⟨hkept, hregular⟩ := h
  refine ⟨hkept.next ha, ?_⟩
  obtain ⟨owner, free, blocks, hkept⟩ := hkept
  exact hregular.next hkept hadd ha hbegins

/-- When the first slots of all blocks have the property, every state of the run has it. -/
theorem regular_of_runs (hadd : ∀ i q, P i q → P i (q + (i + 1) * 8)) (byte : Bytes)
    (undefined : ℕ → MemoryPool) {as : List PoolUser.Action}
    (hruns : PoolUser.machine.Runs (PoolUser.initial byte undefined) as)
    (hbegins : PoolUser.machine.Always (Begins P) (PoolUser.initial byte undefined) as) :
    (PoolUser.machine.run (PoolUser.initial byte undefined) as).Kept ∧
      Regular P (PoolUser.machine.run (PoolUser.initial byte undefined) as) :=
  PoolUser.machine.invariant (I := fun u => u.Kept ∧ Regular P u)
    (fun _ _ h ha hok => Regular.next_of_kept hadd h ha hok)
    ⟨PoolUser.kept_initial byte undefined, regular_initial P byte undefined⟩ hruns hbegins

/-! ## Powers of two -/

/-- A power of two that divides a size divides the size of its slot. -/
theorem two_pow_dvd_slot {k : ℕ} (hpos : 1 ≤ size) (h : 2 ^ k ∣ size) :
    2 ^ k ∣ (index size + 1) * 8 := by
  by_cases hk : k ≤ 3
  · exact Nat.dvd_mul_left_of_dvd (Nat.pow_dvd_pow 2 hk) _
  · have height : 8 ∣ size := (Nat.pow_dvd_pow 2 (Nat.le_of_lt (Nat.not_le.mp hk))).trans h
    have hslot : (index size + 1) * 8 = size := by
      rw [index, SLOT_BASE_SIZE]
      omega
    rwa [hslot]

/-- The padding keeps every power of two, although the subtraction wraps around. -/
theorem two_pow_dvd_firstSlot {k : ℕ} (hi : i < 64) (h : 2 ^ k ∣ (i + 1) * 8) (B : ℕ) :
    2 ^ k ∣ firstSlot i B := by
  have hle : 2 ^ k ≤ 2 ^ 9 := (Nat.le_of_dvd (by omega) h).trans (by omega)
  have hk : k ≤ 64 := by
    have hnine := (Nat.pow_le_pow_iff_right (by decide)).mp hle
    omega
  exact Padding.dvd_add_pad (by decide) h (Nat.pow_dvd_pow 2 hk) (B + 8)

/-- What `useMemory` returns is aligned for every object of that size: an alignment is a power of
two that divides it. -/
theorem aligned_of_runs (byte : Bytes) (undefined : ℕ → MemoryPool) (as : List PoolUser.Action)
    (hruns : PoolUser.machine.Runs (PoolUser.initial byte undefined) as) {s k : ℕ}
    (hpos : 1 ≤ s) (hsize : s ≤ MAX_SLOT_SIZE) (ha : 2 ^ k ∣ s) (newBlock : ℕ) :
    2 ^ k ∣ (PoolUser.machine.run (PoolUser.initial byte undefined) as).returned s newBlock := by
  have hbegins : ∀ u a, Begins (fun i q => 2 ^ k ∣ (i + 1) * 8 → 2 ^ k ∣ q) u a := by
    intro u a
    cases a with
    | useMemory size B =>
        exact fun hpos hsize _ h => two_pow_dvd_firstSlot (index_lt hpos hsize) h B
    | freeMemory ptr size => trivial
    | write address value => trivial
  obtain ⟨⟨owner, free, blocks, hkept⟩, hregular⟩ :=
    regular_of_runs (fun i q hq h => Nat.dvd_add (hq h) h) byte undefined hruns
      (PoolUser.machine.always_of_forall hbegins _ as)
  exact hregular.returned hkept hpos hsize (hbegins _ (.useMemory s newBlock))
    (two_pow_dvd_slot hpos ha)

/-- Slots of 24 bytes, the first of them given back. -/
theorem aligned_reused : 2 ^ 3 ∣ (PoolUser.machine.run
    (PoolUser.initial (fun _ => 0) fun _ => ⟨0, 0, 0, 0, 0, 0⟩)
    [.useMemory 24 65536, .useMemory 24 0, .freeMemory 65560 24]).returned 24 0 :=
  aligned_of_runs _ _ _ (by decide) (by decide) (by decide) (by decide) 0

/-! ## Multiples of the slot size -/

/-- `padPointer` leads from `p` to the next multiple of `align`, in the arithmetic of `size_t`. -/
def PadsUp (p align : ℕ) : Prop :=
  MemoryPool.padPointer p align < align ∧ align ∣ (p + MemoryPool.padPointer p align) % 2 ^ 64

instance (p align : ℕ) : Decidable (PadsUp p align) :=
  inferInstanceAs (Decidable (MemoryPool.padPointer p align < align ∧
    align ∣ (p + MemoryPool.padPointer p align) % 2 ^ 64))

theorem padsUp_iff {p align : ℕ} (hp : p < 2 ^ 64) (hpos : 0 < align) (halign : align < 2 ^ 64) :
    PadsUp p align ↔ align ∣ 2 ^ 64 ∨ p ≤ align ∨ 2 ^ 64 < p + align :=
  (and_iff_right (padPointer_lt p hpos)).trans (Padding.dvd_add_pad_iff hpos halign hp)

/-- What `useMemory` returns is a multiple of the slot size. -/
def SlotAligned (u : PoolUser) : PoolUser.Action → Prop
  | .useMemory size B => 1 ≤ size → size ≤ MAX_SLOT_SIZE → u.slot size ∣ u.returned size B
  | _ => True

/-- A new block is for slots of a size that divides `2 ^ 64`, or it begins below that size. -/
def BlockFits (u : PoolUser) : PoolUser.Action → Prop
  | .useMemory size B =>
      1 ≤ size → size ≤ MAX_SLOT_SIZE → u.OpensBlock size →
        u.slot size ∣ 2 ^ 64 ∨ B + sizeofSlot ≤ u.slot size
  | _ => True

theorem PoolsKept.slot_small (h : PoolsKept u owner free blocks) (hpos : 1 ≤ size)
    (hsize : size ≤ MAX_SLOT_SIZE) : u.slot size = (index size + 1) * 8 := by
  rw [PoolUser.slot, if_neg (Nat.not_lt.mpr hsize), (h.lists _ (index_lt hpos hsize)).SlotSize_]

/-- The first slot of a new block is a multiple of its size exactly under the condition on the
block. -/
theorem dvd_firstSlot_iff (hi : i < 64) (hB : B + 4096 < 2 ^ 64) :
    (i + 1) * 8 ∣ firstSlot i B ↔ (i + 1) * 8 ∣ 2 ^ 64 ∨ B + 8 ≤ (i + 1) * 8 := by
  have hpos : 0 < (i + 1) * 8 := by omega
  have hpad := padPointer_lt (B + 8) hpos
  have hsmall : firstSlot i B % 2 ^ 64 = firstSlot i B := by
    apply Nat.mod_eq_of_lt
    rw [firstSlot]
    omega
  have hiff : (i + 1) * 8 ∣ firstSlot i B % 2 ^ 64 ↔ _ :=
    Padding.dvd_add_pad_iff hpos (by omega) (by omega)
  rw [hsmall] at hiff
  rw [hiff]
  constructor
  · rintro (hdvd | hle | hlast)
    · exact .inl hdvd
    · exact .inr hle
    · omega
  · rintro (hdvd | hle)
    · exact .inl hdvd
    · exact .inr (.inl hle)

/-- The block of a call ends in the address space. -/
theorem PoolsKept.newBlock_end (h : PoolsKept u owner free blocks) (hpos : 1 ≤ size)
    (hsize : size ≤ MAX_SLOT_SIZE) (hopens : u.OpensBlock size)
    (hhanded : PoolUser.Handed (u.next (.useMemory size B)).bucket.memory) :
    B + 4096 < 2 ^ 64 ∧ u.returned size B = firstSlot (index size) B := by
  rcases (h.begin.lists _ (index_lt hpos hsize)).allocate_cases B with
    ⟨hfree, -⟩ | ⟨-, hroom, -⟩ | ⟨-, -, htake⟩
  · exact absurd hopens.1 hfree
  · exact absurd hopens.2 (Nat.not_le.mpr hroom)
  · obtain ⟨hreturned, hnext⟩ := u.useMemory_small hpos hsize B htake
    rw [hnext] at hhanded
    exact ⟨(hhanded.2 (B, 4096) List.mem_cons_self).2, hreturned⟩

theorem blockFits_of_slotAligned (h : u.Kept) {a : PoolUser.Action} (ha : u.enabled a)
    (haligned : SlotAligned u a) : BlockFits u a := by
  obtain ⟨owner, free, blocks, hkept⟩ := h
  cases a with
  | useMemory size B =>
      intro hpos hsize hopens
      obtain ⟨hB, hreturned⟩ := hkept.newBlock_end hpos hsize hopens ha
      have hdvd := haligned hpos hsize
      rw [hkept.slot_small hpos hsize, hreturned] at hdvd
      rw [hkept.slot_small hpos hsize]
      exact (dvd_firstSlot_iff (index_lt hpos hsize) hB).mp hdvd
  | freeMemory ptr size => trivial
  | write address value => trivial

theorem begins_of_blockFits (h : u.Kept) {a : PoolUser.Action} (ha : u.enabled a)
    (hfits : BlockFits u a) : Begins (fun i q => (i + 1) * 8 ∣ q) u a := by
  obtain ⟨owner, free, blocks, hkept⟩ := h
  cases a with
  | useMemory size B =>
      intro hpos hsize hopens
      have hblock := hfits hpos hsize hopens
      rw [hkept.slot_small hpos hsize] at hblock
      exact (dvd_firstSlot_iff (index_lt hpos hsize)
        (hkept.newBlock_end hpos hsize hopens ha).1).mpr hblock
  | freeMemory ptr size => trivial
  | write address value => trivial

theorem slotAligned_of_regular (h : u.Kept) (hregular : Regular (fun i q => (i + 1) * 8 ∣ q) u)
    {a : PoolUser.Action} (hbegins : Begins (fun i q => (i + 1) * 8 ∣ q) u a) :
    SlotAligned u a := by
  obtain ⟨owner, free, blocks, hkept⟩ := h
  cases a with
  | useMemory size B =>
      intro hpos hsize
      rw [hkept.slot_small hpos hsize]
      exact hregular.returned hkept hpos hsize hbegins
  | freeMemory ptr size => trivial
  | write address value => trivial

/-- The padding is right exactly where the size divides `2 ^ 64`, or the subtraction does not wrap,
or it ends at `2 ^ 64`. In a run all slots are multiples of their size exactly if every new block is
for such a size or begins below it. -/
theorem slotAligned_iff_blockFits {p align : ℕ} (hp : p < 2 ^ 64) (hpos : 0 < align)
    (halign : align < 2 ^ 64) {byte : Bytes} {undefined : ℕ → MemoryPool}
    {as : List PoolUser.Action}
    (hruns : PoolUser.machine.Runs (PoolUser.initial byte undefined) as) :
    (PadsUp p align ↔ align ∣ 2 ^ 64 ∨ p ≤ align ∨ 2 ^ 64 < p + align) ∧
      (PoolUser.machine.Always SlotAligned (PoolUser.initial byte undefined) as ↔
        PoolUser.machine.Always BlockFits (PoolUser.initial byte undefined) as) := by
  refine ⟨padsUp_iff hp hpos halign, ?_, ?_⟩
  · exact PoolUser.machine.always_of_invariant (I := PoolUser.Kept) (fun _ _ h ha _ => h.next ha)
      (fun _ _ h ha hok => blockFits_of_slotAligned h ha hok)
      (PoolUser.kept_initial byte undefined) hruns
  · exact PoolUser.machine.always_of_invariant
      (I := fun u => u.Kept ∧ Regular (fun i q => (i + 1) * 8 ∣ q) u)
      (fun _ _ h ha hok => Regular.next_of_kept (fun i q hq => Nat.dvd_add hq (Nat.dvd_refl _)) h ha
        (begins_of_blockFits h.1 ha hok))
      (fun _ _ h ha hok => slotAligned_of_regular h.1 h.2 (begins_of_blockFits h.1 ha hok))
      ⟨PoolUser.kept_initial byte undefined, regular_initial _ byte undefined⟩ hruns

/-- A block for slots of 32 bytes. -/
theorem slotAligned_block : PadsUp 65544 32 ∧
    PoolUser.machine.Always SlotAligned
      (PoolUser.initial (fun _ => 0) fun _ => ⟨0, 0, 0, 0, 0, 0⟩) [.useMemory 32 65536] := by
  have hruns : PoolUser.machine.Runs
      (PoolUser.initial (fun _ => 0) fun _ => ⟨0, 0, 0, 0, 0, 0⟩) [.useMemory 32 65536] := by decide
  obtain ⟨hpads, haligned⟩ := slotAligned_iff_blockFits (by decide : 65544 < 2 ^ 64)
    (by decide : 0 < 32) (by decide) hruns
  exact ⟨hpads.mpr (.inl (by decide)), haligned.mpr ⟨fun _ _ _ => .inl (by decide), trivial⟩⟩

/-- The address is a multiple of 24, and it gets 16 bytes of padding. -/
theorem not_slotAligned_block : ¬ PadsUp 65544 24 ∧
    PoolUser.machine.Runs
      (PoolUser.initial (fun _ => 0) fun _ => ⟨0, 0, 0, 0, 0, 0⟩) [.useMemory 24 65536] ∧
    ¬ PoolUser.machine.Always SlotAligned
      (PoolUser.initial (fun _ => 0) fun _ => ⟨0, 0, 0, 0, 0, 0⟩) [.useMemory 24 65536] := by
  refine ⟨by decide, by decide, fun h => ?_⟩
  exact absurd (h.1 (by decide) (by decide)) (by decide)

end CkServer
