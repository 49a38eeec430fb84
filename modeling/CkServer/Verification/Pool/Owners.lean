import CkServer.Model.MemoryPool

/-! # The owners of the pools' memory

Every byte that `operator new` has handed out has at most one owner: a pointer in use, a slot of
a free list, the header of a block, or what a pool has not carved up yet. Each function changes
the owner of one stretch of bytes that had one owner before. -/

namespace CkServer

open HashBucket

/-- The bytes that a pointer of that size has. -/
def slotSize (size : ℕ) : ℕ :=
  if size > MAX_SLOT_SIZE then size else (index size + 1) * SLOT_BASE_SIZE

theorem slotSize_of_le {size : ℕ} (h : size ≤ MAX_SLOT_SIZE) :
    slotSize size = (index size + 1) * 8 := if_neg (Nat.not_lt.mpr h)

theorem slotSize_of_gt {size : ℕ} (h : size > MAX_SLOT_SIZE) : slotSize size = size := if_pos h

theorem index_lt {size : ℕ} (hpos : 1 ≤ size) (h : size ≤ MAX_SLOT_SIZE) : index size < 64 := by
  simp only [index, SLOT_BASE_SIZE, MAX_SLOT_SIZE] at h ⊢
  omega

theorem le_slotSize (size : ℕ) : size ≤ slotSize size := by
  by_cases h : size > MAX_SLOT_SIZE
  · exact Nat.le_of_eq (slotSize_of_gt h).symm
  · rw [slotSize_of_le (Nat.not_lt.mp h), index, SLOT_BASE_SIZE]
    omega

inductive Owner where
  | user (ptr : ℕ)
  | free (pool slot : ℕ)
  | header (block : ℕ)
  | rest (pool : ℕ)

abbrev Owners := ℕ → Option Owner

/-- The slot is in one of the blocks, behind its header. -/
def InBlock (blocks : List ℕ) (q size : ℕ) : Prop := ∃ B ∈ blocks, B + 8 ≤ q ∧ q + size ≤ B + 4096

/-- The lists of the pool `i` are `free` and `blocks`. -/
structure PoolLists (m : Memory) (owner : Owners) (p : MemoryPool) (i : ℕ)
    (free blocks : List ℕ) : Prop where
  BlockSize_ : p.BlockSize_ = 4096
  SlotSize_ : p.SlotSize_ = (i + 1) * 8
  freeList_ : m.byte.Linked p.freeList_ free
  firstBlock_ : m.byte.Linked p.firstBlock_ blocks
  header : ∀ B ∈ blocks, (B, 4096) ∈ m.live ∧ Owned owner (.header B) B 8
  slot : ∀ q ∈ free, Owned owner (.free i q) q ((i + 1) * 8) ∧ InBlock blocks q ((i + 1) * 8)
  nodup : free.Nodup

/-- What the pool `i` has left of its first block. -/
def PoolRest (owner : Owners) (p : MemoryPool) (i : ℕ) (blocks : List ℕ) : Prop :=
  p.curSlot_ < p.lastSlot_ → ∃ B ∈ blocks, B + 8 ≤ p.curSlot_ ∧
    p.lastSlot_ + (i + 1) * 8 = B + 4097 ∧ Owned owner (.rest i) p.curSlot_ (B + 4096 - p.curSlot_)

/-- A pointer in use, with its size. -/
structure UserSlot (m : Memory) (owner : Owners) (blocks : ℕ → List ℕ) (e : ℕ × ℕ) : Prop where
  size_pos : 1 ≤ e.2
  owned : Owned owner (.user e.1) e.1 (slotSize e.2)
  large : e.2 > MAX_SLOT_SIZE → e ∈ m.live
  small : e.2 ≤ MAX_SLOT_SIZE → InBlock (blocks (index e.2)) e.1 (slotSize e.2)

structure PoolsKept (u : PoolUser) (owner : Owners) (free blocks : ℕ → List ℕ) : Prop where
  lists : ∀ i < 64, PoolLists u.bucket.memory owner (u.bucket.memoryPool i) i (free i) (blocks i)
  rest : ∀ i < 64, PoolRest owner (u.bucket.memoryPool i) i (blocks i)
  users : ∀ e ∈ u.inUse, UserSlot u.bucket.memory owner blocks e
  nodup : (u.inUse.map Prod.fst).Nodup
  handed : PoolUser.Handed u.bucket.memory
  live_pos : ∀ e ∈ u.bucket.memory.live, 0 < e.2
  covered : ∀ x, owner x ≠ none → ∃ e ∈ u.bucket.memory.live, e.1 ≤ x ∧ x < e.1 + e.2

variable {m m' : Memory} {owner owner' : Owners} {p : MemoryPool} {i : ℕ} {free blocks : List ℕ}
  {o : Option Owner} {u : PoolUser} {frees blockss : ℕ → List ℕ}

theorem UserSlot.slotSize_pos {e : ℕ × ℕ} (h : UserSlot m owner blockss e) : 0 < slotSize e.2 :=
  Nat.lt_of_lt_of_le h.size_pos (le_slotSize e.2)

theorem UserSlot.ne_of_mem {e : ℕ × ℕ} {l : Owner} (h : UserSlot m owner blockss e)
    (hl : owner e.1 = some l) : l = .user e.1 := by
  have hfirst := h.owned.first h.slotSize_pos
  rw [hl, Option.some_inj] at hfirst
  exact hfirst

/-! ## What a change leaves alone

The bytes that had the owner `o` get another one, and only they are written. -/

theorem PoolLists.frame (h : PoolLists m owner p i free blocks)
    (hown : ∀ l b n, o ≠ some l → Owned owner l b n → Owned owner' l b n)
    (hbyte : ∀ x, owner x ≠ o → m'.byte x = m.byte x)
    (hlive : ∀ B, owner B ≠ o → (B, 4096) ∈ m.live → (B, 4096) ∈ m'.live)
    (hheader : ∀ B, o ≠ some (.header B)) (hfree : ∀ q ∈ free, o ≠ some (.free i q)) :
    PoolLists m' owner' p i free blocks where
  BlockSize_ := h.BlockSize_
  SlotSize_ := h.SlotSize_
  freeList_ := h.freeList_.congr fun q hq x hx hlt => hbyte x (by
    rw [(h.slot q hq).1 x hx (by omega)]
    exact (hfree q hq).symm)
  firstBlock_ := h.firstBlock_.congr fun B hB x hx hlt => hbyte x (by
    rw [(h.header B hB).2 x hx hlt]
    exact (hheader B).symm)
  header B hB := by
    obtain ⟨hin, howned⟩ := h.header B hB
    refine ⟨hlive B ?_ hin, hown _ _ _ (hheader B) howned⟩
    rw [howned.first (by omega)]
    exact (hheader B).symm
  slot q hq := ⟨hown _ _ _ (hfree q hq) (h.slot q hq).1, (h.slot q hq).2⟩
  nodup := h.nodup

theorem PoolRest.frame (h : PoolRest owner p i blocks)
    (hown : ∀ l b n, o ≠ some l → Owned owner l b n → Owned owner' l b n)
    (hrest : o ≠ some (.rest i)) : PoolRest owner' p i blocks := by
  intro hlt
  obtain ⟨B, hB, hle, hlast, howned⟩ := h hlt
  exact ⟨B, hB, hle, hlast, hown _ _ _ hrest howned⟩

theorem UserSlot.frame {e : ℕ × ℕ} {blockss' : ℕ → List ℕ} (h : UserSlot m owner blockss e)
    (hown : ∀ l b n, o ≠ some l → Owned owner l b n → Owned owner' l b n)
    (hlive : ∀ e ∈ m.live, owner e.1 ≠ o → e ∈ m'.live) (huser : o ≠ some (.user e.1))
    (hblocks : ∀ j, ∀ B ∈ blockss j, B ∈ blockss' j) : UserSlot m' owner' blockss' e where
  size_pos := h.size_pos
  owned := hown _ _ _ huser h.owned
  large hlarge := hlive e (h.large hlarge) (by
    rw [h.owned.first h.slotSize_pos]
    exact huser.symm)
  small hsmall := by
    obtain ⟨B, hB, hin⟩ := h.small hsmall
    exact ⟨B, hblocks _ B hB, hin⟩

/-- Painting bytes that had one owner. -/
theorem owned_paint_of_ne {a n b k : ℕ} {o' : Option Owner} {l : Owner}
    (hregion : ∀ x, a ≤ x → x < a + n → owner x = o) (hne : o ≠ some l)
    (h : Owned owner l b k) : Owned (paint owner a n o') l b k :=
  h.paint fun x hx hlt => hregion x hx hlt ▸ hne

theorem covered_paint {a n : ℕ} {o' : Option Owner} {x : ℕ}
    (hcovered : ∀ x, owner x ≠ none → ∃ e ∈ m.live, e.1 ≤ x ∧ x < e.1 + e.2)
    (hregion : ∃ e ∈ m.live, e.1 ≤ a ∧ a + n ≤ e.1 + e.2) (hx : paint owner a n o' x ≠ none) :
    ∃ e ∈ m.live, e.1 ≤ x ∧ x < e.1 + e.2 := by
  by_cases hin : a ≤ x ∧ x < a + n
  · obtain ⟨e, he, hle, hend⟩ := hregion
    exact ⟨e, he, by omega, by omega⟩
  · rw [paint_of_notMem hin] at hx
    exact hcovered x hx

/-- Memory that has just been handed out has no owner. -/
theorem PoolsKept.owner_of_fresh {a n : ℕ} (h : PoolsKept u owner frees blockss)
    (hfresh : ∀ e ∈ u.bucket.memory.live, Apart a n e.1 e.2) {x : ℕ} (hx : a ≤ x)
    (hlt : x < a + n) : owner x = none := by
  by_contra hne
  obtain ⟨e, he, hle, hend⟩ := h.covered x hne
  have hapart := hfresh e he
  rw [Apart] at hapart
  omega

end CkServer
