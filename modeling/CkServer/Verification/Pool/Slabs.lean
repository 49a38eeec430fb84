import CkServer.Library.Slab
import CkServer.Verification.Pool.Slots
import Mathlib.Data.List.Perm.Basic

/-! # The pools as slabs

Each call of a program is at most one step of one slab. So the pools never take more memory than
as many slots as the program has had in use at a time need. -/

namespace CkServer

open HashBucket

variable {u u' : PoolUser} {owner : Owners} {free blocks : ℕ → List ℕ} {i j size B ptr : ℕ}
  {p : MemoryPool} {m : Memory} {inUse : List (ℕ × ℕ)} {e : ℕ × ℕ}

/-- The slots from the bump pointer to the end mark. -/
def MemoryPool.room (p : MemoryPool) : ℕ :=
  if p.curSlot_ < p.lastSlot_ then (p.lastSlot_ - p.curSlot_ - 1) / p.SlotSize_ + 1 else 0

/-- A block of the pool `i` has at least so many slots, whatever its address. -/
def slotsOfBlock (i : ℕ) : ℕ :=
  (4096 - sizeofSlot + 1 - (i + 1) * SLOT_BASE_SIZE) / ((i + 1) * SLOT_BASE_SIZE)

theorem slotsOfBlock_pos (hi : i < 64) : 0 < slotsOfBlock i := by
  rw [slotsOfBlock, SLOT_BASE_SIZE, sizeofSlot]
  exact Nat.div_pos (by omega) (by omega)

/-- The slots of the pool `i` among the pointers in use. -/
def usedIn (inUse : List (ℕ × ℕ)) (i : ℕ) : ℕ :=
  inUse.countP fun e => e.2 ≤ MAX_SLOT_SIZE ∧ index e.2 = i

/-- The pointers in use that are too large for a slot. -/
def largeIn (inUse : List (ℕ × ℕ)) : List (ℕ × ℕ) := inUse.filter fun e => MAX_SLOT_SIZE < e.2

namespace PoolUser

noncomputable def blocksOf (u : PoolUser) (i : ℕ) : List ℕ :=
  u.bucket.memory.byte.listAt (u.bucket.memoryPool i).firstBlock_

noncomputable def freeOf (u : PoolUser) (i : ℕ) : List ℕ :=
  u.bucket.memory.byte.listAt (u.bucket.memoryPool i).freeList_

/-- The pool `i`, counted. -/
noncomputable def slab (u : PoolUser) (i : ℕ) : Slab where
  blocks := (u.blocksOf i).length
  room := (u.bucket.memoryPool i).room
  free := (u.freeOf i).length
  used := usedIn u.inUse i

/-- The blocks of the pools, those of the last pool first. -/
noncomputable def blockList (u : PoolUser) : List (ℕ × ℕ) :=
  (List.range MEMORY_POOL_NUM).reverse.flatMap fun i => (u.blocksOf i).map fun B => (B, 4096)

/-- What `operator new` has handed out is a block, or large and in use. -/
def Held (u : PoolUser) : Prop := u.bucket.memory.live.Perm (u.blockList ++ largeIn u.inUse)

end PoolUser

/-- What one call does. -/
structure Moved (u u' : PoolUser) : Prop where
  slab : ∀ i < 64, u'.slab i = u.slab i ∨ Slab.Step (slotsOfBlock i) (u.slab i) (u'.slab i)
  held : u.Held → u'.Held

/-! ## Counting -/

theorem usedIn_cons_self (hsize : size ≤ MAX_SLOT_SIZE) (hindex : index size = i) (q : ℕ)
    (inUse : List (ℕ × ℕ)) : usedIn ((q, size) :: inUse) i = usedIn inUse i + 1 :=
  List.countP_cons_of_pos (by simpa using ⟨hsize, hindex⟩)

theorem usedIn_cons_of_ne (hne : index size ≠ j) (q : ℕ) (inUse : List (ℕ × ℕ)) :
    usedIn ((q, size) :: inUse) j = usedIn inUse j :=
  List.countP_cons_of_neg (by simp [hne])

theorem usedIn_cons_of_gt (hsize : size > MAX_SLOT_SIZE) (q : ℕ) (inUse : List (ℕ × ℕ)) (j : ℕ) :
    usedIn ((q, size) :: inUse) j = usedIn inUse j :=
  List.countP_cons_of_neg (by simp [hsize])

theorem largeIn_cons_of_le (hsize : size ≤ MAX_SLOT_SIZE) (q : ℕ) (inUse : List (ℕ × ℕ)) :
    largeIn ((q, size) :: inUse) = largeIn inUse :=
  List.filter_cons_of_neg (by simpa using hsize)

theorem largeIn_cons_of_gt (hsize : size > MAX_SLOT_SIZE) (q : ℕ) (inUse : List (ℕ × ℕ)) :
    largeIn ((q, size) :: inUse) = (q, size) :: largeIn inUse :=
  List.filter_cons_of_pos (by simpa using hsize)

theorem usedIn_erase (he : e ∈ inUse) (j : ℕ) :
    usedIn (e :: inUse.erase e) j = usedIn inUse j :=
  (List.perm_cons_erase he).symm.countP_eq _

theorem largeIn_erase (he : e ∈ inUse) :
    (largeIn inUse).Perm (largeIn (e :: inUse.erase e)) :=
  (List.perm_cons_erase he).filter _

namespace MemoryPool

theorem room_eq_zero (h : p.lastSlot_ ≤ p.curSlot_) : p.room = 0 :=
  if_neg (Nat.not_lt.mpr h)

theorem room_carve (hpos : 0 < p.SlotSize_) (h : p.curSlot_ < p.lastSlot_) :
    p.room = ({ p with curSlot_ := p.curSlot_ + p.SlotSize_ } : MemoryPool).room + 1 := by
  rw [room, if_pos h, room, Nat.add_right_cancel_iff]
  by_cases hlt : p.curSlot_ + p.SlotSize_ < p.lastSlot_
  · have hsplit : p.lastSlot_ - p.curSlot_ - 1 =
        p.lastSlot_ - (p.curSlot_ + p.SlotSize_) - 1 + p.SlotSize_ := by omega
    rw [if_pos hlt, hsplit, Nat.add_div_right _ hpos]
  · rw [if_neg hlt]
    exact Nat.div_eq_of_lt (by omega)

end MemoryPool

/-! ## What has been handed out -/

theorem nodup_of_handed (h : PoolUser.Handed m) (hpos : ∀ e ∈ m.live, 0 < e.2) :
    (m.live.map Prod.fst).Nodup := by
  refine List.pairwise_map.mpr (h.1.imp_of_mem fun {e f} he hf hapart heq => ?_)
  have hposE := hpos e he
  have hposF := hpos f hf
  rw [Apart, heq] at hapart
  omega

/-- What is deleted is deleted once. -/
theorem live_operatorDelete {rest : List (ℕ × ℕ)} (h : m.live.Perm (e :: rest))
    (hnodup : (m.live.map Prod.fst).Nodup) : (m.operatorDelete e.1).live.Perm rest := by
  obtain ⟨hnew, -⟩ := List.nodup_cons.mp ((h.map Prod.fst).nodup_iff.mp hnodup)
  refine (h.filter _).trans ?_
  rw [List.filter_cons_of_neg (by simp), List.filter_eq_self.mpr]
  intro f hf
  simpa using fun heq : f.1 = e.1 => hnew (heq ▸ List.mem_map_of_mem hf)

/-! ## The lists of the pools -/

theorem PoolsKept.blocksOf_eq (h : PoolsKept u owner free blocks) (hi : i < 64) :
    u.blocksOf i = blocks i := (h.lists i hi).firstBlock_.listAt_eq

theorem PoolsKept.freeOf_eq (h : PoolsKept u owner free blocks) (hi : i < 64) :
    u.freeOf i = free i := (h.lists i hi).freeList_.listAt_eq

theorem slab_set_self (u : PoolUser) (i : ℕ) (p : MemoryPool) (m : Memory)
    (inUse : List (ℕ × ℕ)) :
    (u.set i p m inUse).slab i = ⟨(m.byte.listAt p.firstBlock_).length, p.room,
      (m.byte.listAt p.freeList_).length, usedIn inUse i⟩ := by
  simp [PoolUser.slab, PoolUser.blocksOf, PoolUser.freeOf, PoolUser.set]

theorem slab_set_of_ne (hji : j ≠ i) (hblocks : (u.set i p m inUse).blocksOf j = u.blocksOf j)
    (hfree : (u.set i p m inUse).freeOf j = u.freeOf j)
    (hused : usedIn inUse j = usedIn u.inUse j) : (u.set i p m inUse).slab j = u.slab j := by
  rw [PoolUser.slab, hblocks, hfree, PoolUser.slab]
  simp [PoolUser.set, hji, hused]

theorem held_of_same (hlive : u'.bucket.memory.live = u.bucket.memory.live)
    (hblocks : ∀ j < 64, u'.blocksOf j = u.blocksOf j)
    (hlarge : (largeIn u.inUse).Perm (largeIn u'.inUse)) (h : u.Held) : u'.Held := by
  have hlist : u'.blockList = u.blockList := by
    refine List.flatMap_congr fun j hj => ?_
    rw [hblocks j (List.mem_range.mp (List.mem_reverse.mp hj))]
  rw [PoolUser.Held, hlive, hlist]
  exact h.trans (hlarge.append_left _)

/-- The pool `i` becomes the slab `s`, and the others stay. -/
structure Changed (u u' : PoolUser) (i : ℕ) (s : Slab) : Prop where
  self : u'.slab i = s
  other : ∀ j < 64, j ≠ i → u'.slab j = u.slab j
  held : u.Held → u'.Held

theorem Changed.moved {s : Slab} (h : Changed u u' i s)
    (hstep : Slab.Step (slotsOfBlock i) (u.slab i) s) : Moved u u' where
  slab j hj := by
    by_cases hji : j = i
    · subst hji
      exact .inr (h.self ▸ hstep)
    · exact .inl (h.other j hj hji)
  held := h.held

theorem Changed.trans {v : PoolUser} {s t : Slab} (h : Changed u v i s) (h' : Changed v u' i t) :
    Changed u u' i t where
  self := h'.self
  other j hj hji := (h'.other j hj hji).trans (h.other j hj hji)
  held hheld := h'.held (h.held hheld)

/-- A change of the pool `i` that leaves its blocks alone. -/
theorem changed_set {s : Slab} (hself : (u.set i p m inUse).slab i = s)
    (hlive : m.live = u.bucket.memory.live)
    (hblocks : ∀ j < 64, (u.set i p m inUse).blocksOf j = u.blocksOf j)
    (hfree : ∀ j < 64, j ≠ i → (u.set i p m inUse).freeOf j = u.freeOf j)
    (hused : ∀ j, j ≠ i → usedIn inUse j = usedIn u.inUse j)
    (hlarge : (largeIn u.inUse).Perm (largeIn inUse)) : Changed u (u.set i p m inUse) i s where
  self := hself
  other j hj hji := slab_set_of_ne hji (hblocks j hj) (hfree j hj hji) (hused j hji)
  held := held_of_same hlive hblocks hlarge

theorem blocksOf_set (u : PoolUser) (i j : ℕ) (p : MemoryPool) (inUse : List (ℕ × ℕ))
    (hfirst : p.firstBlock_ = (u.bucket.memoryPool i).firstBlock_) :
    (u.set i p u.bucket.memory inUse).blocksOf j = u.blocksOf j := by
  by_cases hji : j = i
  · subst hji
    simp [PoolUser.blocksOf, PoolUser.set, hfirst]
  · simp [PoolUser.blocksOf, PoolUser.set, hji]

theorem freeOf_set_of_ne (u : PoolUser) (p : MemoryPool) (inUse : List (ℕ × ℕ)) (hji : j ≠ i) :
    (u.set i p u.bucket.memory inUse).freeOf j = u.freeOf j := by
  simp [PoolUser.freeOf, PoolUser.set, hji]

/-! ## Taking and giving back a slot -/

theorem PoolsKept.moved_takeFree (h : PoolsKept u owner free blocks) (hi : i < 64)
    (hsize : size ≤ MAX_SLOT_SIZE) (hindex : index size = i)
    (htake : (u.bucket.memoryPool i).takeFree u.bucket.memory = some (p, ptr)) :
    Moved u (u.set i p u.bucket.memory ((ptr, size) :: u.inUse)) := by
  have hlinked := (h.lists i hi).freeList_
  have hfree := h.freeOf_eq hi
  rw [MemoryPool.takeFree] at htake
  split at htake
  · rename_i hne
    injection htake with htake
    obtain ⟨rfl, rfl⟩ := Prod.mk.inj htake
    cases hqs : free i with
    | nil =>
        rw [hqs] at hlinked
        exact absurd hlinked hne
    | cons q qs =>
        rw [hqs] at hlinked hfree
        obtain ⟨hq, -, htail⟩ := hlinked
        have hrest : u.bucket.memory.byte.listAt
            (u.bucket.memory.load (u.bucket.memoryPool i).freeList_) = qs := by
          rw [hq]
          exact htail.listAt_eq
        have hself := slab_set_self u i { u.bucket.memoryPool i with
          freeList_ := u.bucket.memory.load (u.bucket.memoryPool i).freeList_ } u.bucket.memory
          (((u.bucket.memoryPool i).freeList_, size) :: u.inUse)
        rw [usedIn_cons_self hsize hindex] at hself
        simp only [hrest] at hself
        refine (changed_set hself rfl (fun j _ => blocksOf_set u i j _ _ rfl)
          (fun j _ hji => freeOf_set_of_ne u _ _ hji)
          (fun j hji => usedIn_cons_of_ne (hindex ▸ hji.symm) _ _)
          (by rw [largeIn_cons_of_le hsize])).moved ?_
        exact Slab.Step.reuse (s := u.slab i) (by simp [PoolUser.slab, hfree])
  · cases htake

theorem PoolsKept.room_carve (h : PoolsKept u owner free blocks) (hi : i < 64)
    (hlt : (u.bucket.memoryPool i).curSlot_ < (u.bucket.memoryPool i).lastSlot_) :
    (u.bucket.memoryPool i).room =
      ({ u.bucket.memoryPool i with
          curSlot_ := (u.bucket.memoryPool i).curSlot_ +
            (u.bucket.memoryPool i).SlotSize_ / sizeofSlot *
              sizeofSlot } : MemoryPool).room + 1 := by
  have hsize := (h.lists i hi).SlotSize_
  have hslot : (u.bucket.memoryPool i).SlotSize_ / sizeofSlot * sizeofSlot =
      (u.bucket.memoryPool i).SlotSize_ := by
    rw [hsize, sizeofSlot]
    omega
  rw [hslot]
  exact MemoryPool.room_carve (by omega) hlt

theorem PoolsKept.changed_carve (h : PoolsKept u owner free blocks) (hi : i < 64)
    (hsize : size ≤ MAX_SLOT_SIZE) (hindex : index size = i)
    (hlt : (u.bucket.memoryPool i).curSlot_ < (u.bucket.memoryPool i).lastSlot_) :
    Changed u (u.set i { u.bucket.memoryPool i with
          curSlot_ := (u.bucket.memoryPool i).curSlot_ +
            (u.bucket.memoryPool i).SlotSize_ / sizeofSlot * sizeofSlot }
        u.bucket.memory (((u.bucket.memoryPool i).curSlot_, size) :: u.inUse)) i
      { u.slab i with room := (u.slab i).room - 1, used := (u.slab i).used + 1 } := by
  have hself := slab_set_self u i { u.bucket.memoryPool i with
    curSlot_ := (u.bucket.memoryPool i).curSlot_ +
      (u.bucket.memoryPool i).SlotSize_ / sizeofSlot * sizeofSlot } u.bucket.memory
    (((u.bucket.memoryPool i).curSlot_, size) :: u.inUse)
  rw [usedIn_cons_self hsize hindex] at hself
  refine changed_set (hself.trans ?_) rfl (fun j _ => blocksOf_set u i j _ _ rfl)
    (fun j _ hji => freeOf_set_of_ne u _ _ hji)
    (fun j hji => usedIn_cons_of_ne (hindex ▸ hji.symm) _ _) (by rw [largeIn_cons_of_le hsize])
  simp only [PoolUser.slab, h.room_carve hi hlt, Nat.add_sub_cancel]
  rfl

/-- A new block is in its place among the blocks of the pool `i`. -/
theorem blockList_grow (hi : i < 64) (hself : u'.blocksOf i = B :: u.blocksOf i)
    (hother : ∀ j < 64, j ≠ i → u'.blocksOf j = u.blocksOf j) :
    u'.blockList.Perm ((B, 4096) :: u.blockList) := by
  have hnodup : (List.range MEMORY_POOL_NUM).reverse.Nodup :=
    List.nodup_reverse.mpr List.nodup_range
  have hmem : i ∈ (List.range MEMORY_POOL_NUM).reverse := by simpa [MEMORY_POOL_NUM] using hi
  have hperm := List.perm_cons_erase hmem
  have hsame : ((List.range MEMORY_POOL_NUM).reverse.erase i).flatMap
        (fun j => (u'.blocksOf j).map fun B => (B, 4096)) =
      ((List.range MEMORY_POOL_NUM).reverse.erase i).flatMap
        fun j => (u.blocksOf j).map fun B => (B, 4096) := by
    refine List.flatMap_congr fun j hj => ?_
    obtain ⟨hne, hin⟩ := hnodup.mem_erase_iff.mp hj
    rw [hother j (List.mem_range.mp (List.mem_reverse.mp hin)) hne]
  refine (hperm.flatMap_right _).trans (.trans ?_ ((hperm.flatMap_right _).symm.cons _))
  rw [List.flatMap_cons, List.flatMap_cons, hsame, hself]
  exact .refl _

theorem PoolsKept.changed_newBlock {owner' : Owners} (h : PoolsKept u owner free blocks)
    (hi : i < 64) (hlive : m.live = (B, 4096) :: u.bucket.memory.live)
    (hkept : PoolsKept (u.set i p m u.inUse) owner' free
      (Function.update blocks i (B :: blocks i))) :
    Changed u (u.set i p m u.inUse) i
      { u.slab i with blocks := (u.slab i).blocks + 1, room := p.room } := by
  have hself : (u.set i p m u.inUse).blocksOf i = B :: u.blocksOf i := by
    rw [hkept.blocksOf_eq hi, Function.update_self, h.blocksOf_eq hi]
  have hother : ∀ j < 64, j ≠ i → (u.set i p m u.inUse).blocksOf j = u.blocksOf j := by
    intro j hj hji
    rw [hkept.blocksOf_eq hj, Function.update_of_ne hji, h.blocksOf_eq hj]
  have hfree : ∀ j < 64, (u.set i p m u.inUse).freeOf j = u.freeOf j := fun j hj =>
    (hkept.freeOf_eq hj).trans (h.freeOf_eq hj).symm
  refine ⟨?_, fun j hj hji => slab_set_of_ne hji (hother j hj hji) (hfree j hj) rfl, ?_⟩
  · rw [PoolUser.slab, hself, hfree i hi]
    simp [PoolUser.slab, PoolUser.set]
  · intro hheld
    rw [PoolUser.Held, PoolUser.set, hlive]
    exact (hheld.cons _).trans ((blockList_grow hi hself hother).symm.append_right _)

theorem le_room_newBlock (hi : i < 64) {pad : ℕ} (hpad : pad < (i + 1) * 8)
    (hsize : p.SlotSize_ = (i + 1) * 8) (hcur : p.curSlot_ = B + 8 + pad)
    (hlast : p.lastSlot_ = B + 4096 - (i + 1) * 8 + 1) : slotsOfBlock i ≤ p.room := by
  have hsplit : 4096 - 8 + 1 - (i + 1) * 8 = 4096 - 8 + 1 - 2 * ((i + 1) * 8) + (i + 1) * 8 := by
    omega
  rw [MemoryPool.room, if_pos (by omega), hsize, slotsOfBlock, SLOT_BASE_SIZE, sizeofSlot, hsplit,
    Nat.add_div_right _ (by omega)]
  exact Nat.succ_le_succ (Nat.div_le_div_right (by omega))

theorem PoolsKept.moved_takeFresh (h : PoolsKept u owner free blocks) (hi : i < 64)
    (hsize : size ≤ MAX_SLOT_SIZE) (hindex : index size = i)
    (hfree : (u.bucket.memoryPool i).freeList_ = 0)
    (hhanded : PoolUser.Handed ((u.bucket.memoryPool i).takeFresh u.bucket.memory B).2.1) :
    Moved u (u.set i ((u.bucket.memoryPool i).takeFresh u.bucket.memory B).1
      ((u.bucket.memoryPool i).takeFresh u.bucket.memory B).2.1
      ((((u.bucket.memoryPool i).takeFresh u.bucket.memory B).2.2, size) :: u.inUse)) := by
  have hnil : (u.slab i).free = 0 := by
    rw [PoolUser.slab, h.freeOf_eq hi, h.free_eq_nil hi hfree]
    rfl
  rw [MemoryPool.takeFresh] at hhanded ⊢
  by_cases hfull : (u.bucket.memoryPool i).curSlot_ ≥ (u.bucket.memoryPool i).lastSlot_
  · rw [if_pos hfull] at hhanded ⊢
    obtain ⟨p, m, hblock⟩ : ∃ p m,
        (u.bucket.memoryPool i).allocateNewBlock u.bucket.memory B = (p, m) := ⟨_, _, rfl⟩
    rw [hblock] at hhanded ⊢
    obtain ⟨owner', hkept, -, hlt⟩ := h.newBlock hi hfree (B := B) (by rw [hblock]; exact hhanded)
    rw [hblock] at hkept hlt
    have hpad := padPointer_lt (B + 8) (show 0 < (i + 1) * 8 by omega)
    obtain ⟨hp, hm⟩ := Prod.mk.inj (hblock.symm.trans (allocateNewBlock_eq (h.lists i hi) B))
    have hroom : slotsOfBlock i ≤ p.room := by
      refine le_room_newBlock (B := B) hi hpad ?_ ?_ ?_ <;> rw [hp]
      exact (h.lists i hi).SlotSize_
    have hgrown := h.changed_newBlock hi (by rw [hm]; rfl) hkept
    have hcarved := hkept.changed_carve hi hsize hindex (by simpa [PoolUser.set] using hlt)
    rw [hgrown.self, PoolUser.set_set] at hcarved
    simp only [PoolUser.set, Function.update_self] at hcarved
    refine (hgrown.trans hcarved).moved ?_
    rw [hnil]
    exact .grow hnil (MemoryPool.room_eq_zero hfull) (by omega)
  · rw [if_neg hfull]
    have hlt := Nat.not_le.mp hfull
    refine (h.changed_carve hi hsize hindex hlt).moved (.carve hnil ?_)
    rw [PoolUser.slab, h.room_carve hi hlt]
    rfl

theorem PoolsKept.moved_allocate (h : PoolsKept u owner free blocks) (hi : i < 64)
    (hsize : size ≤ MAX_SLOT_SIZE) (hindex : index size = i)
    (hhanded : PoolUser.Handed ((u.bucket.memoryPool i).allocate u.bucket.memory B).2.1) :
    Moved u (u.set i ((u.bucket.memoryPool i).allocate u.bucket.memory B).1
      ((u.bucket.memoryPool i).allocate u.bucket.memory B).2.1
      ((((u.bucket.memoryPool i).allocate u.bucket.memory B).2.2, size) :: u.inUse)) := by
  rw [MemoryPool.allocate] at hhanded ⊢
  by_cases hfree : (u.bucket.memoryPool i).freeList_ = 0
  · rw [if_neg (not_not.mpr hfree)] at hhanded ⊢
    exact h.moved_takeFresh hi hsize hindex hfree hhanded
  · rw [if_pos hfree, MemoryPool.takeFree, if_pos hfree]
    refine h.moved_takeFree hi hsize hindex ?_
    rw [MemoryPool.takeFree, if_pos hfree]

theorem PoolsKept.moved_deallocate (h : PoolsKept u owner free blocks)
    (he : (ptr, size) ∈ u.inUse) (hsize : size ≤ MAX_SLOT_SIZE) (hne : ptr ≠ 0) :
    Moved u (u.set (index size)
      ((u.bucket.memoryPool (index size)).deallocate u.bucket.memory ptr).1
      ((u.bucket.memoryPool (index size)).deallocate u.bucket.memory ptr).2
      (u.inUse.erase (ptr, size))) := by
  have hslot := h.users _ he
  have hi := index_lt hslot.size_pos hsize
  have hregion := hslot.owned
  rw [slotSize_of_le hsize] at hregion
  have hused := usedIn_erase he
  have hlarge := largeIn_erase he
  rw [largeIn_cons_of_le hsize] at hlarge
  have hself := usedIn_cons_self hsize rfl ptr (u.inUse.erase (ptr, size))
  have hother : ∀ j, j ≠ index size → usedIn (u.inUse.erase (ptr, size)) j = usedIn u.inUse j :=
    fun j hji => (usedIn_cons_of_ne hji.symm ptr _).symm.trans (hused j)
  rw [hused] at hself
  rw [MemoryPool.deallocate, if_pos hne]
  generalize index size = i at *
  let m := u.bucket.memory.store ptr (u.bucket.memoryPool i).freeList_
  have hbyte : ∀ x, owner x ≠ some (.user ptr) → m.byte x = u.bucket.memory.byte x := fun x hx =>
    Bytes.store_of_notMem fun hlt => hx (hregion x hlt.1 (by simp only; omega))
  have hold : ∀ j < 64, PoolLists m owner (u.bucket.memoryPool j) j (free j) (blocks j) :=
    fun j hj => (h.lists j hj).frame (fun _ _ _ _ howned => howned) hbyte (fun _ _ hb => hb)
      (by simp) (by simp)
  have hload : m.byte.load ptr = (u.bucket.memoryPool i).freeList_ :=
    Bytes.load_store _ ptr ((h.lists i hi).freeList_lt h.handed)
  have hlinked : m.byte.Linked ptr (ptr :: free i) :=
    ⟨rfl, hne, hload ▸ (hold i hi).freeList_⟩
  have hblocks : ∀ j < 64, m.byte.listAt (u.bucket.memoryPool j).firstBlock_ = u.blocksOf j :=
    fun j hj => (hold j hj).firstBlock_.listAt_eq.trans (h.blocksOf_eq hj).symm
  have hslab := slab_set_self u i { u.bucket.memoryPool i with freeList_ := ptr } m
    (u.inUse.erase (ptr, size))
  simp only [hblocks i hi, hlinked.listAt_eq, List.length_cons, ← h.freeOf_eq hi] at hslab
  refine (changed_set hslab rfl ?_ ?_ hother hlarge).moved
    (Slab.Step.giveBack (s := u.slab i) hself)
  · intro j hj
    rw [← hblocks j hj]
    by_cases hji : j = i
    · subst hji
      simp [PoolUser.blocksOf, PoolUser.set]
    · simp [PoolUser.blocksOf, PoolUser.set, hji]
  · intro j hj hji
    rw [h.freeOf_eq hj, ← (hold j hj).freeList_.listAt_eq]
    simp [PoolUser.freeOf, PoolUser.set, hji]

theorem moved_newLarge (hsize : size > MAX_SLOT_SIZE) :
    Moved u { bucket := { u.bucket with memory := u.bucket.memory.operatorNew B size }
              inUse := (B, size) :: u.inUse } where
  slab j _ := by
    left
    rw [PoolUser.slab, usedIn_cons_of_gt hsize]
    rfl
  held hheld := by
    rw [PoolUser.Held, largeIn_cons_of_gt hsize]
    exact (hheld.cons _).trans List.perm_middle.symm

theorem PoolsKept.moved_deleteLarge (h : PoolsKept u owner free blocks)
    (he : (ptr, size) ∈ u.inUse) (hsize : size > MAX_SLOT_SIZE) :
    Moved u { bucket := { u.bucket with memory := u.bucket.memory.operatorDelete ptr }
              inUse := u.inUse.erase (ptr, size) } where
  slab j _ := by
    left
    rw [PoolUser.slab, ← usedIn_cons_of_gt hsize ptr, usedIn_erase he]
    rfl
  held hheld := by
    have hlarge := largeIn_erase he
    rw [largeIn_cons_of_gt hsize] at hlarge
    exact live_operatorDelete ((hheld.trans (hlarge.append_left _)).trans List.perm_middle)
      (nodup_of_handed h.handed h.live_pos)

theorem moved_of_same (hslab : ∀ j < 64, u'.slab j = u.slab j) (hheld : u.Held → u'.Held) :
    Moved u u' := ⟨fun j hj => .inl (hslab j hj), hheld⟩

/-- A write into memory in use leaves all lists alone. -/
theorem PoolsKept.moved_write {a : ℕ} {v : UInt8} (h : PoolsKept u owner free blocks)
    (ha : ∃ e ∈ u.inUse, e.1 ≤ a ∧ a < e.1 + e.2) : Moved u (u.next (.write a v)) := by
  have hwritten := h.write (v := v) ha
  have hblocks : ∀ j < 64, (u.next (.write a v)).blocksOf j = u.blocksOf j := fun j hj =>
    (hwritten.blocksOf_eq hj).trans (h.blocksOf_eq hj).symm
  refine moved_of_same (fun j hj => ?_) (held_of_same rfl hblocks (.refl _))
  rw [PoolUser.slab, hblocks j hj, hwritten.freeOf_eq hj, ← h.freeOf_eq hj]
  rfl

/-! ## Runs -/

theorem moved_of_begin (h : Moved { u with bucket := u.begin } u') : Moved u u' :=
  ⟨h.slab, h.held⟩

theorem PoolsKept.moved_useMemory (h : PoolsKept u owner free blocks)
    (hhanded : PoolUser.Handed (u.next (.useMemory size B)).bucket.memory) :
    Moved u (u.next (.useMemory size B)) := by
  have hbegin := h.begin
  by_cases hzero : size = 0
  · have hnext : u.next (.useMemory size B) = { u with bucket := u.begin } := by
      simp [PoolUser.next, HashBucket.useMemory, hzero]
    rw [hnext]
    exact moved_of_same (fun _ _ => rfl) id
  · refine moved_of_begin ?_
    by_cases hsize : size > MAX_SLOT_SIZE
    · have huse : u.begin.useMemory size B =
          ({ u.begin with memory := u.begin.memory.operatorNew B size }, B) := by
        rw [HashBucket.useMemory, if_neg hzero, if_pos hsize]
      simp only [PoolUser.next, huse] at hhanded ⊢
      rw [if_neg (hhanded.2 (B, size) List.mem_cons_self).1]
      exact moved_newLarge hsize
    · have huse : u.begin.useMemory size B =
          ({ memoryPool := Function.update u.begin.memoryPool (index size)
              ((u.begin.memoryPool (index size)).allocate u.begin.memory B).1
             memory := ((u.begin.memoryPool (index size)).allocate u.begin.memory B).2.1 },
            ((u.begin.memoryPool (index size)).allocate u.begin.memory B).2.2) := by
        rw [HashBucket.useMemory, if_neg hzero, if_neg hsize]
      simp only [PoolUser.next, huse] at hhanded ⊢
      have hpos : 1 ≤ size := Nat.pos_of_ne_zero hzero
      have hsmall := Nat.not_lt.mp hsize
      obtain ⟨owner', free', blocks', hkept, -⟩ :=
        hbegin.allocate (index_lt hpos hsmall) hpos hsmall rfl rfl hhanded
      have hne : ((u.begin.memoryPool (index size)).allocate u.begin.memory B).2.2 ≠ 0 := by
        obtain ⟨b, -, hle, -⟩ := (hkept.users _ List.mem_cons_self).small hsmall
        exact Nat.ne_of_gt (Nat.lt_of_lt_of_le (by omega) hle)
      rw [if_neg hne]
      exact hbegin.moved_allocate (index_lt hpos hsmall) hsmall rfl hhanded

theorem PoolsKept.moved_freeMemory (h : PoolsKept u owner free blocks)
    (hptr : ptr = 0 ∨ (ptr, size) ∈ u.inUse) : Moved u (u.next (.freeMemory ptr size)) := by
  have hbegin := h.begin
  refine moved_of_begin ?_
  by_cases hin : (ptr, size) ∈ u.inUse
  · by_cases hsize : size > MAX_SLOT_SIZE
    · have hne := (hbegin.deleteLarge hin hsize rfl).1
      simp only [PoolUser.next, HashBucket.freeMemory, if_neg hne, if_pos hsize]
      exact hbegin.moved_deleteLarge hin hsize
    · have hsmall := Nat.not_lt.mp hsize
      have hne := (hbegin.deallocate hin hsmall rfl).1
      simp only [PoolUser.next, HashBucket.freeMemory, if_neg hne, if_neg hsize]
      exact hbegin.moved_deallocate hin hsmall hne
  · have hzero := hptr.resolve_right hin
    have hnext : u.next (.freeMemory ptr size) = { u with bucket := u.begin } := by
      simp [PoolUser.next, HashBucket.freeMemory, hzero, List.erase_of_not_mem (hzero ▸ hin)]
    rw [hnext]
    exact moved_of_same (fun _ _ => rfl) id

/-- Each call is at most one step of one slab. -/
theorem PoolsKept.moved (h : PoolsKept u owner free blocks) (a : PoolUser.Action)
    (ha : u.enabled a) : Moved u (u.next a) := by
  cases a with
  | useMemory size B => exact h.moved_useMemory ha
  | freeMemory ptr size => exact h.moved_freeMemory ha
  | write a v => exact h.moved_write ha

/-- The lists of the pools with what has been handed out. -/
structure Accounted (u : PoolUser) : Prop where
  lists : ∃ owner free blocks, PoolsKept u owner free blocks
  held : u.Held

theorem blocksOf_initial (byte : Bytes) (undefined : ℕ → MemoryPool) (hi : i < 64) :
    (PoolUser.initial byte undefined).blocksOf i = [] :=
  (poolsKept_initial byte undefined).blocksOf_eq hi

theorem accounted_initial (byte : Bytes) (undefined : ℕ → MemoryPool) :
    Accounted (PoolUser.initial byte undefined) := by
  refine ⟨⟨_, _, _, poolsKept_initial byte undefined⟩, ?_⟩
  have hlist : (PoolUser.initial byte undefined).blockList = [] := by
    refine List.flatMap_eq_nil_iff.mpr fun i hi => ?_
    rw [blocksOf_initial byte undefined (List.mem_range.mp (List.mem_reverse.mp hi)),
      List.map_nil]
  rw [PoolUser.Held, hlist]
  exact .refl _

theorem Accounted.moved (h : Accounted u) {a : PoolUser.Action} (ha : u.enabled a) :
    Moved u (u.next a) := by
  obtain ⟨owner, free, blocks, hkept⟩ := h.lists
  exact hkept.moved a ha

theorem Accounted.next (h : Accounted u) {a : PoolUser.Action} (ha : u.enabled a) :
    Accounted (u.next a) := by
  obtain ⟨owner, free, blocks, hkept⟩ := h.lists
  obtain ⟨owner', free', blocks', hkept', -⟩ := hkept.next a ha
  exact ⟨⟨owner', free', blocks', hkept'⟩, (h.moved ha).held h.held⟩

theorem Accounted.linked (h : Accounted u) (hi : i < 64) :
    u.bucket.memory.byte.Linked (u.bucket.memoryPool i).firstBlock_ (u.blocksOf i) := by
  obtain ⟨owner, free, blocks, hkept⟩ := h.lists
  rw [hkept.blocksOf_eq hi]
  exact (hkept.lists i hi).firstBlock_

theorem slab_initial (byte : Bytes) (undefined : ℕ → MemoryPool) (hi : i < 64) :
    (PoolUser.initial byte undefined).slab i = ⟨0, 0, 0, 0⟩ := by
  have hpool : (PoolUser.initial byte undefined).bucket.memoryPool i =
      (MemoryPool.new (undefined i)).init ((i + 1) * SLOT_BASE_SIZE) := if_pos hi
  rw [PoolUser.slab, blocksOf_initial byte undefined hi,
    (poolsKept_initial byte undefined).freeOf_eq hi, hpool]
  rfl

/-- What the pools have from `operator new`: each has its blocks in its list, and they are no
more than as many slots as `peak` says need. -/
structure Footprint (peak : ℕ → ℕ) (u : PoolUser) : Prop where
  linked : ∀ i < MEMORY_POOL_NUM,
    u.bucket.memory.byte.Linked (u.bucket.memoryPool i).firstBlock_ (u.blocksOf i)
  blocks : ∀ i < MEMORY_POOL_NUM,
    (u.blocksOf i).length ≤ (peak i + slotsOfBlock i - 1) / slotsOfBlock i
  held : u.bucket.memory.live.Perm (u.blockList ++ largeIn u.inUse)

/-- In every run in which no pool ever has more than `peak` slots in use, the memory of a pool is
bounded by that alone, however much has been taken and given back. -/
theorem footprint_of_runs (byte : Bytes) (undefined : ℕ → MemoryPool) (peak : ℕ → ℕ)
    (as : List PoolUser.Action)
    (hruns : PoolUser.machine.Runs (PoolUser.initial byte undefined) as)
    (hpeak : PoolUser.machine.Always
      (fun u a => ∀ i < MEMORY_POOL_NUM, usedIn (u.next a).inUse i ≤ peak i)
      (PoolUser.initial byte undefined) as) :
    Footprint peak (PoolUser.machine.run (PoolUser.initial byte undefined) as) := by
  have hkept := PoolUser.machine.invariant
    (I := fun u => Accounted u ∧ ∀ i < 64, Slab.Kept (slotsOfBlock i) (peak i) (u.slab i))
    ?_ ⟨accounted_initial byte undefined, fun i hi => ?_⟩ hruns hpeak
  · obtain ⟨haccounted, hslabs⟩ := hkept
    exact ⟨fun i hi => haccounted.linked hi,
      fun i hi => (hslabs i hi).blocks_le (slotsOfBlock_pos hi), haccounted.held⟩
  · rintro u a ⟨haccounted, hslabs⟩ ha hpeak
    refine ⟨haccounted.next ha, fun i hi => ?_⟩
    rcases (haccounted.moved ha).slab i hi with hsame | hstep
    · exact (show (u.next a).slab i = u.slab i from hsame) ▸ hslabs i hi
    · exact (hslabs i hi).step hstep (hpeak i hi)
  · rw [slab_initial byte undefined hi]
    exact Slab.kept_empty (peak i) (slotsOfBlock_pos hi)

/-- Slots of 512 bytes are taken and given back again and again, two at a time. -/
theorem footprint_reused : Footprint (fun _ => 2) (PoolUser.machine.run
    (PoolUser.initial (fun _ => 0) fun _ => ⟨0, 0, 0, 0, 0, 0⟩)
    [.useMemory 512 65536, .useMemory 510 0, .freeMemory 66048 512, .useMemory 511 0,
      .useMemory 600 131072]) :=
  footprint_of_runs _ _ _ _ (by decide) (by decide)

end CkServer
