import CkServer.Library.Padding
import CkServer.Verification.Pool.Owners
import Mathlib.Data.List.Nodup
import Mathlib.Data.List.Pairwise

/-! # Slots that do not overlap

In every run of a program on the pools the memory in use is the program's alone. -/

namespace CkServer

open HashBucket

variable {u : PoolUser} {owner : Owners} {free blocks : ℕ → List ℕ} {i size : ℕ} {m : Memory}

/-- The words that a call has stored belong to no pointer in use. -/
def StoredApart (m : Memory) (owner : Owners) : Prop :=
  ∀ w ∈ m.stored, ∃ l, (∀ p, l ≠ .user p) ∧ Owned owner l w 8

/-! ## Taking a slot -/

/-- The program after the pool `i` has changed. -/
def PoolUser.set (u : PoolUser) (i : ℕ) (p : MemoryPool) (m : Memory) (inUse : List (ℕ × ℕ)) :
    PoolUser where
  bucket := { memoryPool := Function.update u.bucket.memoryPool i p, memory := m }
  inUse := inUse

theorem PoolsKept.notMem_inUse {q : ℕ} {l : Owner} (h : PoolsKept u owner free blocks)
    (hl : owner q = some l) (hne : l ≠ .user q) : q ∉ u.inUse.map Prod.fst := by
  intro hin
  obtain ⟨e, he, rfl⟩ := List.mem_map.mp hin
  exact hne ((h.users e he).ne_of_mem hl)

/-- Bytes that belonged to the pool `i` and not to one of its free slots go to a new pointer. -/
theorem PoolsKept.give {q : ℕ} {l : Owner} {p : MemoryPool} (free' : List ℕ)
    (h : PoolsKept u owner free blocks) (hi : i < 64) (hpos : 1 ≤ size)
    (hsize : size ≤ MAX_SLOT_SIZE) (hindex : index size = i)
    (hregion : Owned owner l q ((i + 1) * 8)) (hin : InBlock (blocks i) q ((i + 1) * 8))
    (huser : ∀ a, l ≠ .user a) (hheader : ∀ B, l ≠ .header B)
    (hothers : ∀ j, j ≠ i → (∀ a, l ≠ .free j a) ∧ l ≠ .rest j)
    (hlists : PoolLists u.bucket.memory owner p i free' (blocks i))
    (hfree : ∀ a ∈ free', l ≠ .free i a)
    (hrest : PoolRest (paint owner q ((i + 1) * 8) (some (.user q))) p i (blocks i)) :
    PoolsKept (u.set i p u.bucket.memory ((q, size) :: u.inUse))
      (paint owner q ((i + 1) * 8) (some (.user q))) (Function.update free i free') blocks := by
  have hz : 0 < (i + 1) * 8 := by omega
  have hfirst := hregion.first hz
  have hown : ∀ l' b n, some l ≠ some l' → Owned owner l' b n →
      Owned (paint owner q ((i + 1) * 8) (some (.user q))) l' b n := fun l' b n hne =>
    owned_paint_of_ne hregion hne
  have hslot : slotSize size = (i + 1) * 8 := by rw [slotSize_of_le hsize, hindex]
  refine ⟨?_, ?_, ?_, ?_, h.handed, h.live_pos, ?_⟩
  · intro j hj
    by_cases hji : j = i
    · subst hji
      simp only [PoolUser.set, Function.update_self]
      exact hlists.frame hown (fun _ _ => rfl) (fun _ _ hB => hB) (by simpa using hheader)
        (by simpa using hfree)
    · simp only [PoolUser.set, Function.update_of_ne hji]
      exact (h.lists j hj).frame hown (fun _ _ => rfl) (fun _ _ hB => hB) (by simpa using hheader)
        (fun a _ => by simpa using (hothers j hji).1 a)
  · intro j hj
    by_cases hji : j = i
    · subst hji
      simpa only [PoolUser.set, Function.update_self] using hrest
    · simp only [PoolUser.set, Function.update_of_ne hji]
      exact (h.rest j hj).frame hown (by simpa using (hothers j hji).2)
  · intro e he
    rcases List.mem_cons.mp he with rfl | he
    · refine ⟨hpos, ?_, fun hlarge => absurd hsize (Nat.not_le.mpr hlarge), ?_⟩
      · rw [hslot]
        exact owned_paint _ _ _ _
      · intro _
        rw [hslot, hindex]
        exact hin
    · exact (h.users e he).frame hown (fun _ he _ => he) (by simpa using huser e.1)
        (fun _ _ hB => hB)
  · exact List.nodup_cons.mpr ⟨h.notMem_inUse hfirst (huser q), h.nodup⟩
  · obtain ⟨B, hB, hle, hend⟩ := hin
    intro x hx
    refine covered_paint h.covered ⟨(B, 4096), ((h.lists i hi).header B hB).1, ?_, ?_⟩ hx
    · simp only
      omega
    · simp only
      omega

theorem PoolsKept.takeFree (h : PoolsKept u owner free blocks) (hi : i < 64) (hpos : 1 ≤ size)
    (hsize : size ≤ MAX_SLOT_SIZE) (hindex : index size = i)
    (hne : (u.bucket.memoryPool i).freeList_ ≠ 0) :
    ∃ p owner' free', (u.bucket.memoryPool i).takeFree u.bucket.memory =
        some (p, (u.bucket.memoryPool i).freeList_) ∧
      PoolsKept (u.set i p u.bucket.memory (((u.bucket.memoryPool i).freeList_, size) :: u.inUse))
        owner' free' blocks := by
  have hpool := h.lists i hi
  have hlinked := hpool.freeList_
  cases hfree : free i with
  | nil =>
      rw [hfree] at hlinked
      exact absurd hlinked hne
  | cons q qs =>
      rw [hfree] at hlinked hpool
      obtain ⟨hq, -, htail⟩ := hlinked
      obtain ⟨howned, hin⟩ := hpool.slot q (by simp)
      obtain ⟨hnew, hnodup⟩ := List.nodup_cons.mp hpool.nodup
      have htake : (u.bucket.memoryPool i).takeFree u.bucket.memory =
          some ({ u.bucket.memoryPool i with freeList_ := u.bucket.memory.load q }, q) := by
        rw [MemoryPool.takeFree, if_pos hne, hq]
      rw [hq] at *
      refine ⟨_, _, _, htake, h.give qs hi hpos hsize hindex howned hin ?_ ?_ ?_ ?_ ?_ ?_⟩
      · simp
      · simp
      · intro j hj
        simpa using hj.symm
      · exact ⟨hpool.BlockSize_, hpool.SlotSize_, htail, hpool.firstBlock_, hpool.header,
          fun a ha => hpool.slot a (by simp [ha]), hnodup⟩
      · intro a ha heq
        injection heq with _ heq
        exact hnew (heq ▸ ha)
      · have hrest : PoolRest (paint owner q ((i + 1) * 8) (some (.user q)))
            (u.bucket.memoryPool i) i (blocks i) :=
          PoolRest.frame (o := some (.free i q)) (h.rest i hi)
            (fun l b n hne => owned_paint_of_ne howned hne) (by simp)
        exact fun hlt => hrest hlt

theorem PoolsKept.carve (h : PoolsKept u owner free blocks) (hi : i < 64) (hpos : 1 ≤ size)
    (hsize : size ≤ MAX_SLOT_SIZE) (hindex : index size = i)
    (hlt : (u.bucket.memoryPool i).curSlot_ < (u.bucket.memoryPool i).lastSlot_) :
    PoolsKept
      (u.set i { u.bucket.memoryPool i with
          curSlot_ := (u.bucket.memoryPool i).curSlot_ +
            (u.bucket.memoryPool i).SlotSize_ / sizeofSlot * sizeofSlot }
        u.bucket.memory (((u.bucket.memoryPool i).curSlot_, size) :: u.inUse))
      (paint owner (u.bucket.memoryPool i).curSlot_ ((i + 1) * 8)
        (some (.user (u.bucket.memoryPool i).curSlot_)))
      (Function.update free i (free i)) blocks := by
  have hpool := h.lists i hi
  obtain ⟨B, hB, hle, hlast, howned⟩ := h.rest i hi hlt
  have hslot : (u.bucket.memoryPool i).SlotSize_ / sizeofSlot * sizeofSlot = (i + 1) * 8 := by
    rw [hpool.SlotSize_, sizeofSlot]
    omega
  rw [hslot]
  refine h.give (free i) hi hpos hsize hindex (howned.sub (Nat.le_refl _) (by omega))
    ⟨B, hB, hle, by omega⟩ ?_ ?_ ?_ ?_ ?_ ?_
  · simp
  · simp
  · intro j hj
    simpa using hj.symm
  · exact ⟨hpool.BlockSize_, hpool.SlotSize_, hpool.freeList_, hpool.firstBlock_, hpool.header,
      hpool.slot, hpool.nodup⟩
  · simp
  · -- what is left begins behind the slot
    intro _
    refine ⟨B, hB, by simp only; omega, hlast, ?_⟩
    intro x hx hlt'
    simp only at hx hlt'
    rw [paint_of_notMem (by omega)]
    exact howned x (by omega) (by omega)

/-! ## A new block -/

theorem padPointer_lt (a : ℕ) {align : ℕ} (h : 0 < align) : MemoryPool.padPointer a align < align :=
  Padding.pad_lt _ a h

theorem PoolLists.firstBlock_lt {owner : Owners} {p : MemoryPool} {free blocks : List ℕ}
    (h : PoolLists m owner p i free blocks) (hhanded : PoolUser.Handed m) :
    p.firstBlock_ < 2 ^ 64 := by
  have hlinked := h.firstBlock_
  cases blocks with
  | nil =>
      have hnull : p.firstBlock_ = 0 := hlinked
      omega
  | cons B rest =>
      have hend := (hhanded.2 _ (h.header B (by simp)).1).2
      simp only at hend
      rw [hlinked.1]
      omega

/-- The header of the block `B` and what comes from `cur` on get owners. -/
def withBlock (owner : Owners) (B cur i : ℕ) : Owners :=
  paint (paint owner B 8 (some (.header B))) cur (B + 4096 - cur) (some (.rest i))

section WithBlock

variable {B cur b n : ℕ} {l : Owner}

theorem header_withBlock (owner : Owners) (i : ℕ) (hcur : B + 8 ≤ cur) :
    Owned (withBlock owner B cur i) (.header B) B 8 := by
  intro x hx hlt
  rw [withBlock, paint_of_notMem (by omega)]
  exact owned_paint owner (.header B) B 8 x hx hlt

theorem withBlock_of_some {x : ℕ} (hnone : ∀ x, B ≤ x → x < B + 4096 → owner x = none)
    (hcur : B + 8 ≤ cur) (hx : owner x ≠ none) : withBlock owner B cur i x = owner x := by
  have hout : ¬ (B ≤ x ∧ x < B + 4096) := fun hin => hx (hnone x hin.1 hin.2)
  rw [withBlock, paint_of_notMem (by omega), paint_of_notMem (by omega)]

theorem owned_withBlock (hnone : ∀ x, B ≤ x → x < B + 4096 → owner x = none)
    (hcur : B + 8 ≤ cur) (h : Owned owner l b n) : Owned (withBlock owner B cur i) l b n := by
  intro x hx hlt
  rw [withBlock_of_some hnone hcur (by simp [h x hx hlt])]
  exact h x hx hlt

end WithBlock

theorem PoolsKept.free_eq_nil (h : PoolsKept u owner free blocks) (hi : i < 64)
    (hfree : (u.bucket.memoryPool i).freeList_ = 0) : free i = [] := by
  have hlinked := (h.lists i hi).freeList_
  cases hf : free i with
  | nil => rfl
  | cons q qs =>
      rw [hf] at hlinked
      exact absurd (hlinked.1.symm.trans hfree) hlinked.2.1

/-- The block at `B` has been handed out, and its first word has been stored. -/
structure BlockStored (m m' : Memory) (B firstBlock_ : ℕ) : Prop where
  live : m'.live = (B, 4096) :: m.live
  load : m'.byte.load B = firstBlock_
  byte : ∀ x, ¬ (B ≤ x ∧ x < B + 8) → m'.byte x = m.byte x

theorem PoolLists.newBlock {p : MemoryPool} {f bs : List ℕ} {m' : Memory} {B cur : ℕ}
    (h : PoolLists m owner p i f bs) (hnil : f = []) (hm : BlockStored m m' B p.firstBlock_)
    (hB : B ≠ 0) (hnone : ∀ x, B ≤ x → x < B + 4096 → owner x = none) (hcur : B + 8 ≤ cur) :
    PoolLists m' (withBlock owner B cur i)
      { p with firstBlock_ := B, curSlot_ := cur, lastSlot_ := B + 4096 - (i + 1) * 8 + 1,
               freeList_ := 0 } i f (B :: bs) := by
  subst hnil
  have hold : PoolLists m' (withBlock owner B cur i) p i [] bs :=
    h.frame (o := none) (fun l b n _ => owned_withBlock hnone hcur)
      (fun x hx => hm.byte x fun hin => hx (hnone x hin.1 (by omega)))
      (fun b _ hb => hm.live ▸ List.mem_cons_of_mem _ hb) (by simp) (by simp)
  refine ⟨hold.BlockSize_, hold.SlotSize_, rfl, ⟨rfl, hB, ?_⟩, ?_, ?_, hold.nodup⟩
  · rw [hm.load]
    exact hold.firstBlock_
  · intro b hb
    rcases List.mem_cons.mp hb with rfl | hb
    · exact ⟨by simp [hm.live], header_withBlock owner i hcur⟩
    · exact hold.header b hb
  · intro q hq
    exact absurd hq List.not_mem_nil

theorem PoolsKept.withBlock {m' : Memory} {B cur : ℕ} (h : PoolsKept u owner free blocks)
    (hi : i < 64) (hfree : (u.bucket.memoryPool i).freeList_ = 0)
    (hm : BlockStored u.bucket.memory m' B (u.bucket.memoryPool i).firstBlock_)
    (hhanded : PoolUser.Handed m') (hcur : B + 8 ≤ cur) (hend : cur ≤ B + 4096) :
    PoolsKept
      (u.set i { u.bucket.memoryPool i with
          firstBlock_ := B, curSlot_ := cur, lastSlot_ := B + 4096 - (i + 1) * 8 + 1,
          freeList_ := 0 } m' u.inUse)
      (CkServer.withBlock owner B cur i) free (Function.update blocks i (B :: blocks i)) := by
  have hmem : (B, 4096) ∈ m'.live := by simp [hm.live]
  have hapart : ∀ e ∈ u.bucket.memory.live, Apart B 4096 e.1 e.2 :=
    (List.pairwise_cons.mp (hm.live ▸ hhanded.1)).1
  have hnone : ∀ x, B ≤ x → x < B + 4096 → owner x = none := fun x => h.owner_of_fresh hapart
  have hlive : ∀ e ∈ u.bucket.memory.live, e ∈ m'.live := fun e he =>
    hm.live ▸ List.mem_cons_of_mem _ he
  have hown : ∀ l b n, (none : Option Owner) ≠ some l → Owned owner l b n →
      Owned (CkServer.withBlock owner B cur i) l b n := fun l b n _ => owned_withBlock hnone hcur
  have hbyte : ∀ x, owner x ≠ none → m'.byte x = u.bucket.memory.byte x := fun x hx =>
    hm.byte x fun hin => hx (hnone x hin.1 (by omega))
  refine ⟨?_, ?_, ?_, h.nodup, hhanded, ?_, ?_⟩
  · intro j hj
    by_cases hji : j = i
    · subst hji
      simp only [PoolUser.set, Function.update_self]
      exact (h.lists j hj).newBlock (h.free_eq_nil hj hfree) hm (hhanded.2 _ hmem).1 hnone hcur
    · simp only [PoolUser.set, Function.update_of_ne hji]
      exact (h.lists j hj).frame hown hbyte (fun b _ hb => hlive _ hb) (by simp) (by simp)
  · intro j hj
    by_cases hji : j = i
    · subst hji
      simp only [PoolUser.set, Function.update_self]
      intro _
      exact ⟨B, by simp, hcur, by simp only; omega, owned_paint _ _ _ _⟩
    · simp only [PoolUser.set, Function.update_of_ne hji]
      exact (h.rest j hj).frame hown (by simp)
  · intro e he
    refine (h.users e he).frame hown (fun e he _ => hlive e he) (by simp) ?_
    intro j b hb
    by_cases hji : j = i
    · subst hji
      rw [Function.update_self]
      exact List.mem_cons_of_mem _ hb
    · rwa [Function.update_of_ne hji]
  · intro e he
    simp only [PoolUser.set, hm.live] at he
    rcases List.mem_cons.mp he with rfl | he
    · exact Nat.succ_pos _
    · exact h.live_pos e he
  · intro x hx
    by_cases hin : B ≤ x ∧ x < B + 4096
    · exact ⟨_, hmem, hin⟩
    · have hsame : CkServer.withBlock owner B cur i x = owner x := by
        rw [CkServer.withBlock, paint_of_notMem (by omega), paint_of_notMem (by omega)]
      rw [hsame] at hx
      obtain ⟨e, he, hle⟩ := h.covered x hx
      exact ⟨e, hlive e he, hle⟩

theorem allocateNewBlock_eq {p : MemoryPool} {f bs : List ℕ} (h : PoolLists m owner p i f bs)
    (B : ℕ) :
    p.allocateNewBlock m B =
      ({ p with
          firstBlock_ := B
          curSlot_ := B + 8 + MemoryPool.padPointer (B + 8) ((i + 1) * 8)
          lastSlot_ := B + 4096 - (i + 1) * 8 + 1
          freeList_ := 0 },
        (m.operatorNew B 4096).store B p.firstBlock_) := by
  rw [MemoryPool.allocateNewBlock, h.BlockSize_, h.SlotSize_]
  rfl

/-- The bump pointer is below the end mark once there is a new block. -/
theorem PoolsKept.newBlock {B : ℕ} (h : PoolsKept u owner free blocks) (hi : i < 64)
    (hfree : (u.bucket.memoryPool i).freeList_ = 0)
    (hhanded : PoolUser.Handed
      ((u.bucket.memoryPool i).allocateNewBlock u.bucket.memory B).2) :
    ∃ owner', PoolsKept
        (u.set i ((u.bucket.memoryPool i).allocateNewBlock u.bucket.memory B).1
          ((u.bucket.memoryPool i).allocateNewBlock u.bucket.memory B).2 u.inUse)
        owner' free (Function.update blocks i (B :: blocks i)) ∧
      Owned owner' (.header B) B 8 ∧
      ((u.bucket.memoryPool i).allocateNewBlock u.bucket.memory B).1.curSlot_ <
        ((u.bucket.memoryPool i).allocateNewBlock u.bucket.memory B).1.lastSlot_ := by
  have hpool := h.lists i hi
  have hpad := padPointer_lt (B + 8) (show 0 < (i + 1) * 8 by omega)
  rw [allocateNewBlock_eq hpool] at hhanded ⊢
  have hm : BlockStored u.bucket.memory
      ((u.bucket.memory.operatorNew B 4096).store B (u.bucket.memoryPool i).firstBlock_) B
      (u.bucket.memoryPool i).firstBlock_ :=
    ⟨rfl, Bytes.load_store _ B (hpool.firstBlock_lt h.handed), fun x => Bytes.store_of_notMem⟩
  refine ⟨_, h.withBlock hi hfree hm hhanded (by omega) (by omega),
    header_withBlock owner i (by omega), ?_⟩
  simp only
  omega

/-! ## The operations -/

theorem PoolUser.set_set (u : PoolUser) (i : ℕ) (p p' : MemoryPool) (m m' : Memory)
    (inUse inUse' : List (ℕ × ℕ)) :
    (u.set i p m inUse).set i p' m' inUse' = u.set i p' m' inUse' := by
  simp [PoolUser.set]

theorem PoolsKept.takeFresh {B : ℕ} (h : PoolsKept u owner free blocks) (hi : i < 64)
    (hpos : 1 ≤ size) (hsize : size ≤ MAX_SLOT_SIZE) (hindex : index size = i)
    (hfree : (u.bucket.memoryPool i).freeList_ = 0) (hstored : u.bucket.memory.stored = [])
    (hhanded : PoolUser.Handed ((u.bucket.memoryPool i).takeFresh u.bucket.memory B).2.1) :
    ∃ owner' free' blocks', PoolsKept
        (u.set i ((u.bucket.memoryPool i).takeFresh u.bucket.memory B).1
          ((u.bucket.memoryPool i).takeFresh u.bucket.memory B).2.1
          ((((u.bucket.memoryPool i).takeFresh u.bucket.memory B).2.2, size) :: u.inUse))
        owner' free' blocks' ∧
      StoredApart ((u.bucket.memoryPool i).takeFresh u.bucket.memory B).2.1 owner' := by
  by_cases hfull : (u.bucket.memoryPool i).curSlot_ ≥ (u.bucket.memoryPool i).lastSlot_
  · have htake : (u.bucket.memoryPool i).takeFresh u.bucket.memory B =
        ({ ((u.bucket.memoryPool i).allocateNewBlock u.bucket.memory B).1 with
            curSlot_ := ((u.bucket.memoryPool i).allocateNewBlock u.bucket.memory B).1.curSlot_ +
              ((u.bucket.memoryPool i).allocateNewBlock u.bucket.memory B).1.SlotSize_ /
                sizeofSlot * sizeofSlot },
          ((u.bucket.memoryPool i).allocateNewBlock u.bucket.memory B).2,
          ((u.bucket.memoryPool i).allocateNewBlock u.bucket.memory B).1.curSlot_) := by
      rw [MemoryPool.takeFresh, if_pos hfull]
    rw [htake] at hhanded ⊢
    obtain ⟨owner', hblock, -, hlt⟩ := h.newBlock hi hfree hhanded
    have hcarved := hblock.carve hi hpos hsize hindex
      (by simp only [PoolUser.set, Function.update_self]; exact hlt)
    rw [PoolUser.set_set] at hcarved
    simp only [PoolUser.set, Function.update_self] at hcarved
    refine ⟨_, _, _, hcarved, ?_⟩
    intro w hw
    have hheader := ((hcarved.lists i hi).header B (by simp)).2
    have hwB : w = B := by
      rw [allocateNewBlock_eq (h.lists i hi)] at hw
      simpa [Memory.store, Memory.operatorNew, hstored] using hw
    subst hwB
    exact ⟨_, fun p hp => by simp at hp, hheader⟩
  · have htake : (u.bucket.memoryPool i).takeFresh u.bucket.memory B =
        ({ u.bucket.memoryPool i with
            curSlot_ := (u.bucket.memoryPool i).curSlot_ +
              (u.bucket.memoryPool i).SlotSize_ / sizeofSlot * sizeofSlot },
          u.bucket.memory, (u.bucket.memoryPool i).curSlot_) := by
      rw [MemoryPool.takeFresh, if_neg hfull]
    rw [htake]
    refine ⟨_, _, _, h.carve hi hpos hsize hindex (by omega), ?_⟩
    intro w hw
    simp only [hstored] at hw
    exact absurd hw List.not_mem_nil

theorem PoolsKept.allocate {B : ℕ} (h : PoolsKept u owner free blocks) (hi : i < 64)
    (hpos : 1 ≤ size) (hsize : size ≤ MAX_SLOT_SIZE) (hindex : index size = i)
    (hstored : u.bucket.memory.stored = [])
    (hhanded : PoolUser.Handed ((u.bucket.memoryPool i).allocate u.bucket.memory B).2.1) :
    ∃ owner' free' blocks', PoolsKept
        (u.set i ((u.bucket.memoryPool i).allocate u.bucket.memory B).1
          ((u.bucket.memoryPool i).allocate u.bucket.memory B).2.1
          ((((u.bucket.memoryPool i).allocate u.bucket.memory B).2.2, size) :: u.inUse))
        owner' free' blocks' ∧
      StoredApart ((u.bucket.memoryPool i).allocate u.bucket.memory B).2.1 owner' := by
  by_cases hfree : (u.bucket.memoryPool i).freeList_ = 0
  · have hallocate : (u.bucket.memoryPool i).allocate u.bucket.memory B =
        (u.bucket.memoryPool i).takeFresh u.bucket.memory B := by
      simp [MemoryPool.allocate, hfree]
    rw [hallocate] at hhanded ⊢
    exact h.takeFresh hi hpos hsize hindex hfree hstored hhanded
  · obtain ⟨p, owner', free', htake, hkept⟩ := h.takeFree hi hpos hsize hindex hfree
    have hallocate : (u.bucket.memoryPool i).allocate u.bucket.memory B =
        (p, u.bucket.memory, (u.bucket.memoryPool i).freeList_) := by
      simp only [MemoryPool.allocate, ne_eq, hfree, not_false_eq_true, if_true, htake]
    rw [hallocate]
    refine ⟨owner', free', blocks, hkept, ?_⟩
    intro w hw
    simp only [hstored] at hw
    exact absurd hw List.not_mem_nil

theorem PoolLists.freeList_lt {p : MemoryPool} {f bs : List ℕ} (h : PoolLists m owner p i f bs)
    (hhanded : PoolUser.Handed m) : p.freeList_ < 2 ^ 64 := by
  have hlinked := h.freeList_
  cases f with
  | nil =>
      have hnull : p.freeList_ = 0 := hlinked
      omega
  | cons q rest =>
      obtain ⟨B, hB, hle, hend⟩ := (h.slot q (by simp)).2
      have hlast := (hhanded.2 _ (h.header B hB).1).2
      simp only at hlast
      rw [hlinked.1]
      omega

/-- The other pointers in use are others. -/
theorem PoolsKept.mem_erase {e e' : ℕ × ℕ} (h : PoolsKept u owner free blocks) (he : e ∈ u.inUse)
    (he' : e' ∈ u.inUse.erase e) : e' ∈ u.inUse ∧ e'.1 ≠ e.1 := by
  obtain ⟨hne, hmem⟩ := (List.Nodup.of_map _ h.nodup).mem_erase_iff.mp he'
  exact ⟨hmem, fun heq => hne (List.inj_on_of_nodup_map h.nodup hmem he heq)⟩

theorem PoolsKept.deallocate {ptr : ℕ} (h : PoolsKept u owner free blocks)
    (he : (ptr, size) ∈ u.inUse) (hsize : size ≤ MAX_SLOT_SIZE)
    (hstored : u.bucket.memory.stored = []) :
    ptr ≠ 0 ∧ ∃ owner' free' blocks', PoolsKept
        (u.set (index size)
          ((u.bucket.memoryPool (index size)).deallocate u.bucket.memory ptr).1
          ((u.bucket.memoryPool (index size)).deallocate u.bucket.memory ptr).2
          (u.inUse.erase (ptr, size)))
        owner' free' blocks' ∧
      StoredApart ((u.bucket.memoryPool (index size)).deallocate u.bucket.memory ptr).2 owner' := by
  have hslot := h.users _ he
  have hi := index_lt hslot.size_pos hsize
  have hin := hslot.small hsize
  have hregion := hslot.owned
  rw [slotSize_of_le hsize] at hin hregion
  simp only at hin hregion hi
  generalize index size = i at *
  have hne : ptr ≠ 0 := by
    obtain ⟨B, -, hle, -⟩ := hin
    omega
  have hpool := h.lists i hi
  let m' := u.bucket.memory.store ptr (u.bucket.memoryPool i).freeList_
  let owner' := paint owner ptr ((i + 1) * 8) (some (.free i ptr))
  have hdeallocate : (u.bucket.memoryPool i).deallocate u.bucket.memory ptr =
      ({ u.bucket.memoryPool i with freeList_ := ptr }, m') := by
    rw [MemoryPool.deallocate, if_pos hne]
  have hown : ∀ l b n, some (Owner.user ptr) ≠ some l → Owned owner l b n → Owned owner' l b n :=
    fun l b n hne => owned_paint_of_ne hregion hne
  have hbyte : ∀ x, owner x ≠ some (.user ptr) → m'.byte x = u.bucket.memory.byte x := fun x hx =>
    Bytes.store_of_notMem fun hlt => hx (hregion x hlt.1 (by omega))
  have hnew : Owned owner' (.free i ptr) ptr ((i + 1) * 8) := owned_paint _ _ _ _
  rw [hdeallocate]
  refine ⟨hne, owner', Function.update free i (ptr :: free i), blocks, ⟨?_, ?_, ?_, ?_, h.handed,
    h.live_pos, ?_⟩, ?_⟩
  · intro j hj
    by_cases hji : j = i
    · subst hji
      simp only [PoolUser.set, Function.update_self]
      have hold := hpool.frame hown hbyte (fun _ _ hb => hb) (by simp) (by simp)
      refine ⟨hold.BlockSize_, hold.SlotSize_, ⟨rfl, hne, ?_⟩, hold.firstBlock_, hold.header, ?_,
        ?_⟩
      · have hload : m'.byte.load ptr = (u.bucket.memoryPool j).freeList_ :=
          Bytes.load_store _ ptr (hpool.freeList_lt h.handed)
        rw [hload]
        exact hold.freeList_
      · intro q hq
        rcases List.mem_cons.mp hq with rfl | hq
        · exact ⟨hnew, hin⟩
        · exact hold.slot q hq
      · refine List.nodup_cons.mpr ⟨fun hmem => ?_, hold.nodup⟩
        have hfirst := (hpool.slot ptr hmem).1.first (by omega)
        rw [hregion.first (by omega)] at hfirst
        simp at hfirst
    · simp only [PoolUser.set, Function.update_of_ne hji]
      exact (h.lists j hj).frame hown hbyte (fun _ _ hb => hb) (by simp) (by simp)
  · intro j hj
    have hrest := (h.rest j hj).frame hown (by simp)
    by_cases hji : j = i
    · subst hji
      simp only [PoolUser.set, Function.update_self]
      exact hrest
    · simp only [PoolUser.set, Function.update_of_ne hji]
      exact hrest
  · intro e' he'
    obtain ⟨hmem, hother⟩ := h.mem_erase he he'
    exact (h.users e' hmem).frame hown (fun _ he _ => he) (by simpa using hother.symm)
      (fun _ _ hB => hB)
  · exact (List.erase_sublist.map Prod.fst).nodup h.nodup
  · obtain ⟨B, hB, hle, hend⟩ := hin
    intro x hx
    refine covered_paint h.covered ⟨(B, 4096), (hpool.header B hB).1, ?_, ?_⟩ hx
    · simp only
      omega
    · simp only
      omega
  · intro w hw
    have hwp : w = ptr := by simpa [m', Memory.store, hstored] using hw
    subst hwp
    exact ⟨_, fun p hp => by simp at hp, hnew.sub (Nat.le_refl _) (by omega)⟩

theorem PoolsKept.newLarge {B : ℕ} (h : PoolsKept u owner free blocks)
    (hsize : size > MAX_SLOT_SIZE) (hstored : u.bucket.memory.stored = [])
    (hhanded : PoolUser.Handed (u.bucket.memory.operatorNew B size)) :
    ∃ owner', PoolsKept
        { bucket := { u.bucket with memory := u.bucket.memory.operatorNew B size }
          inUse := (B, size) :: u.inUse } owner' free blocks ∧
      StoredApart (u.bucket.memory.operatorNew B size) owner' := by
  have hapart : ∀ e ∈ u.bucket.memory.live, Apart B size e.1 e.2 :=
    (List.pairwise_cons.mp hhanded.1).1
  have hnone : ∀ x, B ≤ x → x < B + size → owner x = none := fun x => h.owner_of_fresh hapart
  have hsize' : size > 512 := hsize
  have hown : ∀ l b n, (none : Option Owner) ≠ some l → Owned owner l b n →
      Owned (paint owner B size (some (.user B))) l b n := fun l b n hne =>
    owned_paint_of_ne hnone hne
  have hlive : ∀ e ∈ u.bucket.memory.live, e ∈ (u.bucket.memory.operatorNew B size).live :=
    fun e he => List.mem_cons_of_mem _ he
  refine ⟨paint owner B size (some (.user B)), ⟨?_, ?_, ?_, ?_, hhanded, ?_, ?_⟩, ?_⟩
  · intro j hj
    exact (h.lists j hj).frame hown (fun _ _ => rfl) (fun b _ hb => hlive _ hb) (by simp) (by simp)
  · intro j hj
    exact (h.rest j hj).frame hown (by simp)
  · intro e he
    rcases List.mem_cons.mp he with rfl | he
    · refine ⟨by simp only; omega, ?_, fun _ => List.mem_cons_self,
        fun hsmall => absurd hsize (Nat.not_lt.mpr hsmall)⟩
      rw [slotSize_of_gt hsize]
      exact owned_paint _ _ _ _
    · exact (h.users e he).frame hown (fun e he _ => hlive e he) (by simp) (fun _ _ hB => hB)
  · refine List.nodup_cons.mpr ⟨fun hin => ?_, h.nodup⟩
    obtain ⟨e, he, heq⟩ := List.mem_map.mp hin
    have hfirst := (h.users e he).owned.first (h.users e he).slotSize_pos
    simp only at heq
    rw [heq, hnone B (Nat.le_refl B) (by omega)] at hfirst
    simp at hfirst
  · intro e he
    rcases List.mem_cons.mp he with rfl | he
    · simp only
      omega
    · exact h.live_pos e he
  · intro x hx
    refine covered_paint (m := u.bucket.memory.operatorNew B size) ?_
      ⟨(B, size), List.mem_cons_self, Nat.le_refl _, Nat.le_refl _⟩ hx
    intro x hx
    obtain ⟨e, he, hle⟩ := h.covered x hx
    exact ⟨e, hlive e he, hle⟩
  · intro w hw
    have hnil : w ∈ ([] : List ℕ) := hstored ▸ hw
    exact absurd hnil List.not_mem_nil

theorem PoolsKept.deleteLarge {ptr : ℕ} (h : PoolsKept u owner free blocks)
    (he : (ptr, size) ∈ u.inUse) (hsize : size > MAX_SLOT_SIZE)
    (hstored : u.bucket.memory.stored = []) :
    ptr ≠ 0 ∧ ∃ owner', PoolsKept
        { bucket := { u.bucket with memory := u.bucket.memory.operatorDelete ptr }
          inUse := u.inUse.erase (ptr, size) } owner' free blocks ∧
      StoredApart (u.bucket.memory.operatorDelete ptr) owner' := by
  have hslot := h.users _ he
  have hin := hslot.large hsize
  have hregion := hslot.owned
  rw [slotSize_of_gt hsize] at hregion
  have hfirst := hregion.first hslot.size_pos
  simp only at hregion hfirst
  have hown : ∀ l b n, some (Owner.user ptr) ≠ some l → Owned owner l b n →
      Owned (paint owner ptr size none) l b n := fun l b n hne => owned_paint_of_ne hregion hne
  have hlive : ∀ e ∈ u.bucket.memory.live, e.1 ≠ ptr →
      e ∈ (u.bucket.memory.operatorDelete ptr).live := fun e he hne =>
    List.mem_filter.mpr ⟨he, by simpa using hne⟩
  have hsub : (u.bucket.memory.operatorDelete ptr).live.Sublist u.bucket.memory.live :=
    List.filter_sublist
  have hother : ∀ a, owner a ≠ some (.user ptr) → a ≠ ptr := fun a ha heq => ha (heq ▸ hfirst)
  refine ⟨(h.handed.2 _ hin).1, paint owner ptr size none, ⟨?_, ?_, ?_, ?_, ?_, ?_, ?_⟩, ?_⟩
  · intro j hj
    exact (h.lists j hj).frame hown (fun _ _ => rfl) (fun b hb hmem => hlive _ hmem (hother b hb))
      (by simp) (by simp)
  · intro j hj
    exact (h.rest j hj).frame hown (by simp)
  · intro e' he'
    obtain ⟨hmem, hne⟩ := h.mem_erase he he'
    exact (h.users e' hmem).frame hown (fun e hmem hne => hlive e hmem (hother _ hne))
      (by simpa using hne.symm) (fun _ _ hB => hB)
  · exact (List.erase_sublist.map Prod.fst).nodup h.nodup
  · exact ⟨h.handed.1.sublist hsub, fun e hmem => h.handed.2 e (hsub.subset hmem)⟩
  · exact fun e hmem => h.live_pos e (hsub.subset hmem)
  · intro x hx
    have hout : ¬ (ptr ≤ x ∧ x < ptr + size) := by
      intro hx'
      exact hx (if_pos hx')
    rw [paint_of_notMem hout] at hx
    obtain ⟨e, hmem, hle, hend⟩ := h.covered x hx
    refine ⟨e, hlive e hmem fun heq => ?_, hle, hend⟩
    -- two blocks at one address overlap
    have hne : e ≠ (ptr, size) := by
      rintro rfl
      exact hout ⟨hle, hend⟩
    have : Std.Symm fun e f : ℕ × ℕ => Apart e.1 e.2 f.1 f.2 := ⟨fun _ _ hapart => hapart.symm⟩
    have hapart := h.handed.1.forall hmem hin hne
    have hpos := h.live_pos e hmem
    have hpos' := h.live_pos _ hin
    simp only [Apart, heq] at hapart hpos'
    omega
  · intro w hw
    have hnil : w ∈ ([] : List ℕ) := hstored ▸ hw
    exact absurd hnil List.not_mem_nil

theorem PoolsKept.begin (h : PoolsKept u owner free blocks) :
    PoolsKept { u with bucket := u.begin } owner free blocks where
  lists i hi := (h.lists i hi).frame (o := none) (fun _ _ _ _ howned => howned) (fun _ _ => rfl)
    (fun _ _ hb => hb) (by simp) (by simp)
  rest := h.rest
  users e he := (h.users e he).frame (o := none) (fun _ _ _ _ howned => howned) (fun _ he _ => he)
    (by simp) (fun _ _ hB => hB)
  nodup := h.nodup
  handed := h.handed
  live_pos := h.live_pos
  covered := h.covered

theorem PoolsKept.write {a : ℕ} {v : UInt8} (h : PoolsKept u owner free blocks)
    (ha : ∃ e ∈ u.inUse, e.1 ≤ a ∧ a < e.1 + e.2) :
    PoolsKept (u.next (.write a v)) owner free blocks := by
  obtain ⟨e, he, hle, hlt⟩ := ha
  have howner : owner a = some (.user e.1) := by
    have hsize := le_slotSize e.2
    exact (h.users e he).owned a hle (by omega)
  have hbyte : ∀ x, owner x ≠ some (.user e.1) →
      (u.next (.write a v)).bucket.memory.byte x = u.bucket.memory.byte x := by
    intro x hx
    have hne : x ≠ a := fun heq => hx (heq ▸ howner)
    exact Function.update_of_ne hne _ _
  refine ⟨?_, h.rest, ?_, h.nodup, h.handed, h.live_pos, h.covered⟩
  · intro i hi
    exact (h.lists i hi).frame (fun _ _ _ _ howned => howned) hbyte (fun _ _ hb => hb) (by simp)
      (by simp)
  · intro e' he'
    have hslot := h.users e' he'
    exact ⟨hslot.size_pos, hslot.owned, hslot.large, hslot.small⟩

/-! ## Runs -/

/-- A pointer in use lies in a large allocation or behind the header of a block. -/
theorem PoolsKept.ne_zero (h : PoolsKept u owner free blocks) {e : ℕ × ℕ} (he : e ∈ u.inUse) :
    e.1 ≠ 0 := by
  have hslot := h.users e he
  by_cases hsize : e.2 > MAX_SLOT_SIZE
  · exact (h.handed.2 e (hslot.large hsize)).1
  · obtain ⟨B, -, hle, -⟩ := hslot.small (Nat.not_lt.mp hsize)
    omega

/-- What a call for at least one byte returns is in use after it. -/
theorem PoolsKept.use {B : ℕ} (h : PoolsKept u owner free blocks) (hpos : 1 ≤ size)
    (hhanded : PoolUser.Handed (u.begin.useMemory size B).1.memory) :
    ∃ owner' free' blocks', PoolsKept
        { bucket := (u.begin.useMemory size B).1
          inUse := ((u.begin.useMemory size B).2, size) :: u.inUse } owner' free' blocks' ∧
      StoredApart (u.begin.useMemory size B).1.memory owner' := by
  have hbegin := h.begin
  have hzero : size ≠ 0 := Nat.ne_of_gt hpos
  by_cases hsize : size > MAX_SLOT_SIZE
  · have huse : u.begin.useMemory size B =
        ({ u.begin with memory := u.begin.memory.operatorNew B size }, B) := by
      rw [HashBucket.useMemory, if_neg hzero, if_pos hsize]
    rw [huse] at hhanded ⊢
    obtain ⟨owner', hkept, hstored⟩ := hbegin.newLarge hsize rfl hhanded
    exact ⟨owner', free, blocks, hkept, hstored⟩
  · have huse : u.begin.useMemory size B =
        ({ memoryPool := Function.update u.begin.memoryPool (index size)
            ((u.begin.memoryPool (index size)).allocate u.begin.memory B).1
           memory := ((u.begin.memoryPool (index size)).allocate u.begin.memory B).2.1 },
          ((u.begin.memoryPool (index size)).allocate u.begin.memory B).2.2) := by
      rw [HashBucket.useMemory, if_neg hzero, if_neg hsize]
    rw [huse] at hhanded ⊢
    have hsmall := Nat.not_lt.mp hsize
    exact hbegin.allocate (index_lt hpos hsmall) hpos hsmall rfl rfl hhanded

theorem PoolUser.next_useMemory {B : ℕ} (hne : (u.begin.useMemory size B).2 ≠ 0) :
    u.next (.useMemory size B) =
      { bucket := (u.begin.useMemory size B).1
        inUse := ((u.begin.useMemory size B).2, size) :: u.inUse } := by
  simp only [PoolUser.next]
  rw [if_neg hne]

theorem PoolsKept.useMemory_ne_zero {B : ℕ} (h : PoolsKept u owner free blocks) (hpos : 1 ≤ size)
    (hhanded : u.enabled (.useMemory size B)) : (u.begin.useMemory size B).2 ≠ 0 := by
  obtain ⟨owner', free', blocks', hkept, -⟩ := h.use hpos hhanded
  exact hkept.ne_zero List.mem_cons_self

theorem PoolsKept.useMemory {B : ℕ} (h : PoolsKept u owner free blocks)
    (hhanded : u.enabled (.useMemory size B)) :
    ∃ owner' free' blocks', PoolsKept (u.next (.useMemory size B)) owner' free' blocks' ∧
      StoredApart (u.next (.useMemory size B)).bucket.memory owner' := by
  by_cases hzero : size = 0
  · have hnext : u.next (.useMemory size B) = { u with bucket := u.begin } := by
      simp [PoolUser.next, HashBucket.useMemory, hzero]
    rw [hnext]
    exact ⟨owner, free, blocks, h.begin, fun w hw => absurd hw List.not_mem_nil⟩
  · have hpos := Nat.pos_of_ne_zero hzero
    rw [PoolUser.next_useMemory (h.useMemory_ne_zero hpos hhanded)]
    exact h.use hpos hhanded

theorem PoolsKept.freeMemory {ptr : ℕ} (h : PoolsKept u owner free blocks)
    (hptr : ptr = 0 ∨ (ptr, size) ∈ u.inUse) :
    ∃ owner' free' blocks', PoolsKept (u.next (.freeMemory ptr size)) owner' free' blocks' ∧
      StoredApart (u.next (.freeMemory ptr size)).bucket.memory owner' := by
  have hbegin := h.begin
  by_cases hin : (ptr, size) ∈ u.inUse
  · by_cases hsize : size > MAX_SLOT_SIZE
    · obtain ⟨hne, owner', hkept, hstored⟩ := hbegin.deleteLarge hin hsize rfl
      simp only [PoolUser.next, HashBucket.freeMemory, if_neg hne, if_pos hsize]
      exact ⟨owner', free, blocks, hkept, hstored⟩
    · obtain ⟨hne, owner', free', blocks', hkept, hstored⟩ :=
        hbegin.deallocate hin (Nat.not_lt.mp hsize) rfl
      simp only [PoolUser.next, HashBucket.freeMemory, if_neg hne, if_neg hsize]
      exact ⟨owner', free', blocks', hkept, hstored⟩
  · have hzero := hptr.resolve_right hin
    have hnext : u.next (.freeMemory ptr size) = { u with bucket := u.begin } := by
      simp [PoolUser.next, HashBucket.freeMemory, hzero, List.erase_of_not_mem (hzero ▸ hin)]
    rw [hnext]
    exact ⟨owner, free, blocks, hbegin, fun w hw => absurd hw List.not_mem_nil⟩

theorem PoolsKept.next (h : PoolsKept u owner free blocks) (a : PoolUser.Action)
    (ha : u.enabled a) :
    ∃ owner' free' blocks', PoolsKept (u.next a) owner' free' blocks' ∧
      StoredApart (u.next a).bucket.memory owner' := by
  cases a with
  | useMemory size B => exact h.useMemory ha
  | freeMemory ptr size => exact h.freeMemory ha
  | write a v =>
      exact ⟨owner, free, blocks, h.write ha, fun w hw => absurd hw List.not_mem_nil⟩

theorem poolsKept_initial (byte : Bytes) (undefined : ℕ → MemoryPool) :
    PoolsKept (PoolUser.initial byte undefined) (fun _ => none) (fun _ => []) (fun _ => []) where
  lists i hi := by
    have hpool : (PoolUser.initial byte undefined).bucket.memoryPool i =
        (MemoryPool.new (undefined i)).init ((i + 1) * SLOT_BASE_SIZE) := if_pos hi
    rw [hpool]
    exact ⟨rfl, rfl, rfl, rfl, by simp, by simp, List.nodup_nil⟩
  rest i hi := by
    have hpool : (PoolUser.initial byte undefined).bucket.memoryPool i =
        (MemoryPool.new (undefined i)).init ((i + 1) * SLOT_BASE_SIZE) := if_pos hi
    rw [hpool]
    exact fun hlt => absurd hlt (Nat.lt_irrefl 0)
  users := by simp [PoolUser.initial]
  nodup := List.nodup_nil
  handed := ⟨List.Pairwise.nil, by simp [PoolUser.initial, HashBucket.initMemoryPool]⟩
  live_pos := by simp [PoolUser.initial, HashBucket.initMemoryPool]
  covered x hx := absurd rfl hx

/-- The bytes behind a pointer: the slot of its pool, or the large allocation. -/
def PoolUser.slot (u : PoolUser) (size : ℕ) : ℕ :=
  if size > MAX_SLOT_SIZE then size else (u.bucket.memoryPool (index size)).SlotSize_

/-- The slots in use. -/
structure SlotsApart (u : PoolUser) : Prop where
  spans : ∀ e ∈ u.inUse, e.2 ≤ u.slot e.2
  large : ∀ e ∈ u.inUse, e.2 > MAX_SLOT_SIZE → e ∈ u.bucket.memory.live
  small : ∀ e ∈ u.inUse, e.2 ≤ MAX_SLOT_SIZE → ∃ B,
    u.bucket.memory.byte.Reaches (u.bucket.memoryPool (index e.2)).firstBlock_ B ∧
      (B, 4096) ∈ u.bucket.memory.live ∧ B + 8 ≤ e.1 ∧ e.1 + u.slot e.2 ≤ B + 4096
  apart : u.inUse.Pairwise fun e f => Apart e.1 (u.slot e.2) f.1 (u.slot f.2)
  free : ∀ i < MEMORY_POOL_NUM, ∀ q,
    u.bucket.memory.byte.Reaches (u.bucket.memoryPool i).freeList_ q →
      ∀ e ∈ u.inUse, Apart e.1 (u.slot e.2) q (u.bucket.memoryPool i).SlotSize_
  stored : ∀ w ∈ u.bucket.memory.stored, ∀ e ∈ u.inUse, Apart e.1 (u.slot e.2) w 8

theorem PoolsKept.slot_eq (h : PoolsKept u owner free blocks) {e : ℕ × ℕ} (he : e ∈ u.inUse) :
    u.slot e.2 = slotSize e.2 := by
  by_cases hsize : e.2 > MAX_SLOT_SIZE
  · rw [PoolUser.slot, if_pos hsize, slotSize_of_gt hsize]
  · have hsmall := Nat.not_lt.mp hsize
    rw [PoolUser.slot, if_neg hsize, slotSize_of_le hsmall,
      (h.lists _ (index_lt (h.users e he).size_pos hsmall)).SlotSize_]

theorem PoolsKept.slotsApart (h : PoolsKept u owner free blocks)
    (hstored : StoredApart u.bucket.memory owner) : SlotsApart u where
  spans e he := h.slot_eq he ▸ le_slotSize e.2
  large e he := (h.users e he).large
  small e he hsmall := by
    obtain ⟨B, hB, hle, hend⟩ := (h.users e he).small hsmall
    have hpool := h.lists _ (index_lt (h.users e he).size_pos hsmall)
    exact ⟨B, hpool.firstBlock_.mem_iff_reaches.mp hB, (hpool.header B hB).1, hle,
      h.slot_eq he ▸ hend⟩
  apart := by
    refine (List.pairwise_map.mp h.nodup).imp_of_mem fun {e f} he hf hne => ?_
    rw [h.slot_eq he, h.slot_eq hf]
    exact (h.users e he).owned.apart (h.users f hf).owned (by simpa using hne)
      (h.users e he).slotSize_pos (h.users f hf).slotSize_pos
  free i hi q hq e he := by
    have hpool := h.lists i hi
    have howned := (hpool.slot q (hpool.freeList_.mem_iff_reaches.mpr hq)).1
    rw [h.slot_eq he, hpool.SlotSize_]
    exact (h.users e he).owned.apart howned (by simp) (h.users e he).slotSize_pos (by omega)
  stored w hw e he := by
    obtain ⟨l, hl, howned⟩ := hstored w hw
    rw [h.slot_eq he]
    exact (h.users e he).owned.apart howned (hl e.1).symm (h.users e he).slotSize_pos (by omega)

/-- In every run of a program on the pools, the memory in use does not overlap anything that
the pools use, and no call writes to it. A call for at least one byte returns memory in use. -/
theorem slotsApart_of_runs (byte : Bytes) (undefined : ℕ → MemoryPool)
    (as : List PoolUser.Action)
    (hruns : PoolUser.machine.Runs (PoolUser.initial byte undefined) as) :
    SlotsApart (PoolUser.machine.run (PoolUser.initial byte undefined) as) ∧
      ∀ size newBlock, 1 ≤ size →
        let u := PoolUser.machine.run (PoolUser.initial byte undefined) as
        let ptr := (u.begin.useMemory size newBlock).2
        u.enabled (.useMemory size newBlock) →
          ptr ≠ 0 ∧ (ptr, size) ∈ (u.next (.useMemory size newBlock)).inUse := by
  have hkept : ∃ owner free blocks,
      PoolsKept (PoolUser.machine.run (PoolUser.initial byte undefined) as) owner free blocks ∧
        StoredApart (PoolUser.machine.run (PoolUser.initial byte undefined) as).bucket.memory
          owner := by
    refine PoolUser.machine.invariant_of_runs
      (I := fun u => ∃ owner free blocks, PoolsKept u owner free blocks ∧
        StoredApart u.bucket.memory owner) ?_
      ⟨_, _, _, poolsKept_initial byte undefined, fun w hw => absurd hw List.not_mem_nil⟩ hruns
    rintro u a ⟨owner, free, blocks, hkept, -⟩ ha
    exact hkept.next a ha
  obtain ⟨owner, free, blocks, hkept, hstored⟩ := hkept
  refine ⟨hkept.slotsApart hstored, ?_⟩
  intro size newBlock hpos u ptr hen
  have hne : ptr ≠ 0 := hkept.useMemory_ne_zero hpos hen
  refine ⟨hne, ?_⟩
  rw [PoolUser.next_useMemory hne]
  exact List.mem_cons_self

/-- A small and a large piece of memory, and a slot that is given back and taken again. -/
theorem slotsApart_reused :
    let u := PoolUser.machine.run (PoolUser.initial (fun _ => 0) fun _ => ⟨0, 0, 0, 0, 0, 0⟩)
      [.useMemory 8 65536, .write 65544 1, .useMemory 600 131072, .freeMemory 65544 8]
    SlotsApart u ∧ (u.begin.useMemory 5 0).2 ≠ 0 ∧
      ((u.begin.useMemory 5 0).2, 5) ∈ (u.next (.useMemory 5 0)).inUse := by
  obtain ⟨hapart, htaken⟩ := slotsApart_of_runs (fun _ => 0) (fun _ => ⟨0, 0, 0, 0, 0, 0⟩)
    [.useMemory 8 65536, .write 65544 1, .useMemory 600 131072, .freeMemory 65544 8] (by decide)
  exact ⟨hapart, htaken 5 0 (by decide) (by decide)⟩

end CkServer
