import CkServer.Verification.Pool.Slabs

/-! # The end of the pools

The destructors of the static array delete every block once, and nothing else. -/

namespace CkServer

variable {m : Memory} {u : PoolUser} {rest : List (ℕ × ℕ)}

/-- The loop deletes the blocks of its list, each before the next one's header is read. -/
theorem deleteBlocks_of_linked {fuel cur : ℕ} {bs : List ℕ} (hlinked : m.byte.Linked cur bs)
    (hlive : m.live.Perm (bs.map (fun B => (B, 4096)) ++ rest))
    (hnodup : (m.live.map Prod.fst).Nodup) (hfuel : bs.length < fuel) :
    ∃ m', MemoryPool.deleteBlocks fuel m cur = some m' ∧ m'.byte = m.byte ∧
      m'.live.Perm rest := by
  induction bs generalizing m cur fuel with
  | nil =>
      obtain ⟨fuel, rfl⟩ := Nat.exists_eq_succ_of_ne_zero (Nat.ne_of_gt hfuel)
      exact ⟨m, if_pos hlinked, rfl, hlive⟩
  | cons B bs ih =>
      obtain ⟨fuel, rfl⟩ := Nat.exists_eq_succ_of_ne_zero (Nat.ne_of_gt (Nat.zero_lt_of_lt hfuel))
      obtain ⟨rfl, hne, htail⟩ := hlinked
      have hmem : cur ∈ m.live.map Prod.fst :=
        List.mem_map.mpr ⟨(cur, 4096), hlive.mem_iff.mpr (by simp), rfl⟩
      have hdeleted : (m.operatorDelete cur).live.Perm (bs.map (fun B => (B, 4096)) ++ rest) :=
        live_operatorDelete (e := (cur, 4096)) hlive hnodup
      have hsub : (m.operatorDelete cur).live.Sublist m.live := List.filter_sublist
      obtain ⟨m', hrun, hbyte, hrest⟩ := ih (m := m.operatorDelete cur) htail hdeleted
        ((hsub.map _).nodup hnodup) (Nat.lt_of_succ_lt_succ hfuel)
      refine ⟨m', ?_, hbyte, hrest⟩
      rw [MemoryPool.deleteBlocks, if_neg hne, if_pos hmem]
      exact hrun

/-- The destructors of the pools `is`, one after another. -/
theorem foldlM_destroy {b : HashBucket} {blocks : ℕ → List ℕ} (is : List ℕ)
    (hlinked : ∀ i ∈ is, m.byte.Linked (b.memoryPool i).firstBlock_ (blocks i))
    (hlive : m.live.Perm (is.flatMap (fun i => (blocks i).map fun B => (B, 4096)) ++ rest))
    (hnodup : (m.live.map Prod.fst).Nodup) :
    ∃ m', is.foldlM (fun m i => (b.memoryPool i).destroy m) m = some m' ∧ m'.byte = m.byte ∧
      m'.live.Perm rest := by
  induction is generalizing m with
  | nil => exact ⟨m, rfl, rfl, hlive⟩
  | cons i is ih =>
      rw [List.flatMap_cons, List.append_assoc] at hlive
      have hlength : (blocks i).length < m.live.length + 1 := by
        have hall := hlive.length_eq
        rw [List.length_append, List.length_map] at hall
        omega
      obtain ⟨m₁, hdestroy, hbyte, hlive₁⟩ :=
        deleteBlocks_of_linked (hlinked i (by simp)) hlive hnodup hlength
      have hnodup₁ : (m₁.live.map Prod.fst).Nodup := by
        have hsplit := (hlive.map Prod.fst).nodup_iff.mp hnodup
        rw [List.map_append] at hsplit
        exact (hlive₁.map Prod.fst).nodup_iff.mpr hsplit.of_append_right
      obtain ⟨m₂, hfold, hbyte₂, hrest⟩ := ih
        (fun j hj => hbyte ▸ hlinked j (by simp [hj])) hlive₁ hnodup₁
      refine ⟨m₂, ?_, hbyte₂.trans hbyte, hrest⟩
      rw [List.foldlM_cons, MemoryPool.destroy, hdestroy]
      exact hfold

/-- At the end of every run of a program on the pools their destructors delete only what is live,
and what is live after them is what the program still has that was too large for a slot. -/
theorem destroyed_of_runs (byte : Bytes) (undefined : ℕ → MemoryPool)
    (as : List PoolUser.Action)
    (hruns : PoolUser.machine.Runs (PoolUser.initial byte undefined) as) :
    ∃ m, (PoolUser.machine.run (PoolUser.initial byte undefined) as).bucket.destroy = some m ∧
      m.live.Perm
        (largeIn (PoolUser.machine.run (PoolUser.initial byte undefined) as).inUse) := by
  have haccounted := PoolUser.machine.invariant_of_runs (I := Accounted)
    (fun u a h ha => h.next ha) (accounted_initial byte undefined) hruns
  generalize PoolUser.machine.run (PoolUser.initial byte undefined) as = u at haccounted ⊢
  obtain ⟨owner, free, blocks, hkept⟩ := haccounted.lists
  obtain ⟨m, hdestroy, -, hlive⟩ := foldlM_destroy _
    (fun i hi => haccounted.linked (List.mem_range.mp (List.mem_reverse.mp hi))) haccounted.held
    (nodup_of_handed hkept.handed hkept.live_pos)
  exact ⟨m, hdestroy, hlive⟩

/-- Two pools with a block each, and a large piece that is not given back. -/
theorem destroyed_twoPools : ∃ m, (PoolUser.machine.run
      (PoolUser.initial (fun _ => 0) fun _ => ⟨0, 0, 0, 0, 0, 0⟩)
      [.useMemory 8 65536, .useMemory 600 131072, .useMemory 512 262144]).bucket.destroy = some m ∧
    m.live.Perm (largeIn (PoolUser.machine.run
      (PoolUser.initial (fun _ => 0) fun _ => ⟨0, 0, 0, 0, 0, 0⟩)
      [.useMemory 8 65536, .useMemory 600 131072, .useMemory 512 262144]).inUse) :=
  destroyed_of_runs _ _ _ (by decide)

end CkServer
