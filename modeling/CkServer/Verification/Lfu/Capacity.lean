import CkServer.Verification.Lfu.Runs
import CkServer.Verification.Lfu.Slices
import Mathlib.Algebra.BigOperators.Group.Finset.Piecewise
import Mathlib.Data.Int.CardIntervalMod

/-! # The capacity of the sliced cache

The slices keep to their own capacity, which is a quotient rounded up. -/

namespace CkServer

variable {Key Value : Type}

namespace LfuCache

variable [DecidableEq Key] [Inhabited Key] [Inhabited Value] {c : LfuCache Key Value}
  {capacity maxAverageNum : Int32} {ops : List (CacheCall Key Value)}

theorem After.size_le (h : c.After capacity maxAverageNum ops) (hlen : ops.length < 2 ^ 31)
    (hsafe : SafeAverage maxAverageNum ∨ capacity = 0) : c.size ≤ toSize_t capacity.toInt := by
  by_cases hcap : capacity.toInt = 0
  · have hempty : c.nodeMap_.entries = [] := by
      by_contra hne
      obtain ⟨⟨k, n⟩, hin⟩ := List.exists_mem_of_ne_nil _ hne
      have hnone := h.serves.closed (h.capacity_.trans hcap) k
      rw [valueOf, Option.mem_def.mp (AList.mem_lookup_iff.mpr hin)] at hnone
      simp at hnone
    rw [size, hempty]
    exact Nat.zero_le _
  · have hsafe' := hsafe.resolve_right fun hzero => hcap (by rw [hzero]; rfl)
    obtain ⟨c', members, hc, -⟩ := reached_of_safe_average hcap hsafe' ops hlen
    obtain rfl := Option.some_inj.mp (hc.calls.symm.trans h.calls)
    exact hc.capacity_ ▸ hc.exact.size_le

/-- Such a cache can count every access of a run that is not too long. -/
theorem After.countable (h : c.After capacity maxAverageNum ops) (hlen : ops.length + 1 < 2 ^ 31)
    (hsafe : SafeAverage maxAverageNum ∨ capacity = 0) (k : Key) : c.Countable k := by
  rcases hsafe with hsafe | hzero
  · refine h.serves.countable ?_ hlen k
    rw [h.maxAverageNum_]
    rcases hsafe with ⟨hlow, -⟩ | hmost
    · omega
    · omega
  · intro f hf
    have hnone := h.serves.closed (by rw [h.capacity_, hzero]; rfl) k
    rw [valueOf, Option.map_eq_none_iff] at hnone
    simp [freqOf, hnone] at hf

/-- New keys that there is room for stay. -/
theorem calls_puts (hmax : 0 ≤ maxAverageNum.toInt) (v : Value) (ks : List Key)
    (hnodup : ks.Nodup) (hlen : ks.length ≤ toSize_t capacity.toInt) (hlt : ks.length < 2 ^ 31) :
    ∃ c members, Reached capacity maxAverageNum (ks.map fun k => .put .inOrder k v) c members ∧
      c.size = ks.length ∧ c.curTotalNum_ ≤ ks.length ∧ ∀ k ∈ c.nodeMap_, k ∈ ks := by
  induction ks using List.reverseRecOn with
  | nil =>
      exact ⟨_, _, ⟨rfl, exact_new, rfl, rfl⟩, rfl, Int.le_refl 0,
        fun k hk => absurd hk (AList.notMem_empty k)⟩
  | append_singleton ks k ih =>
      rw [List.length_append, List.length_singleton] at hlen hlt
      obtain ⟨c, members, hc, hsize, htotal, hkeys⟩ := ih (List.nodup_append.mp hnodup).1 (by omega)
        (by omega)
      have hcap : c.capacity_ ≠ 0 := by
        intro hzero
        rw [← hc.capacity_, hzero] at hlen
        simp [toSize_t] at hlen
      have hmiss : k ∉ c.nodeMap_ := fun hk =>
        (List.nodup_append.mp hnodup).2.2 k (hkeys k hk) k (by simp) rfl
      have hmax' : 0 ≤ c.maxAverageNum_ := hc.maxAverageNum_ ▸ hmax
      obtain ⟨t, d, members', -, hput, hd, ha, hshape, hset⟩ :=
        hc.exact.putInternal (v := v) .inOrder hcap hmax' (fun _ => by omega) hmiss
      obtain ⟨d', _, hput', -, hcontents, -⟩ := hc.exact.toSound.putInternal (v := v) .inOrder hcap
        hmiss
      obtain rfl := Option.some_inj.mp (hput'.symm.trans hput)
      refine ⟨d', members', ⟨?_, hd, ?_, ?_⟩, ?_, ?_, ?_⟩
      · rw [List.map_append, List.map_singleton, calls_concat, hc.calls]
        change c.put .inOrder k v = some d'
        rw [LfuCache.put, if_neg hcap, AList.lookup_eq_none.mpr hmiss]
        exact hput
      · rw [hset.capacity_, ha.capacity_, hc.capacity_]
      · rw [hset.maxAverageNum_, ha.maxAverageNum_, hc.maxAverageNum_]
      · rw [hset.size, List.length_append, List.length_singleton]
        rcases hshape with ⟨-, -, hs⟩ | ⟨hfull, -, -⟩
        · omega
        · rw [hc.capacity_] at hfull
          omega
      · have hle := ha.total_le
        rw [hset.curTotalNum_, List.length_append, List.length_singleton]
        push_cast
        omega
      · intro k' hk'
        rw [List.mem_append, List.mem_singleton]
        by_cases hne : k' = k
        · exact .inr hne
        · obtain ⟨n, hn⟩ := Option.isSome_iff_exists.mp (AList.lookup_isSome.mpr hk')
          refine .inl (hkeys k' (AList.lookup_isSome.mp ?_))
          rcases hcontents.other k' hne with hnone | hsame
          · simp [valueOf, hn] at hnone
          · rw [valueOf, hn, valueOf] at hsame
            cases hl : c.nodeMap_.lookup k' with
            | none => simp [hl] at hsame
            | some m => rfl

end LfuCache

namespace HashLfuCache

open LfuCache (SafeAverage)

/-- Full slices together have at most `capacity` entries. -/
def Fits (capacity : UInt64) (sliceNum : Int32) : Prop :=
  sliceNum.toInt.toNat * toSize_t (sliceCapacity capacity sliceNum).toInt ≤ capacity.toNat

section Bound

variable [DecidableEq Key] [Inhabited Key] [Inhabited Value]

theorem sliced_of_short (Hash : Key → UInt64) (hardware_concurrency : UInt32) (capacity : UInt64)
    (sliceNum maxAverageNum : Int32) (hpos : 0 < sliceNum.toInt)
    (hsafe : SafeAverage maxAverageNum ∨ sliceCapacity capacity sliceNum = 0)
    (ops : List (CacheCall Key Value)) (hlen : ops.length < 2 ^ 31) :
    ∃ c, (new hardware_concurrency capacity sliceNum maxAverageNum).calls Hash ops = some c ∧
      c.Sliced Hash sliceNum.toInt.toNat (sliceCapacity capacity sliceNum) maxAverageNum ops := by
  refine sliced_rule Hash hardware_concurrency capacity sliceNum maxAverageNum hpos
    (P := fun ops => ops.length < 2 ^ 31) ?_ ?_ ops hlen
  · intro ops op hlen
    exact Nat.lt_of_succ_lt (LfuCache.length_of_concat hlen)
  · intro ops op c hlen _ hsliced k s _ hs
    have hrouted := length_routed_le Hash sliceNum.toInt.toNat (c.sliceIndex Hash k) ops
    have hnext := LfuCache.length_of_concat hlen
    exact (hsliced.slices _ s hs).countable (by omega) hsafe k

theorem Sliced.size_le_of_fits {Hash : Key → UInt64} {capacity : UInt64}
    {sliceNum maxAverageNum : Int32} {c : HashLfuCache Key Value}
    {ops : List (CacheCall Key Value)}
    (h : c.Sliced Hash sliceNum.toInt.toNat (sliceCapacity capacity sliceNum) maxAverageNum ops)
    (hsafe : SafeAverage maxAverageNum ∨ sliceCapacity capacity sliceNum = 0)
    (hfits : Fits capacity sliceNum) (hlen : ops.length < 2 ^ 31) : c.size ≤ capacity.toNat := by
  refine Nat.le_trans ?_ hfits
  have hle := List.sum_le_card_nsmul (c.lfuSliceCaches_.map LfuCache.size)
    (toSize_t (sliceCapacity capacity sliceNum).toInt) (by
      intro size hsize
      obtain ⟨s, hs, rfl⟩ := List.mem_map.mp hsize
      obtain ⟨i, hi⟩ := List.mem_iff_getElem?.mp hs
      have hrouted := length_routed_le Hash sliceNum.toInt.toNat i ops
      exact (h.slices i s hi).size_le (by omega) hsafe)
  rw [List.length_map, h.length, nsmul_eq_mul, Nat.cast_id] at hle
  exact hle

end Bound

/-! ## Keys spread over the slices -/

/-- The keys go round the slices. -/
def spread (sliceNum : ℕ) (key : ℕ) : UInt64 := UInt64.ofNat (key % sliceNum)

def puts (n : ℕ) : List (CacheCall ℕ ℕ) := (List.range n).map fun k => .put .inOrder k 0

theorem routed_puts {sliceNum : ℕ} (hpos : 0 < sliceNum) (hlt : sliceNum < 2 ^ 64) (i n : ℕ) :
    routed (spread sliceNum) sliceNum i (puts n) =
      ((List.range n).filter fun k => k % sliceNum = i).map fun k => .put .inOrder k 0 := by
  rw [routed, puts, List.filter_map]
  congr 1
  apply List.filter_congr
  intro k _
  have hto : (spread sliceNum k).toNat = k % sliceNum :=
    UInt64.toNat_ofNat_of_lt' (Nat.lt_trans (Nat.mod_lt k hpos) hlt)
  simp [hto]

theorem sum_count_mod {sliceNum : ℕ} (hpos : 0 < sliceNum) (n : ℕ) :
    ((List.range sliceNum).map fun i => Nat.count (fun k => k % sliceNum = i) n).sum = n := by
  induction n with
  | zero => simp
  | succ n ih =>
      have hone :
          ((List.range sliceNum).map fun i => if n % sliceNum = i then 1 else 0).sum = 1 := by
        change Finset.sum (Finset.range sliceNum) (fun i => if n % sliceNum = i then 1 else 0) = 1
        rw [Finset.sum_ite_eq, if_pos (Finset.mem_range.mpr (Nat.mod_lt n hpos))]
      simp only [Nat.count_succ, List.sum_map_add, ih, hone]

theorem count_mod_le {sliceNum i n b : ℕ} (hi : i < sliceNum) (hn : n ≤ sliceNum * b) :
    Nat.count (fun k => k % sliceNum = i) n ≤ b := by
  have hcount := Nat.count_modEq_card n (r := sliceNum) (by omega) i
  simp only [Nat.ModEq, Nat.mod_eq_of_lt hi] at hcount
  rw [hcount]
  have hdiv := Nat.div_add_mod n sliceNum
  have hle : n / sliceNum ≤ b := Nat.div_le_of_le_mul hn
  by_cases hlt : i < n % sliceNum
  · rw [if_pos hlt]
    by_contra hge
    have heq : n / sliceNum = b := by omega
    rw [heq] at hdiv
    omega
  · rw [if_neg hlt]
    exact hle

/-- No key is evicted as long as the keys that go round fit in the slices. -/
theorem size_puts (hardware_concurrency : UInt32) (capacity : UInt64)
    (sliceNum maxAverageNum : Int32) (hpos : 0 < sliceNum.toInt)
    (hsafe : SafeAverage maxAverageNum ∨ sliceCapacity capacity sliceNum = 0)
    {n : ℕ} (hn : n ≤ sliceNum.toInt.toNat * toSize_t (sliceCapacity capacity sliceNum).toInt)
    (hlt : n < 2 ^ 31) :
    ∃ c, (new hardware_concurrency capacity sliceNum maxAverageNum).calls
      (spread sliceNum.toInt.toNat) (puts n) = some c ∧ c.size = n := by
  have hslices := sliceNum.toInt_lt
  obtain ⟨c, hcalls, hsliced⟩ := sliced_of_short (spread sliceNum.toInt.toNat) hardware_concurrency
    capacity sliceNum maxAverageNum hpos hsafe (puts n) (by simpa [puts] using hlt)
  refine ⟨c, hcalls, ?_⟩
  rcases hsafe with hsafe | hzero
  · have hmax : 0 ≤ maxAverageNum.toInt := by
      rcases hsafe with ⟨hlow, -⟩ | hmost
      · omega
      · omega
    have hsizes : c.lfuSliceCaches_.map LfuCache.size = (List.range sliceNum.toInt.toNat).map
        fun i => Nat.count (fun k => k % sliceNum.toInt.toNat = i) n := by
      refine List.ext_getElem (by simp [hsliced.length]) fun i hi _ => ?_
      rw [List.length_map, hsliced.length] at hi
      have hi' : i < c.lfuSliceCaches_.length := by rwa [hsliced.length]
      have hslice := hsliced.slices i _ (List.getElem?_eq_getElem hi')
      rw [routed_puts (by omega) (by omega)] at hslice
      have hlen : ((List.range n).filter fun k => k % sliceNum.toInt.toNat = i).length =
          Nat.count (fun k => k % sliceNum.toInt.toNat = i) n := by
        rw [Nat.count, List.countP_eq_length_filter]
      obtain ⟨s, members, hs, hsize, -⟩ := LfuCache.calls_puts hmax 0
        ((List.range n).filter fun k => k % sliceNum.toInt.toNat = i)
        (List.nodup_range.filter _) (by rw [hlen]; exact count_mod_le hi hn)
        (by rw [hlen]; exact Nat.lt_of_le_of_lt (Nat.count_le _) hlt)
      have heq := Option.some_inj.mp (hs.calls.symm.trans hslice.calls)
      rw [List.getElem_map, List.getElem_map, List.getElem_range, ← heq, hsize, hlen]
    rw [size, hsizes, sum_count_mod (by omega)]
  · have hnone : n = 0 := by
      rw [hzero] at hn
      simpa [toSize_t] using hn
    subst hnone
    exact Nat.le_zero.mp hsliced.size_le

/-- For bounds on the average with which `minFreq_` is right, the cache keeps to its capacity in
every run of fewer than `2 ^ 31` calls exactly if its slices together do, or if there is room for a
key with every call. -/
theorem size_le_iff_fits (hardware_concurrency : UInt32) (capacity : UInt64)
    (sliceNum maxAverageNum : Int32) (hpos : 0 < sliceNum.toInt)
    (hsafe : SafeAverage maxAverageNum ∨ sliceCapacity capacity sliceNum = 0) :
    (∀ (Key Value : Type) [DecidableEq Key] [Inhabited Key] [Inhabited Value]
      (Hash : Key → UInt64) (ops : List (CacheCall Key Value)), ops.length < 2 ^ 31 →
      ∃ c, (new hardware_concurrency capacity sliceNum maxAverageNum).calls Hash ops = some c ∧
        c.size ≤ capacity.toNat) ↔
    Fits capacity sliceNum ∨ 2 ^ 31 - 1 ≤ capacity.toNat := by
  constructor
  · intro hall
    by_contra hnot
    rw [not_or, not_le] at hnot
    obtain ⟨hfits, hlt⟩ := hnot
    have hlen : capacity.toNat + 1 < 2 ^ 31 := by omega
    obtain ⟨c, hcalls, hsize⟩ := size_puts hardware_concurrency capacity sliceNum maxAverageNum hpos
      hsafe (Nat.lt_of_not_le hfits) hlen
    obtain ⟨c', hcalls', hle⟩ := hall ℕ ℕ (spread sliceNum.toInt.toNat) (puts (capacity.toNat + 1))
      (by simpa [puts] using hlen)
    rw [hcalls, Option.some_inj] at hcalls'
    rw [← hcalls', hsize] at hle
    omega
  · intro hcond Key Value _ _ _ Hash ops hlen
    obtain ⟨c, hcalls, hsliced⟩ := sliced_of_short Hash hardware_concurrency capacity sliceNum
      maxAverageNum hpos hsafe ops hlen
    refine ⟨c, hcalls, ?_⟩
    rcases hcond with hfits | hlarge
    · exact hsliced.size_le_of_fits hsafe hfits hlen
    · have hsize := hsliced.size_le
      omega

/-- Two slices for four entries. -/
theorem size_le_iff_fits_four :
    (∀ (Key Value : Type) [DecidableEq Key] [Inhabited Key] [Inhabited Value]
      (Hash : Key → UInt64) (ops : List (CacheCall Key Value)), ops.length < 2 ^ 31 →
      ∃ c, (new 1 4 2).calls Hash ops = some c ∧ c.size ≤ (4 : UInt64).toNat) ↔
    Fits 4 2 ∨ 2 ^ 31 - 1 ≤ (4 : UInt64).toNat :=
  size_le_iff_fits 1 4 2 10 (by decide) (.inl (.inl (by decide)))

/-! ## Capacities that a double holds -/

theorem sliceSize_le_iff {capacity : UInt64} {sliceNum : ℕ} (hcap : capacity.toNat < 2 ^ 53)
    (hpos : 0 < sliceNum) (k : ℕ) :
    sliceSize capacity sliceNum ≤ k ↔ capacity.toNat ≤ sliceNum * k := by
  have hpos' : (0 : ℚ) < sliceNum := by exact_mod_cast hpos
  rw [sliceSize, Binary64.round_natCast hcap, Int.cast_natCast, Binary64.ceil_div hcap hpos,
    Nat.ceil_le, div_le_iff₀ hpos', mul_comm]
  exact_mod_cast Iff.rfl

/-- As long as the slices' capacity is an `int`, the number of slices has to divide the
capacity. -/
theorem fits_iff_dvd {capacity : UInt64} {sliceNum : Int32} (hpos : 0 < sliceNum.toInt)
    (hcap : capacity.toNat < 2 ^ 53)
    (hslice : capacity.toNat ≤ sliceNum.toInt.toNat * (2 ^ 31 - 1)) :
    Fits capacity sliceNum ↔ sliceNum.toInt.toNat ∣ capacity.toNat := by
  obtain ⟨n, hn⟩ := Int.eq_ofNat_of_zero_le hpos.le
  rw [hn, Int.toNat_natCast] at hslice
  have hle := sliceSize_le_iff hcap (show 0 < n by omega)
  have hlt : sliceSize capacity n < 2 ^ 31 := by
    have hbound := (hle (2 ^ 31 - 1)).mpr hslice
    omega
  have hsize : toSize_t (Int32.ofNat (sliceSize capacity n)).toInt = sliceSize capacity n := by
    rw [Int32.toInt_ofNat_of_lt hlt, toSize_t, if_pos (by omega), Int.toNat_natCast]
  rw [Fits, sliceCapacity, hn, Int.toNat_natCast, hsize]
  have hge := (hle (sliceSize capacity n)).mp (Nat.le_refl _)
  constructor
  · intro hfits
    exact ⟨sliceSize capacity n, Nat.le_antisymm hge hfits⟩
  · rintro ⟨q, hq⟩
    calc n * sliceSize capacity n ≤ n * q := Nat.mul_le_mul_left n ((hle q).mpr (Nat.le_of_eq hq))
      _ = capacity.toNat := hq.symm

/-- One entry, and two slices. -/
theorem size_gt_two_slices : ∃ c, (new 1 1 2).calls (spread 2) (puts 2) = some c ∧
    ¬ c.size ≤ (1 : UInt64).toNat := by
  have hfits : ¬ Fits 1 2 := by
    rw [fits_iff_dvd (by decide) (by decide) (by decide)]
    decide
  obtain ⟨c, hcalls, hsize⟩ := size_puts 1 1 2 10 (by decide) (.inl (.inl (by decide))) (n := 2)
    (Nat.lt_of_not_le hfits) (by decide)
  exact ⟨c, hcalls, by rw [hsize]; decide⟩

end HashLfuCache

end CkServer
