import CkServer.Model.HashLfuCache
import CkServer.Verification.Lfu.Contents
import CkServer.Verification.Lfu.Sentinel

/-! # The slices of the sliced cache

A slice goes through the calls with the keys that are routed to it, and through every purge. -/

namespace CkServer

variable {Key Value : Type} [DecidableEq Key]

namespace LfuCache

variable [Inhabited Key] [Inhabited Value]

theorem get_of_valueOf_eq_none {c : LfuCache Key Value} {k : Key} (o : IterationOrders Key)
    (h : c.valueOf k = none) : c.get o k = some (c, none) := by
  rw [valueOf, Option.map_eq_none_iff] at h
  simp [get, h]

/-- Hits are latest values, misses change nothing, and what has been put is there. -/
theorem servesLatest (capacity maxAverageNum : Int32) :
    ServesLatest (new capacity maxAverageNum : LfuCache Key Value).calls LfuCache.get
      (CountableAlong (new capacity maxAverageNum : LfuCache Key Value).calls freqOf)
      (capacity ≠ 0) := by
  refine ⟨fun ops hops => ?_⟩
  obtain ⟨c, hc⟩ := exists_after capacity maxAverageNum ops hops
  refine ⟨c, hc.calls, fun o k hget => ?_⟩
  have hcount : c.Countable k := fun f => hget ops (.get o k) [] rfl c k f hc.calls rfl
  obtain ⟨d, hget, -⟩ := hc.serves.get o hcount
  refine ⟨d, c.valueOf k, hget, hc.serves.latest k, ?_, ?_⟩
  · intro hmiss
    rw [get_of_valueOf_eq_none o hmiss, Option.some_inj, Prod.mk.injEq] at hget
    exact hget.1.symm
  · intro ops' o' v hops hcap
    refine hc.serves.just_put ops' o' k v hops ?_
    rw [hc.capacity_]
    exact fun hzero => hcap (Int32.toInt_inj.mp hzero)

end LfuCache

namespace HashLfuCache

variable (Hash : Key → UInt64)

/-- The calls that reach the slice `i` of `sliceNum`. -/
def routed (sliceNum i : ℕ) (ops : List (CacheCall Key Value)) : List (CacheCall Key Value) :=
  ops.filter fun op => match op with
    | .put _ k _ => (Hash k).toNat % sliceNum = i
    | .get _ k => (Hash k).toNat % sliceNum = i
    | .purge => true

omit [DecidableEq Key] in
theorem length_routed_le (sliceNum i : ℕ) (ops : List (CacheCall Key Value)) :
    (routed Hash sliceNum i ops).length ≤ ops.length :=
  List.length_filter_le _ _

theorem latest_routed (sliceNum : ℕ) (ops : List (CacheCall Key Value)) (k : Key) :
    latest (routed Hash sliceNum ((Hash k).toNat % sliceNum) ops) k = latest ops k := by
  induction ops using List.reverseRecOn with
  | nil => rfl
  | append_singleton ops op ih =>
      rw [routed, List.filter_append, ← routed]
      cases op with
      | put o k' v =>
          by_cases hk : (Hash k').toNat % sliceNum = (Hash k).toNat % sliceNum
          · simp [hk, ih]
          · have hne : k ≠ k' := fun h => hk (h ▸ rfl)
            simp [hk, ih, hne]
      | get o k' =>
          by_cases hk : (Hash k').toNat % sliceNum = (Hash k).toNat % sliceNum
          · simp [hk, ih]
          · simp [hk, ih]
      | purge => simp

variable [Inhabited Key] [Inhabited Value]

omit [DecidableEq Key] in
theorem calls_concat [DecidableEq Key] (c : HashLfuCache Key Value)
    (ops : List (CacheCall Key Value)) (op : CacheCall Key Value) :
    c.calls Hash (ops ++ [op]) = (c.calls Hash ops).bind fun d => d.call Hash op := by
  simp [calls]

/-- The capacity of the slices. -/
def sliceCapacity (capacity : UInt64) (sliceNum : Int32) : Int32 :=
  Int32.ofNat (sliceSize capacity sliceNum.toInt)

/-- The frequency of the node of a key. -/
def freqOf (c : HashLfuCache Key Value) (k : Key) : Option ℤ :=
  c.lfuSliceCaches_[c.sliceIndex Hash k]?.bind fun slice => slice.freqOf k

/-- Every slice has gone through the calls that reach it. -/
structure Sliced (c : HashLfuCache Key Value) (sliceNum : ℕ) (capacity maxAverageNum : Int32)
    (ops : List (CacheCall Key Value)) : Prop where
  sliceNum_ : c.sliceNum_ = sliceNum
  length : c.lfuSliceCaches_.length = sliceNum
  slices : ∀ i (s : LfuCache Key Value), c.lfuSliceCaches_[i]? = some s →
    s.After capacity maxAverageNum (routed Hash sliceNum i ops)
  size_le : c.size ≤ ops.length

variable {Hash} {c : HashLfuCache Key Value} {sliceNum : ℕ} {capacity maxAverageNum : Int32}
  {ops : List (CacheCall Key Value)}

omit [DecidableEq Key] [Inhabited Key] [Inhabited Value] in
theorem sliceIndex_eq (h : c.sliceNum_ = sliceNum) (k : Key) :
    c.sliceIndex Hash k = (Hash k).toNat % sliceNum := by
  simp [sliceIndex, h, toSize_t]

theorem Sliced.slice_of_key (h : c.Sliced Hash sliceNum capacity maxAverageNum ops)
    (hpos : 0 < sliceNum) (k : Key) :
    ∃ s, c.lfuSliceCaches_[c.sliceIndex Hash k]? = some s ∧
      s.After capacity maxAverageNum (routed Hash sliceNum ((Hash k).toNat % sliceNum) ops) := by
  rw [sliceIndex_eq h.sliceNum_]
  have hlt : (Hash k).toNat % sliceNum < c.lfuSliceCaches_.length := by
    rw [h.length]
    exact Nat.mod_lt _ hpos
  exact ⟨_, List.getElem?_eq_getElem hlt, h.slices _ _ (List.getElem?_eq_getElem hlt)⟩

omit [DecidableEq Key] [Inhabited Key] [Inhabited Value] in
theorem size_set {i : ℕ} {s t : LfuCache Key Value} (hs : c.lfuSliceCaches_[i]? = some s) :
    size { c with lfuSliceCaches_ := c.lfuSliceCaches_.set i t } + s.size = c.size + t.size := by
  obtain ⟨hlt, rfl⟩ := List.getElem?_eq_some_iff.mp hs
  have hold : c.lfuSliceCaches_ = c.lfuSliceCaches_.take i ++
      c.lfuSliceCaches_[i] :: c.lfuSliceCaches_.drop (i + 1) := by
    rw [List.getElem_cons_drop, List.take_append_drop]
  rw [size, size, List.set_eq_take_append_cons_drop, if_pos hlt]
  nth_rewrite 4 [hold]
  simp only [List.map_append, List.map_cons, List.sum_append, List.sum_cons]
  omega

/-- A call that reaches one slice. -/
theorem Sliced.set {op : CacheCall Key Value} {s t : LfuCache Key Value} {k : Key}
    (h : c.Sliced Hash sliceNum capacity maxAverageNum ops) (hpos : 0 < sliceNum)
    (hrouted : ∀ i, routed Hash sliceNum i [op] =
      if (Hash k).toNat % sliceNum = i then [op] else [])
    (hs : c.lfuSliceCaches_[c.sliceIndex Hash k]? = some s)
    (ht : t.After capacity maxAverageNum
      (routed Hash sliceNum ((Hash k).toNat % sliceNum) ops ++ [op]))
    (hsize : t.size ≤ s.size + 1) :
    Sliced Hash { c with lfuSliceCaches_ := c.lfuSliceCaches_.set (c.sliceIndex Hash k) t } sliceNum
      capacity maxAverageNum (ops ++ [op]) where
  sliceNum_ := h.sliceNum_
  length := by simp [h.length]
  slices i u hu := by
    have hlt : (Hash k).toNat % sliceNum < c.lfuSliceCaches_.length := by
      rw [h.length]
      exact Nat.mod_lt _ hpos
    simp only [sliceIndex_eq h.sliceNum_] at hu
    rw [routed, List.filter_append, ← routed, ← routed, hrouted]
    by_cases hi : (Hash k).toNat % sliceNum = i
    · subst hi
      rw [List.getElem?_set_self hlt, Option.some_inj] at hu
      rw [if_pos rfl, ← hu]
      exact ht
    · rw [List.getElem?_set_ne hi] at hu
      rw [if_neg hi, List.append_nil]
      exact h.slices i u hu
  size_le := by
    have hset := size_set (t := t) hs
    have hle := h.size_le
    rw [List.length_append, List.length_singleton]
    omega

theorem Sliced.call (h : c.Sliced Hash sliceNum capacity maxAverageNum ops) (hpos : 0 < sliceNum)
    (op : CacheCall Key Value)
    (hcount : ∀ k (s : LfuCache Key Value), op.key = some k →
      c.lfuSliceCaches_[c.sliceIndex Hash k]? = some s → s.Countable k) :
    ∃ d, c.call Hash op = some d ∧
      d.Sliced Hash sliceNum capacity maxAverageNum (ops ++ [op]) := by
  cases op with
  | put o k v =>
      obtain ⟨s, hslice, hs⟩ := h.slice_of_key hpos k
      obtain ⟨t, hput, ht, hsize⟩ := hs.call (.put o k v) (by
        rintro k' ⟨rfl⟩
        exact hcount k s rfl hslice)
      change s.put o k v = some t at hput
      refine ⟨_, ?_, h.set hpos (k := k) (fun i => ?_) hslice ht hsize⟩
      · simp [HashLfuCache.call, HashLfuCache.put, hslice, hput]
      · by_cases hi : (Hash k).toNat % sliceNum = i <;> simp [routed, hi]
  | get o k =>
      obtain ⟨s, hslice, hs⟩ := h.slice_of_key hpos k
      obtain ⟨t, hget, ht, hsize⟩ := hs.call (.get o k) (by
        rintro k' ⟨rfl⟩
        exact hcount k s rfl hslice)
      obtain ⟨⟨t', r⟩, hget', rfl⟩ := Option.map_eq_some_iff.mp hget
      refine ⟨_, ?_, h.set hpos (k := k) (fun i => ?_) hslice ht hsize⟩
      · simp [HashLfuCache.call, HashLfuCache.get, hslice, hget']
      · by_cases hi : (Hash k).toNat % sliceNum = i <;> simp [routed, hi]
  | purge =>
      refine ⟨c.purge, rfl, h.sliceNum_, by simp [purge, h.length], ?_, ?_⟩
      · intro i u hu
        rw [purge, List.getElem?_map, Option.map_eq_some_iff] at hu
        obtain ⟨s, hs, rfl⟩ := hu
        obtain ⟨t, hpurge, ht, -⟩ := (h.slices i s hs).call .purge (fun k hk => by cases hk)
        obtain rfl : s.purge = t := Option.some_inj.mp hpurge
        rw [routed, List.filter_append, ← routed, ← routed]
        exact ht
      · have hempty : c.purge.size = 0 := by
          rw [size, purge, List.map_map]
          exact List.sum_eq_zero fun n hn => by
            obtain ⟨s, -, rfl⟩ := List.mem_map.mp hn
            rfl
        omega

/-- The run lemma, for runs whose accesses can be counted for the reason that `P` gives. -/
theorem sliced_rule (Hash : Key → UInt64) (hardware_concurrency : UInt32) (capacity : UInt64)
    (sliceNum maxAverageNum : Int32) (hpos : 0 < sliceNum.toInt)
    {P : List (CacheCall Key Value) → Prop} (hclosed : ∀ ops op, P (ops ++ [op]) → P ops)
    (hcount : ∀ ops op (c : HashLfuCache Key Value), P (ops ++ [op]) →
      (new hardware_concurrency capacity sliceNum maxAverageNum).calls Hash ops = some c →
      c.Sliced Hash sliceNum.toInt.toNat (sliceCapacity capacity sliceNum) maxAverageNum ops →
      ∀ k (s : LfuCache Key Value), op.key = some k →
        c.lfuSliceCaches_[c.sliceIndex Hash k]? = some s → s.Countable k)
    (ops : List (CacheCall Key Value)) (hops : P ops) :
    ∃ c, (new hardware_concurrency capacity sliceNum maxAverageNum).calls Hash ops = some c ∧
      c.Sliced Hash sliceNum.toInt.toNat (sliceCapacity capacity sliceNum) maxAverageNum ops := by
  induction ops using List.reverseRecOn with
  | nil =>
      have hnew : ∀ s ∈ (new hardware_concurrency capacity sliceNum maxAverageNum :
          HashLfuCache Key Value).lfuSliceCaches_,
          s = LfuCache.new (sliceCapacity capacity sliceNum) maxAverageNum := by
        intro s hs
        simp only [new, if_pos hpos] at hs
        exact (List.mem_replicate.mp hs).2
      refine ⟨_, rfl, ?_, ?_, ?_, ?_⟩
      · simp only [new, if_pos hpos]
        omega
      · simp [new, hpos]
      · intro i s hs
        rw [hnew s (List.mem_of_getElem? hs)]
        exact LfuCache.after_new
      · refine Nat.le_of_eq (List.sum_eq_zero fun n hn => ?_)
        obtain ⟨s, hs, rfl⟩ := List.mem_map.mp hn
        rw [hnew s hs]
        rfl
  | append_singleton ops op ih =>
      obtain ⟨c, hcalls, hsliced⟩ := ih (hclosed ops op hops)
      obtain ⟨d, hcall, hd⟩ := hsliced.call (by omega) op (hcount ops op c hops hcalls hsliced)
      exact ⟨d, by rw [calls_concat, hcalls]; exact hcall, hd⟩

theorem servesLatest (Hash : Key → UInt64) (hardware_concurrency : UInt32) (capacity : UInt64)
    (sliceNum maxAverageNum : Int32) (hpos : 0 < sliceNum.toInt) :
    ServesLatest
      ((new hardware_concurrency capacity sliceNum maxAverageNum :
        HashLfuCache Key Value).calls Hash)
      (HashLfuCache.get Hash)
      (CountableAlong ((new hardware_concurrency capacity sliceNum maxAverageNum :
        HashLfuCache Key Value).calls Hash) (freqOf Hash))
      (sliceCapacity capacity sliceNum ≠ 0) := by
  have hcount {before : List (CacheCall Key Value)} {op : CacheCall Key Value}
      (hops : CountableAlong ((new hardware_concurrency capacity sliceNum maxAverageNum :
        HashLfuCache Key Value).calls Hash) (freqOf Hash) (before ++ [op]))
      {c : HashLfuCache Key Value} {k : Key} {s : LfuCache Key Value}
      (hcalls : (new hardware_concurrency capacity sliceNum maxAverageNum).calls Hash before =
        some c)
      (hk : op.key = some k) (hs : c.lfuSliceCaches_[c.sliceIndex Hash k]? = some s) :
      s.Countable k :=
    fun f hf => hops before op [] rfl c k f hcalls hk (by rw [freqOf, hs]; exact hf)
  refine ⟨fun ops hops => ?_⟩
  obtain ⟨c, hcalls, hsliced⟩ := sliced_rule Hash hardware_concurrency capacity sliceNum
    maxAverageNum hpos (fun _ _ => CountableAlong.of_concat)
    (fun ops op c hops hcalls _ k s => hcount hops hcalls) ops hops
  refine ⟨c, hcalls, fun o k hget => ?_⟩
  obtain ⟨s, hslice, hs⟩ := hsliced.slice_of_key (by omega) k
  obtain ⟨t, hget, -⟩ := hs.serves.get o (hcount hget hcalls rfl hslice)
  refine ⟨{ c with lfuSliceCaches_ := c.lfuSliceCaches_.set (c.sliceIndex Hash k) t }, s.valueOf k,
    ?_, ?_, ?_, ?_⟩
  · simp [get, hslice, hget]
  · intro v hv
    rw [← latest_routed Hash sliceNum.toInt.toNat ops k]
    exact hs.serves.latest k v hv
  · intro hmiss
    rw [LfuCache.get_of_valueOf_eq_none o hmiss, Option.some_inj, Prod.mk.injEq] at hget
    obtain ⟨hlt, hself⟩ := List.getElem?_eq_some_iff.mp hslice
    rw [← hget.1, ← hself, List.set_getElem_self]
  · intro ops' o' v hops hcap
    refine hs.serves.just_put
      (routed Hash sliceNum.toInt.toNat ((Hash k).toNat % sliceNum.toInt.toNat) ops') o' k v ?_ ?_
    · rw [hops, routed, List.filter_append, ← routed]
      simp
    · rw [hs.capacity_]
      exact fun hzero => hcap (Int32.toInt_inj.mp hzero)

end HashLfuCache

/-- Whatever evictions, passes over the nodes and purges come between, no cache serves a stale
value, as long as no frequency overflows. -/
theorem caches_serve_latest [Inhabited Key] [Inhabited Value] :
    (∀ capacity maxAverageNum : Int32,
      ServesLatest (LfuCache.new capacity maxAverageNum : LfuCache Key Value).calls LfuCache.get
        (CountableAlong (LfuCache.new capacity maxAverageNum : LfuCache Key Value).calls
          LfuCache.freqOf)
        (capacity ≠ 0)) ∧
    ∀ (Hash : Key → UInt64) (hardware_concurrency : UInt32) (capacity : UInt64)
      (sliceNum maxAverageNum : Int32), 0 < sliceNum.toInt →
      ServesLatest
        ((HashLfuCache.new hardware_concurrency capacity sliceNum maxAverageNum :
          HashLfuCache Key Value).calls Hash)
        (HashLfuCache.get Hash)
        (CountableAlong ((HashLfuCache.new hardware_concurrency capacity sliceNum maxAverageNum :
          HashLfuCache Key Value).calls Hash) (HashLfuCache.freqOf Hash))
        (HashLfuCache.sliceCapacity capacity sliceNum ≠ 0) :=
  ⟨LfuCache.servesLatest, HashLfuCache.servesLatest⟩

/-- The sliced cache with 3 slices for 8 entries. -/
theorem caches_serve_latest_sliced (Hash : ℕ → UInt64) :
    ServesLatest ((HashLfuCache.new 1 8 3 : HashLfuCache ℕ ℕ).calls Hash) (HashLfuCache.get Hash)
      (CountableAlong ((HashLfuCache.new 1 8 3 : HashLfuCache ℕ ℕ).calls Hash)
        (HashLfuCache.freqOf Hash))
      (HashLfuCache.sliceCapacity 8 3 ≠ 0) :=
  caches_serve_latest.2 Hash 1 8 3 10 (by decide)

/-- Without that condition a run of `2 ^ 31 + 2` calls ends where `kickOut` dereferences a null
pointer. -/
theorem not_serves_overflowed :
    ¬ ServesLatest (LfuCache.new 1 2147483647 : LfuCache ℕ ℕ).calls LfuCache.get (fun _ => True)
      ((1 : Int32) ≠ 0) := by
  intro h
  obtain ⟨c, hc, -⟩ := h.serves (LfuCache.hotCalls ℕ ℕ (2 ^ 31 - 1) ++
    [.purge, .put .inOrder 0 0, .put .inOrder 1 0]) trivial
  have hfail := LfuCache.overflowed_calls_fail 1 2147483647 (by decide) (by decide) (2 ^ 31 - 1)
    rfl 0 1 0 0 Nat.one_ne_zero
  rw [hfail] at hc
  cases hc

end CkServer
