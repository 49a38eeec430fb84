import CkServer.Verification.Lfu.Exact
import Mathlib.Data.List.Induction

/-! # Runs of the LFU cache

The representation and the capacity bound for the default bound on the average, and the bounds
for which `minFreq_` is right in every run. -/

namespace CkServer

namespace LfuCache

variable {Key Value : Type} {c d t : LfuCache Key Value} {members members' : ℤ → List ℕ} {n : ℕ}

/-! ## When a pass over the nodes happens -/

/-- Where the counter stays an `int`, the division of `size_t` is one of integers. -/
theorem counted_average (h : 0 ≤ t.curTotalNum_) (hlt : t.curTotalNum_ < 2 ^ 31 - 1) :
    t.counted.curAverageNum_ = if t.size = 0 then 0 else (t.curTotalNum_ + 1) / t.size := by
  have hnonneg : 0 ≤ t.curTotalNum_ + 1 := by omega
  have hquotient : ((toSize_t (t.curTotalNum_ + 1) / t.size : ℕ) : ℤ) =
      (t.curTotalNum_ + 1) / t.size := by
    rw [toSize_t, if_pos hnonneg, Int.natCast_ediv, Int.toNat_of_nonneg hnonneg]
  have hle := Int.ediv_le_self t.size hnonneg
  have hge := Int.ediv_nonneg hnonneg (Int.natCast_nonneg t.size)
  change (if t.size = 0 then (0 : ℤ) else
    toInt (toSize_t (increment t.curTotalNum_) / t.size : ℕ)) = _
  rw [increment_of_lt hlt, hquotient, toInt_of_mem (by omega) (by omega)]

theorem ages_iff (h : 0 ≤ t.curTotalNum_) (hlt : t.curTotalNum_ < 2 ^ 31 - 1) :
    t.Ages ↔ t.size ≠ 0 ∧ (t.maxAverageNum_ + 1) * t.size ≤ t.curTotalNum_ + 1 := by
  rw [Ages, counted_average h hlt]
  by_cases hsize : t.size = 0
  · simp [hsize]
  · have hpos : (0 : ℤ) < t.size := by omega
    rw [if_neg hsize, gt_iff_lt, ← Int.add_one_le_iff, Int.le_ediv_iff_mul_le hpos]
    exact and_comm

/-- With the largest `int` for a bound there is no pass over the nodes. -/
theorem not_ages_of_largest (h : t.maxAverageNum_ = 2 ^ 31 - 1) : ¬ t.Ages := by
  rintro ⟨hgt, hsize⟩
  have hlt := toInt_lt ((toSize_t (increment t.curTotalNum_) / t.size : ℕ) : ℤ)
  have haverage : t.counted.curAverageNum_ =
      toInt ((toSize_t (increment t.curTotalNum_) / t.size : ℕ) : ℤ) := if_neg hsize
  rw [haverage, h] at hgt
  omega

theorem Accessed.size_ne_zero (h : Accessed c t) : t.size ≠ 0 := by
  rw [← length_nodes]
  exact fun hnil => h.nodes (List.length_eq_zero_iff.mp hnil)

theorem Exact.freqSum_le_access (s : c.Exact members) (h : Accessed c t) :
    t.freqSum ≤ t.curTotalNum_ + 1 := by
  have hle := s.freqSum_le
  have hsurplus := h.surplus
  omega

/-- Without a pass the counter is small. -/
theorem Accessed.total_lt_of_not_ages (h : Accessed c t) (hages : ¬ t.Ages) :
    t.curTotalNum_ + 1 < (t.maxAverageNum_ + 1) * t.size := by
  rw [ages_iff h.total_nonneg h.total_lt, not_and, not_le] at hages
  exact hages h.size_ne_zero

/-! ## A frequency that stays low -/

/-- A cached node's frequency is not above the bound on the average. -/
def KeepsLow (c : LfuCache Key Value) : Prop :=
  c.nodes ≠ [] → ∃ n ∈ c.nodes, (c.heap n).freq ≤ c.maxAverageNum_

theorem KeepsLow.accessed (h : c.KeepsLow) (ha : Accessed c t) (hmax : 2 ≤ c.maxAverageNum_) :
    ∃ n ∈ t.nodes, (t.heap n).freq ≤ t.maxAverageNum_ + 1 := by
  rw [ha.maxAverageNum_]
  exact ha.low c.maxAverageNum_ (by omega) h

theorem aged_le_of_le_add_one {m f : ℤ} (hm : 2 ≤ m) (hf : f ≤ m + 1) :
    aged m f ≤ m ∧ (m ≤ 250 → aged m f < INT8_MAX) := by
  have hhalf : m.tdiv 2 = m / 2 := Int.tdiv_eq_ediv_of_nonneg (by omega)
  have hdef : aged m f = max (f - m / 2) 1 := by rw [aged, hhalf]
  have hmax : INT8_MAX = 127 := rfl
  omega

theorem KeepsLow.agesWell (h : c.KeepsLow) (ha : Accessed c t) (hmax : 2 ≤ c.maxAverageNum_)
    (hmax' : c.maxAverageNum_ ≤ 250) : t.AgesWell := by
  intro _
  obtain ⟨n, hn, hle⟩ := h.accessed ha hmax
  rw [← ha.maxAverageNum_] at hmax hmax'
  exact ⟨n, hn, (aged_le_of_le_add_one hmax hle).2 hmax'⟩

theorem KeepsLow.settled (h : c.KeepsLow) (s : c.Exact members) (ha : Accessed c t)
    (hd : Settled t d) (hmax : 2 ≤ c.maxAverageNum_) : d.KeepsLow := by
  intro _
  have hbound : 2 ≤ t.maxAverageNum_ := by rwa [ha.maxAverageNum_]
  rw [hd.nodes, hd.maxAverageNum_]
  by_cases hages : t.Ages
  · obtain ⟨n, hn, hle⟩ := h.accessed ha hmax
    exact ⟨n, hn, hd.aged hages n hn ▸ (aged_le_of_le_add_one hbound hle).1⟩
  · -- the average is not above the bound, and some frequency is not above the average
    have hlt := ha.total_lt_of_not_ages hages
    have hsum := s.freqSum_le_access ha
    obtain ⟨n, hn, hle⟩ := exists_freq_le (Int.lt_of_le_of_lt hsum hlt)
    exact ⟨n, hn, hd.freq hages n hn ▸ hle⟩

/-! ## The rule for runs -/

section Run

variable [DecidableEq Key] [Inhabited Key] [Inhabited Value] {capacity maxAverageNum : Int32}
  {ops : List (CacheCall Key Value)} {op : CacheCall Key Value}

/-- The calls `ops` lead to the exact state `c`. -/
structure Reached (capacity maxAverageNum : Int32) (ops : List (CacheCall Key Value))
    (c : LfuCache Key Value) (members : ℤ → List ℕ) : Prop where
  calls : (new capacity maxAverageNum).calls ops = some c
  exact : c.Exact members
  capacity_ : c.capacity_ = capacity.toInt
  maxAverageNum_ : c.maxAverageNum_ = maxAverageNum.toInt

omit [Inhabited Key] [Inhabited Value] in
theorem Outcome.configured [Inhabited Key] [Inhabited Value] (h : Outcome c d op) :
    d.capacity_ = c.capacity_ ∧ d.maxAverageNum_ = c.maxAverageNum_ := by
  cases h with
  | idle _ _ hd =>
      rcases hd with ⟨-, rfl⟩ | ⟨-, rfl⟩
      · exact ⟨rfl, rfl⟩
      · exact ⟨rfl, rfl⟩
  | touches t _ _ ha _ _ hd =>
      exact ⟨hd.capacity_.trans ha.capacity_, hd.maxAverageNum_.trans ha.maxAverageNum_⟩
  | inserts t _ _ ha _ hd =>
      exact ⟨hd.capacity_.trans ha.capacity_, hd.maxAverageNum_.trans ha.maxAverageNum_⟩

theorem Outcome.of_access (h : Outcome c d op) (ht : c.access op = some t) :
    Accessed c t ∧ Settled t d := by
  cases h with
  | idle hnone _ _ => simp [hnone] at ht
  | touches t' ht' _ ha _ _ hd =>
      rw [ht', Option.some_inj] at ht
      exact ht ▸ ⟨ha, hd⟩
  | inserts t' ht' _ ha _ hd =>
      rw [ht', Option.some_inj] at ht
      exact ht ▸ ⟨ha, hd⟩

theorem Outcome.idle_of_access (h : Outcome c d op) (ht : c.access op = none) :
    op ≠ .purge ∧ d = c ∨ op = .purge ∧ d = c.purge := by
  cases h with
  | idle _ _ hd => exact hd
  | touches t' ht' => simp [ht'] at ht
  | inserts t' ht' => simp [ht'] at ht

omit [DecidableEq Key] in
theorem exact_new : Exact (new capacity maxAverageNum : LfuCache Key Value) fun _ => [] where
  toSound := sound_new capacity maxAverageNum
  only n hn := absurd hn (by simp [Listed])
  minTrue h := absurd rfl h
  freqSum_le := Int.le_refl 0
  total_lt := Int.pow_pos (by decide)
  size_le := Nat.zero_le _

/-- A property of runs that the outcome of a call preserves, and that keeps a frequency low
enough for the pass over the nodes. -/
theorem run_rule (capacity maxAverageNum : Int32) {P : List (CacheCall Key Value) → Prop}
    {I : List (CacheCall Key Value) → LfuCache Key Value → Prop}
    (hcap : capacity.toInt ≠ 0) (hmax : 0 ≤ maxAverageNum.toInt)
    (hclosed : ∀ ops op, P (ops ++ [op]) → P ops) (hinit : I [] (new capacity maxAverageNum))
    (hwell : ∀ ops op c d members, P (ops ++ [op]) → Reached capacity maxAverageNum ops c members →
      I ops c → Outcome c d op → ∀ t, c.access op = some t → t.AgesWell)
    (hroom : ∀ ops op c members, P (ops ++ [op]) → Reached capacity maxAverageNum ops c members →
      I ops c → c.Raises op → c.curTotalNum_ < 2 ^ 31 - 1)
    (hstep : ∀ ops op c d members members', P (ops ++ [op]) →
      Reached capacity maxAverageNum ops c members → I ops c → Outcome c d op →
      Reached capacity maxAverageNum (ops ++ [op]) d members' → I (ops ++ [op]) d)
    (ops : List (CacheCall Key Value)) (hops : P ops) :
    ∃ c members, Reached capacity maxAverageNum ops c members ∧ I ops c := by
  induction ops using List.reverseRecOn with
  | nil => exact ⟨_, _, ⟨rfl, exact_new, rfl, rfl⟩, hinit⟩
  | append_singleton ops op ih =>
      obtain ⟨c, members, hreached, hI⟩ := ih (hclosed ops op hops)
      obtain ⟨d, members', hcall, hout, hexact⟩ := hreached.exact.call op
        (by rwa [hreached.capacity_]) (by rw [hreached.maxAverageNum_]; exact hmax)
        (hroom ops op c members hops hreached hI)
      have hd : Reached capacity maxAverageNum (ops ++ [op]) d members' := by
        refine ⟨?_, hexact (hwell ops op c d members hops hreached hI hout), ?_, ?_⟩
        · rw [calls_concat, hreached.calls]
          exact hcall
        · rw [hout.configured.1, hreached.capacity_]
        · rw [hout.configured.2, hreached.maxAverageNum_]
      exact ⟨d, members', hd, hstep ops op c d members members' hops hreached hI hout hd⟩

/-! ## Bounds on the counters -/

/-- After `i` calls. -/
structure Bounded (c : LfuCache Key Value) (i : ℕ) : Prop where
  total_nonneg : 0 ≤ c.curTotalNum_
  total_le : c.curTotalNum_ ≤ i
  average_nonneg : 0 ≤ c.curAverageNum_
  average_le : c.curAverageNum_ ≤ i
  minFreq_le : c.minFreq_ ≤ max INT8_MAX i

omit [DecidableEq Key] [Inhabited Key] [Inhabited Value] in
/-- The counter bounds the average and, as the sum of the frequencies, the smallest of them. -/
theorem Settled.bounded {i : ℕ} (h : Settled t d) (ha : Accessed c t) (hd : d.Exact members')
    (hle : t.curTotalNum_ + 1 ≤ i) : d.Bounded i := by
  have htotal := ha.total_nonneg
  have hlast := h.curTotalNum_
  have haverage := h.curAverageNum_
  rw [counted_average htotal ha.total_lt, if_neg ha.size_ne_zero] at haverage
  have hav := Int.ediv_nonneg (a := t.curTotalNum_ + 1) (by omega) (Int.natCast_nonneg t.size)
  have hav' := Int.ediv_le_self t.size (a := t.curTotalNum_ + 1) (by omega)
  have hne : d.nodes ≠ [] := h.nodes ▸ ha.nodes
  obtain ⟨⟨n, hn, hfreq⟩, -⟩ := hd.minTrue hne
  have hfreq' := hd.stored.freq_le_freqSum hn
  have hsum := hd.freqSum_le
  exact ⟨by omega, by omega, by omega, by omega, by omega⟩

theorem Bounded.step {i : ℕ} (h : c.Bounded i) (hd : d.Exact members') (hout : Outcome c d op) :
    d.Bounded (i + 1) := by
  have hle := h.total_le
  cases haccess : c.access op with
  | none =>
      have hsame : d.curTotalNum_ = c.curTotalNum_ ∧ d.curAverageNum_ = c.curAverageNum_ ∧
          d.minFreq_ = c.minFreq_ := by
        rcases hout.idle_of_access haccess with ⟨-, rfl⟩ | ⟨-, rfl⟩
        · exact ⟨rfl, rfl, rfl⟩
        · exact ⟨rfl, rfl, rfl⟩
      obtain ⟨ht, ha, hm⟩ := hsame
      have h0 := h.total_nonneg
      have h1 := h.average_nonneg
      have h2 := h.average_le
      have h3 := h.minFreq_le
      exact ⟨by omega, by omega, by omega, by omega, by omega⟩
  | some t =>
      obtain ⟨ha, hset⟩ := hout.of_access haccess
      have htotal := ha.total_le
      exact hset.bounded ha hd (by push_cast; omega)

omit [DecidableEq Key] [Inhabited Key] [Inhabited Value] in
theorem Bounded.room {i : ℕ} (h : c.Bounded i) (hi : i + 1 < 2 ^ 31) :
    c.curTotalNum_ < 2 ^ 31 - 1 := by
  have hle := h.total_le
  omega

omit [DecidableEq Key] in
theorem bounded_new : (new capacity maxAverageNum : LfuCache Key Value).Bounded 0 := by
  refine ⟨?_, ?_, ?_, ?_, ?_⟩
  all_goals simp [new]

/-! ## The default bound on the average -/

omit [DecidableEq Key] [Inhabited Key] [Inhabited Value] in
theorem keepsLow_of_nodes_eq_nil (h : c.nodes = []) : c.KeepsLow := fun hne => absurd h hne

theorem KeepsLow.step (h : c.KeepsLow) (s : c.Exact members) (hout : Outcome c d op)
    (hmax : 2 ≤ c.maxAverageNum_) : d.KeepsLow := by
  cases haccess : c.access op with
  | none =>
      rcases hout.idle_of_access haccess with ⟨-, rfl⟩ | ⟨-, rfl⟩
      · exact h
      · exact keepsLow_of_nodes_eq_nil rfl
  | some t =>
      obtain ⟨ha, hd⟩ := hout.of_access haccess
      exact h.settled s ha hd hmax

theorem reached_of_small_average (capacity maxAverageNum : Int32) (hcap : capacity.toInt ≠ 0)
    (hmax : 2 ≤ maxAverageNum.toInt) (hmax' : maxAverageNum.toInt ≤ 250)
    (ops : List (CacheCall Key Value)) (hlen : ops.length < 2 ^ 31) :
    ∃ c members, Reached capacity maxAverageNum ops c members ∧ c.Bounded ops.length := by
  have hrun : ∃ c members, Reached capacity maxAverageNum ops c members ∧
      c.KeepsLow ∧ c.Bounded ops.length := by
    refine run_rule capacity maxAverageNum (P := fun ops => ops.length < 2 ^ 31)
      (I := fun ops (c : LfuCache Key Value) => c.KeepsLow ∧ c.Bounded ops.length) hcap (by omega)
      (fun _ _ hlen => Nat.lt_of_succ_lt (length_of_concat hlen))
      ⟨keepsLow_of_nodes_eq_nil rfl, bounded_new⟩ ?_ ?_ ?_ ops hlen
    · intro ops op c d members _ hc ⟨hlow, _⟩ hout t ht
      exact hlow.agesWell (hout.of_access ht).1 (by rwa [hc.maxAverageNum_])
        (by rwa [hc.maxAverageNum_])
    · intro ops op c members hlen _ ⟨_, hbounded⟩ _
      exact hbounded.room (length_of_concat hlen)
    · intro ops op c d members members' _ hc ⟨hlow, hbounded⟩ hout hd
      rw [List.length_append, List.length_singleton]
      exact ⟨hlow.step hc.exact hout (by rwa [hc.maxAverageNum_]),
        hbounded.step hd.exact hout⟩
  obtain ⟨c, members, hreached, -, hbounded⟩ := hrun
  exact ⟨c, members, hreached, hbounded⟩

theorem reached_of_largest_average (capacity maxAverageNum : Int32) (hcap : capacity.toInt ≠ 0)
    (hmost : maxAverageNum.toInt = 2 ^ 31 - 1) (ops : List (CacheCall Key Value))
    (hlen : ops.length < 2 ^ 31) :
    ∃ c members, Reached capacity maxAverageNum ops c members ∧ c.Bounded ops.length := by
  refine run_rule capacity maxAverageNum (P := fun ops => ops.length < 2 ^ 31)
    (I := fun ops (c : LfuCache Key Value) => c.Bounded ops.length) hcap (by omega)
    (fun _ _ hlen => Nat.lt_of_succ_lt (length_of_concat hlen)) bounded_new ?_ ?_ ?_ ops hlen
  · intro ops op c d members _ hc _ hout t ht hages
    have hmax := (hout.of_access ht).1.maxAverageNum_
    rw [hc.maxAverageNum_, hmost] at hmax
    exact absurd hages (not_ages_of_largest hmax)
  · intro ops op c members hlen _ hbounded _
    exact hbounded.room (length_of_concat hlen)
  · intro ops op c d members members' _ hc hbounded hout hd
    rw [List.length_append, List.length_singleton]
    exact hbounded.step hd.exact hout

/-- The bounds on the average for which every run is exact. -/
def SafeAverage (maxAverageNum : Int32) : Prop :=
  2 ≤ maxAverageNum.toInt ∧ maxAverageNum.toInt ≤ 250 ∨ maxAverageNum.toInt = 2 ^ 31 - 1

theorem reached_of_safe_average (hcap : capacity.toInt ≠ 0) (hsafe : SafeAverage maxAverageNum)
    (ops : List (CacheCall Key Value)) (hlen : ops.length < 2 ^ 31) :
    ∃ c members, Reached capacity maxAverageNum ops c members ∧ c.Bounded ops.length := by
  rcases hsafe with ⟨hlow, hhigh⟩ | hmost
  · exact reached_of_small_average capacity maxAverageNum hcap hlow hhigh ops hlen
  · exact reached_of_largest_average capacity maxAverageNum hcap hmost ops hlen

/-- The map of the nodes and the lists fit each other, for lists with the given members. -/
structure Represented (c : LfuCache Key Value) (capacity : Int32) (members : ℤ → List ℕ) :
    Prop where
  size_le : (c.size : ℤ) ≤ capacity.toInt
  chain : ∀ f l, c.freqToFreqList_.lookup f = some l →
    c.heap.links.Chain l.head_ (members f) l.tail_
  absent : ∀ f, f ∉ c.freqToFreqList_ → members f = []
  node : ∀ k n, c.nodeMap_.lookup k = some n → 1 ≤ (c.heap n).freq ∧
    ∀ f, (members f).count n = if f = (c.heap n).freq then 1 else 0
  mapped : ∀ f n, n ∈ members f → c.nodeMap_.lookup (c.heap n).key = some n

/-- No `int` of the cache has overflowed. -/
structure InRange (c : LfuCache Key Value) : Prop where
  total : 0 ≤ c.curTotalNum_ ∧ c.curTotalNum_ < 2 ^ 31
  average : 0 ≤ c.curAverageNum_ ∧ c.curAverageNum_ < 2 ^ 31
  minFreq : 1 ≤ c.minFreq_ ∧ c.minFreq_ < 2 ^ 31
  freq : ∀ k n, c.nodeMap_.lookup k = some n → (c.heap n).freq < 2 ^ 31

omit [Inhabited Key] [Inhabited Value] in
theorem Exact.represented (s : c.Exact members) (hcap : c.capacity_ = capacity.toInt)
    (hpos : 1 ≤ capacity.toInt) : c.Represented capacity members where
  size_le := by
    have hle := s.size_le
    rw [hcap, toSize_t, if_pos (by omega)] at hle
    omega
  chain := s.stored.lists.chain
  absent := s.stored.lists.absent
  node k n hk := by
    have hn : n ∈ c.nodes := mem_nodes.mpr ⟨k, mem_entries hk⟩
    refine ⟨s.stored.one_le_freq hn, fun f => ?_⟩
    by_cases hf : f = (c.heap n).freq
    · rw [if_pos hf, hf]
      exact List.count_eq_one_of_mem (s.stored.lists.nodup _) (s.stored.mem_members hn)
    · rw [if_neg hf]
      exact List.count_eq_zero_of_not_mem fun hin => hf (s.stored.lists.freq f n hin).symm
  mapped f n hn := by
    obtain ⟨k, hk⟩ := mem_nodes.mp (s.only n ⟨f, hn⟩)
    rw [s.stored.key k n hk]
    exact AList.mem_lookup_iff.mpr hk

omit [Inhabited Key] [Inhabited Value] in
theorem Bounded.inRange {i : ℕ} (h : c.Bounded i) (s : c.Exact members) (hi : i < 2 ^ 31) :
    c.InRange where
  total := ⟨h.total_nonneg, by have hle := h.total_le; omega⟩
  average := ⟨h.average_nonneg, by have hle := h.average_le; omega⟩
  minFreq := by
    have hle := h.minFreq_le
    have hmax : INT8_MAX = 127 := rfl
    exact ⟨s.min_pos, by omega⟩
  freq k n hk := by
    have hfreq := s.stored.freq_le_freqSum (mem_nodes.mpr ⟨k, mem_entries hk⟩)
    have hsum := s.freqSum_le
    have htotal := h.total_le
    omega

/-- With the default bound on the average, every run keeps the lists and the map in step, stays
within the capacity, and overflows nothing. -/
theorem calls_represented (capacity : Int32) (hcap : 1 ≤ capacity.toInt)
    (ops : List (CacheCall Key Value)) (hlen : ops.length < 2 ^ 31) :
    ∃ c members, (new capacity).calls ops = some c ∧ c.Represented capacity members ∧
      c.InRange := by
  obtain ⟨c, members, hc, hbounded⟩ := reached_of_small_average capacity 10 (by omega) (by decide)
    (by decide) ops hlen
  exact ⟨c, members, hc.calls, hc.exact.represented hc.capacity_ hcap,
    hbounded.inRange hc.exact hlen⟩

/-- Three keys in a cache for two. -/
theorem calls_represented_three : ∃ c members, (new 2).calls
    [CacheCall.put .inOrder 1 10, .get .inOrder 1, .put .inOrder 2 20, .put .inOrder 3 (30 : ℕ)] =
      some c ∧ (c : LfuCache ℕ ℕ).Represented 2 members ∧ c.InRange :=
  calls_represented 2 (by decide) _ (by decide)

end Run

end LfuCache

end CkServer
