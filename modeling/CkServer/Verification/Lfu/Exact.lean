import CkServer.Verification.Lfu.Operations
import Mathlib.Algebra.Order.BigOperators.Group.List
import Mathlib.Tactic.Linarith

/-! # The frequencies of the LFU cache

As long as a pass over the nodes leaves a frequency below `INT8_MAX`, the lists hold the cached
nodes and no others, `minFreq_` is the smallest frequency, and the cache keeps to its capacity. -/

namespace CkServer

namespace LfuCache

variable {Key Value : Type} {c d t : LfuCache Key Value} {members members' : ℤ → List ℕ} {n a : ℕ}
  {f : ℤ}

/-- The frequencies of the cached nodes together. -/
def freqSum (c : LfuCache Key Value) : ℤ := (c.nodes.map fun n => (c.heap n).freq).sum

/-- `minFreq_` is the smallest frequency of a cached node. -/
def MinTrue (c : LfuCache Key Value) : Prop :=
  c.nodes ≠ [] → (∃ n ∈ c.nodes, (c.heap n).freq = c.minFreq_) ∧
    ∀ n ∈ c.nodes, c.minFreq_ ≤ (c.heap n).freq

/-- The lists hold the cached nodes only, and the counter is not below their frequencies. -/
structure Exact (c : LfuCache Key Value) (members : ℤ → List ℕ) : Prop extends
    Sound c members where
  only : ∀ n, Listed members n → n ∈ c.nodes
  minTrue : c.MinTrue
  freqSum_le : c.freqSum ≤ c.curTotalNum_
  total_lt : c.curTotalNum_ < 2 ^ 31
  size_le : c.size ≤ toSize_t c.capacity_

/-! ## Sums of frequencies -/

theorem nodes_eq_nil : c.nodes = [] ↔ c.nodeMap_.entries = [] := by
  simp [nodes]

theorem nodes_of_eq (h : d.nodeMap_ = c.nodeMap_) : d.nodes = c.nodes := by
  rw [nodes, nodes, h]

theorem size_of_eq (h : d.nodeMap_ = c.nodeMap_) : d.size = c.size := by
  rw [size, size, h]

theorem freqSum_of_eq (hnodes : d.nodes = c.nodes)
    (hfreq : ∀ n ∈ c.nodes, (d.heap n).freq = (c.heap n).freq) : d.freqSum = c.freqSum := by
  rw [freqSum, freqSum, hnodes, List.map_congr_left hfreq]

theorem freqSum_le_of_le (hnodes : d.nodes = c.nodes)
    (hfreq : ∀ n ∈ c.nodes, (d.heap n).freq ≤ (c.heap n).freq) : d.freqSum ≤ c.freqSum := by
  rw [freqSum, freqSum, hnodes]
  exact List.sum_le_sum hfreq

theorem Stored.lt_of_mem_nodes (s : c.Stored members) (hn : n ∈ c.nodes) : n < c.allocated := by
  obtain ⟨k, hk⟩ := mem_nodes.mp hn
  exact s.lt_allocated hk

theorem Stored.one_le_freq (s : c.Stored members) (hn : n ∈ c.nodes) : 1 ≤ (c.heap n).freq := by
  obtain ⟨k, hk⟩ := mem_nodes.mp hn
  obtain ⟨f, hf⟩ := s.listed k n hk
  rw [s.lists.freq f n hf]
  exact s.pos f n hf

theorem Stored.size_le_freqSum (s : c.Stored members) : (c.size : ℤ) ≤ c.freqSum := by
  have hle := List.card_nsmul_le_sum (c.nodes.map fun n => (c.heap n).freq) 1 (by
    intro f hf
    obtain ⟨n, hn, rfl⟩ := List.mem_map.mp hf
    exact s.one_le_freq hn)
  simpa [freqSum, length_nodes] using hle

/-- A node whose frequency is not above the average. -/
theorem exists_freq_le {m : ℤ} (h : c.freqSum < (m + 1) * c.size) :
    ∃ n ∈ c.nodes, (c.heap n).freq ≤ m := by
  by_contra hall
  push Not at hall
  have hle := List.card_nsmul_le_sum (c.nodes.map fun n => (c.heap n).freq) (m + 1) (by
    intro f hf
    obtain ⟨n, hn, rfl⟩ := List.mem_map.mp hf
    exact hall n hn)
  rw [List.length_map, length_nodes, nsmul_eq_mul] at hle
  rw [freqSum, mul_comm] at h
  omega

theorem freqSum_eq_add_erase (c : LfuCache Key Value) (hn : n ∈ c.nodes) :
    c.freqSum = (c.heap n).freq + ((c.nodes.erase n).map fun n => (c.heap n).freq).sum := by
  have hperm := (List.perm_cons_erase hn).map fun n => (c.heap n).freq
  rw [freqSum, hperm.sum_eq, List.map_cons, List.sum_cons]

theorem Stored.freq_le_freqSum (s : c.Stored members) (hn : n ∈ c.nodes) :
    (c.heap n).freq ≤ c.freqSum := by
  rw [freqSum_eq_add_erase c hn]
  have hrest : 0 ≤ ((c.nodes.erase n).map fun n => (c.heap n).freq).sum := by
    apply List.sum_nonneg
    intro f hf
    obtain ⟨a, ha, rfl⟩ := List.mem_map.mp hf
    have hone := s.one_le_freq (List.mem_of_mem_erase ha)
    omega
  omega

theorem Touched.freqSum (ht : Touched c t members n f) (s : c.Stored members) (hn : n ∈ c.nodes)
    (hf : n ∈ members f) : t.freqSum = c.freqSum + 1 := by
  have hnodes := nodes_of_eq ht.keeps.nodeMap_
  have hrest : (c.nodes.erase n).map (fun n => (t.heap n).freq) =
      (c.nodes.erase n).map fun n => (c.heap n).freq := by
    apply List.map_congr_left
    intro a ha
    obtain ⟨hne, hmem⟩ := s.nodup_nodes.mem_erase_iff.mp ha
    exact ht.freq_of_ne a (s.lt_of_mem_nodes hmem) hne
  rw [freqSum_eq_add_erase t (hnodes ▸ hn), freqSum_eq_add_erase c hn, hnodes, hrest,
    ht.freq_self, s.lists.freq f n hf]
  omega

section Keys

variable [DecidableEq Key] {k : Key} {v : Value}

theorem Inserted.nodes (hi : Inserted c d members k v) (hk : k ∉ c.nodeMap_) :
    d.nodes = c.allocated :: c.nodes := by
  rw [LfuCache.nodes, hi.nodeMap_, AList.entries_insert_of_notMem hk]
  rfl

theorem Inserted.freqSum (hi : Inserted c d members k v) (s : c.Stored members)
    (hk : k ∉ c.nodeMap_) : d.freqSum = c.freqSum + 1 := by
  have hold : c.nodes.map (fun n => (d.heap n).freq) = c.nodes.map fun n => (c.heap n).freq :=
    List.map_congr_left fun a ha => (hi.old a (s.lt_of_mem_nodes ha)).1
  rw [LfuCache.freqSum, hi.nodes hk, List.map_cons, List.sum_cons, hold, hi.new.1,
    LfuCache.freqSum]
  omega

theorem Stored.nodes_evicted (s : c.Stored members) (hn : n ∈ c.nodes) :
    c.nodes.Perm (n :: (c.evicted n).nodes) := by
  obtain ⟨k, hk⟩ := mem_nodes.mp hn
  have hkey := s.key k n hk
  have herase : (c.evicted n).nodeMap_ = c.nodeMap_.erase k := by rw [← hkey]; rfl
  have hperm : c.nodeMap_.entries.Perm (⟨k, n⟩ :: (c.evicted n).nodeMap_.entries) := by
    rw [herase]
    refine (List.perm_ext_iff_of_nodup c.nodeMap_.nodupKeys.nodup (List.nodup_cons.mpr
      ⟨?_, (c.nodeMap_.erase k).nodupKeys.nodup⟩)).mpr ?_
    · intro hmem
      exact (mem_entries_erase.mp hmem).1 rfl
    · intro ⟨k', a⟩
      rw [List.mem_cons, mem_entries_erase]
      by_cases hk' : k' = k
      · subst hk'
        have hlookup := AList.mem_lookup_iff.mpr hk
        rw [← AList.mem_lookup_iff, Option.mem_def.mp hlookup]
        simp [eq_comm]
      · simp [hk']
  exact hperm.map fun e => e.2

theorem Stored.freqSum_evicted (s : c.Stored members) (hn : n ∈ c.nodes) :
    (c.evicted n).freqSum = c.freqSum - (c.heap n).freq := by
  have hperm := (s.nodes_evicted hn).map fun n => (c.heap n).freq
  have hfreq : (c.evicted n).nodes.map (fun a => ((c.evicted n).heap a).freq) =
      (c.evicted n).nodes.map fun a => (c.heap a).freq :=
    List.map_congr_left fun a _ => (FreqList.sameData_removeNode c.heap n a).1
  rw [freqSum, hfreq, freqSum, hperm.sum_eq, List.map_cons, List.sum_cons]
  omega

theorem Stored.size_evicted (s : c.Stored members) (hn : n ∈ c.nodes) :
    (c.evicted n).size + 1 = c.size := by
  rw [← length_nodes, ← length_nodes, (s.nodes_evicted hn).length_eq, List.length_cons]

end Keys

/-! ## Up to the counting -/

/-- What a call does before it counts its access: one frequency has grown, or there is a node
more. -/
structure Accessed (c t : LfuCache Key Value) : Prop where
  capacity_ : t.capacity_ = c.capacity_
  maxAverageNum_ : t.maxAverageNum_ = c.maxAverageNum_
  surplus : t.curTotalNum_ + 1 - t.freqSum = c.curTotalNum_ - c.freqSum
  total_le : t.curTotalNum_ ≤ c.curTotalNum_
  total_nonneg : 0 ≤ t.curTotalNum_
  total_lt : t.curTotalNum_ < 2 ^ 31 - 1
  nodes : t.nodes ≠ []
  one_le_freq : ∀ n ∈ t.nodes, 1 ≤ (t.heap n).freq
  size_le : t.size ≤ toSize_t t.capacity_
  low : ∀ m ≥ 1, (c.nodes ≠ [] → ∃ n ∈ c.nodes, (c.heap n).freq ≤ m) →
    ∃ n ∈ t.nodes, (t.heap n).freq ≤ m + 1

theorem Stored.mem_members (s : c.Stored members) (hn : n ∈ c.nodes) :
    n ∈ members (c.heap n).freq := by
  obtain ⟨k, hk⟩ := mem_nodes.mp hn
  exact s.lists.mem_iff.mpr ⟨s.listed k n hk, rfl⟩

theorem Exact.minTrue_touched (s : c.Exact members) (hn : n ∈ c.nodes) (hf : n ∈ members f)
    (ht : Touched c t members n f) : t.MinTrue := by
  intro _
  have hfreq := s.stored.lists.freq f n hf
  have hnodes := nodes_of_eq ht.keeps.nodeMap_
  obtain ⟨⟨m, hm, hmin⟩, hall⟩ := s.minTrue (List.ne_nil_of_mem hn)
  have hother : ∀ a ∈ c.nodes, a ≠ n → (t.heap a).freq = (c.heap a).freq := fun a ha hne =>
    ht.freq_of_ne a (s.stored.lt_of_mem_nodes ha) hne
  have hleft : ∀ a, a ∈ moved members n f (f + 1) f ↔ a ≠ n ∧ a ∈ members f := by
    intro a
    rw [s.stored.lists.mem_moved hf]
    simp
  have hself := hall n hn
  rw [hnodes, ht.minFreq_]
  by_cases hcond : f = c.minFreq_ ∧ moved members n f (f + 1) f = []
  · rw [if_pos hcond]
    refine ⟨⟨n, hn, by rw [ht.freq_self, hcond.1]⟩, ?_⟩
    intro a ha
    by_cases han : a = n
    · rw [han, ht.freq_self, hcond.1]
    · -- nothing else is left in the list under the old minimum
      have hge := hall a ha
      have hne : (c.heap a).freq ≠ c.minFreq_ := by
        intro heq
        have hin := (hleft a).mpr ⟨han, hcond.1 ▸ heq ▸ s.stored.mem_members ha⟩
        rw [hcond.2] at hin
        exact List.not_mem_nil hin
      rw [hother a ha han]
      omega
  · rw [if_neg hcond]
    constructor
    · by_cases hmn : m = n
      · subst hmn
        obtain ⟨a, ha⟩ := List.exists_mem_of_ne_nil _ fun hnil => hcond ⟨by omega, hnil⟩
        obtain ⟨hne, hin⟩ := (hleft a).mp ha
        have hmem := s.only a ⟨f, hin⟩
        refine ⟨a, hmem, ?_⟩
        rw [hother a hmem hne, s.stored.lists.freq f a hin]
        omega
      · exact ⟨m, hm, (hother m hm hmn).trans hmin⟩
    · intro a ha
      by_cases han : a = n
      · rw [han, ht.freq_self]
        omega
      · rw [hother a ha han]
        exact hall a ha

theorem Exact.accessed_touched (s : c.Exact members) (hn : n ∈ c.nodes) (hf : n ∈ members f)
    (ht : Touched c t members n f) (hroom : c.curTotalNum_ < 2 ^ 31 - 1) : Accessed c t where
  capacity_ := ht.keeps.capacity_
  maxAverageNum_ := ht.keeps.maxAverageNum_
  surplus := by
    rw [ht.freqSum s.stored hn hf, ht.keeps.curTotalNum_]
    omega
  total_le := Int.le_of_eq ht.keeps.curTotalNum_
  total_nonneg := by
    have hsize := s.stored.size_le_freqSum
    have hle := s.freqSum_le
    rw [ht.keeps.curTotalNum_]
    omega
  total_lt := ht.keeps.curTotalNum_ ▸ hroom
  nodes := by
    rw [nodes_of_eq ht.keeps.nodeMap_]
    exact List.ne_nil_of_mem hn
  one_le_freq _ := ht.stored.one_le_freq
  size_le := by
    rw [size_of_eq ht.keeps.nodeMap_, ht.keeps.capacity_]
    exact s.size_le
  low m _ hlow := by
    obtain ⟨a, ha, hle⟩ := hlow (List.ne_nil_of_mem hn)
    rw [nodes_of_eq ht.keeps.nodeMap_]
    refine ⟨a, ha, ?_⟩
    by_cases han : a = n
    · subst han
      rw [ht.freq_self, ← s.stored.lists.freq f a hf]
      omega
    · rw [ht.freq_of_ne a (s.stored.lt_of_mem_nodes ha) han]
      omega

/-- The cache with room for one more node. -/
structure Room (c e : LfuCache Key Value) (members : ℤ → List ℕ) : Prop where
  stored : e.Stored members
  only : ∀ n, Listed members n → n ∈ e.nodes
  capacity_ : e.capacity_ = c.capacity_
  maxAverageNum_ : e.maxAverageNum_ = c.maxAverageNum_
  minFreq_ : e.minFreq_ = c.minFreq_
  nodeMap_ : ∀ k, k ∉ c.nodeMap_ → k ∉ e.nodeMap_
  surplus : e.curTotalNum_ - e.freqSum = c.curTotalNum_ - c.freqSum
  total_le : e.curTotalNum_ ≤ c.curTotalNum_
  total_lt : e.curTotalNum_ < 2 ^ 31 - 1
  size_lt : e.size < toSize_t e.capacity_
  shape : c.size ≠ toSize_t c.capacity_ ∧ e.freqSum = c.freqSum ∧ e.size = c.size ∨
    c.size = toSize_t c.capacity_ ∧ e.freqSum < c.freqSum ∧ e.size + 1 = c.size

section Keys

variable [DecidableEq Key] {k : Key} {v : Value}

/-- The node that is kicked out is the first of those with the smallest frequency. -/
theorem Exact.kickOut (s : c.Exact members) (hcap : c.capacity_ ≠ 0)
    (hfull : c.size = toSize_t c.capacity_) :
    ∃ n ms, members c.minFreq_ = n :: ms ∧ c.kickOut = some (c.evicted n) := by
  have hpos := s.capacity hcap
  have hnodes : c.nodes ≠ [] := by
    intro hnil
    rw [← hfull, ← length_nodes, hnil] at hpos
    exact hpos rfl
  obtain ⟨hmem, hone⟩ := s.min_mem fun hnil => hnodes (nodes_eq_nil.mpr hnil)
  obtain ⟨l, hlookup⟩ := Option.isSome_iff_exists.mp (AList.lookup_isSome.mpr hmem)
  obtain ⟨⟨m, hm, hmin⟩, -⟩ := s.minTrue hnodes
  have hkick := kickOut_eq s.stored.lists hlookup hone
  cases hms : members c.minFreq_ with
  | nil =>
      have hin := s.stored.mem_members hm
      rw [hmin, hms] at hin
      exact absurd hin List.not_mem_nil
  | cons n ms =>
      rw [hms, List.headD_cons] at hkick
      exact ⟨n, ms, rfl, hkick⟩

theorem Exact.total_evicted (s : c.Exact members) (hn : n ∈ c.nodes) :
    (c.evicted n).curTotalNum_ = c.curTotalNum_ - (c.heap n).freq := by
  have hpos := s.stored.one_le_freq hn
  have hfreq := s.stored.freq_le_freqSum hn
  have hle := s.freqSum_le
  have hlt := s.total_lt
  change toInt (c.curTotalNum_ - (c.heap n).freq) = _
  exact toInt_of_mem (by omega) (by omega)

theorem Exact.room_evicted (s : c.Exact members) (hfull : c.size = toSize_t c.capacity_)
    (hn : n ∈ members f) :
    Room c (c.evicted n) (Function.update members f ((members f).erase n)) := by
  have hin := s.only n ⟨f, hn⟩
  have hsize := s.stored.size_evicted hin
  have hsum := s.stored.freqSum_evicted hin
  have hfreq := s.stored.one_le_freq hin
  have hle := s.size_le
  have htotal := s.total_evicted hin
  have hlt := s.total_lt
  refine ⟨s.stored.evicted_of_mem hn, ?_, rfl, rfl, rfl, ?_, by omega, by omega, by omega, ?_,
    .inr ⟨hfull, by omega, hsize⟩⟩
  · intro a ⟨g, ha⟩
    obtain ⟨hne, ha⟩ := (s.stored.lists.mem_erase hn).mp ha
    have hmem := (s.stored.nodes_evicted hin).mem_iff.mp (s.only a ⟨g, ha⟩)
    exact (List.mem_cons.mp hmem).resolve_left hne
  · intro k' hk' hmem
    exact hk' (AList.mem_erase.mp hmem).2
  · change (c.evicted n).size < toSize_t c.capacity_
    omega

omit [DecidableEq Key] in
theorem Exact.room_of_free (s : c.Exact members) (hfree : c.size ≠ toSize_t c.capacity_)
    (hroom : c.curTotalNum_ < 2 ^ 31 - 1) : Room c c members := by
  have hle := s.size_le
  exact ⟨s.stored, s.only, rfl, rfl, rfl, fun _ h => h, rfl, Int.le_refl _, hroom, by omega,
    .inl ⟨hfree, rfl, rfl⟩⟩

theorem Exact.room (s : c.Exact members) (hcap : c.capacity_ ≠ 0)
    (hroom : c.size ≠ toSize_t c.capacity_ → c.curTotalNum_ < 2 ^ 31 - 1) :
    ∃ e members', (if c.size = toSize_t c.capacity_ then c.kickOut else some c) = some e ∧
      Room c e members' := by
  by_cases hfull : c.size = toSize_t c.capacity_
  · obtain ⟨n, ms, hms, hkick⟩ := s.kickOut hcap hfull
    exact ⟨_, _, by rw [if_pos hfull, hkick],
      s.room_evicted hfull (f := c.minFreq_) (by simp [hms])⟩
  · exact ⟨c, members, if_neg hfull, s.room_of_free hfull (hroom hfull)⟩

theorem Room.accessed {e : LfuCache Key Value} (hr : Room c e members)
    (hi : Inserted e t members k v) (hk : k ∉ c.nodeMap_) (hsum : c.freqSum ≤ c.curTotalNum_) :
    Accessed c t where
  capacity_ := hi.capacity_.trans hr.capacity_
  maxAverageNum_ := hi.maxAverageNum_.trans hr.maxAverageNum_
  surplus := by
    have hsurplus := hr.surplus
    rw [hi.freqSum hr.stored (hr.nodeMap_ k hk), hi.curTotalNum_]
    omega
  total_le := hi.curTotalNum_ ▸ hr.total_le
  total_nonneg := by
    have hsize := hr.stored.size_le_freqSum
    have hsurplus := hr.surplus
    rw [hi.curTotalNum_]
    omega
  total_lt := hi.curTotalNum_ ▸ hr.total_lt
  nodes := by simp [hi.nodes (hr.nodeMap_ k hk)]
  one_le_freq _ := hi.stored.one_le_freq
  size_le := by
    have hlt := hr.size_lt
    rw [← length_nodes, hi.nodes (hr.nodeMap_ k hk), List.length_cons, length_nodes, hi.capacity_]
    omega
  low m hm _ := by
    refine ⟨e.allocated, by simp [hi.nodes (hr.nodeMap_ k hk)], ?_⟩
    rw [hi.new.1]
    omega

/-- There is a node more, or another one in the place of one with the smallest frequency. -/
def Inserts (c t : LfuCache Key Value) : Prop :=
  c.size ≠ toSize_t c.capacity_ ∧ t.freqSum = c.freqSum + 1 ∧ t.size = c.size + 1 ∨
    c.size = toSize_t c.capacity_ ∧ t.freqSum ≤ c.freqSum ∧ t.size = c.size

theorem Room.inserts {e : LfuCache Key Value} (hr : Room c e members)
    (hi : Inserted e t members k v) (hk : k ∉ c.nodeMap_) :
    Inserts c t := by
  have hsum := hi.freqSum hr.stored (hr.nodeMap_ k hk)
  have hsize : t.size = e.size + 1 := by
    rw [← length_nodes, hi.nodes (hr.nodeMap_ k hk), List.length_cons, length_nodes]
  rcases hr.shape with ⟨hfree, hsame, hs⟩ | ⟨hfull, hless, hs⟩
  · exact .inl ⟨hfree, by omega, by omega⟩
  · exact .inr ⟨hfull, by omega, by omega⟩

theorem Room.only_inserted {e : LfuCache Key Value} (hr : Room c e members)
    (hi : Inserted e t members k v) (hk : k ∉ c.nodeMap_) :
    ∀ n, Listed (Function.update members 1 (members 1 ++ [e.allocated])) n → n ∈ t.nodes := by
  intro n ⟨f, hn⟩
  rw [hi.nodes (hr.nodeMap_ k hk), List.mem_cons]
  by_cases hf : f = 1
  · subst hf
    rw [Function.update_self, List.mem_append, List.mem_singleton] at hn
    rcases hn with hn | hn
    · exact .inr (hr.only n ⟨1, hn⟩)
    · exact .inl hn
  · rw [Function.update_of_ne hf] at hn
    exact .inr (hr.only n ⟨f, hn⟩)

end Keys

/-! ## The counting -/

/-- What is left once the access has been counted. -/
structure Settled (t d : LfuCache Key Value) : Prop where
  capacity_ : d.capacity_ = t.capacity_
  maxAverageNum_ : d.maxAverageNum_ = t.maxAverageNum_
  nodes : d.nodes = t.nodes
  curTotalNum_ : d.curTotalNum_ = t.curTotalNum_ + 1
  curAverageNum_ : d.curAverageNum_ = t.counted.curAverageNum_
  freq : ¬ t.Ages → ∀ n ∈ t.nodes, (d.heap n).freq = (t.heap n).freq
  aged : t.Ages → ∀ n ∈ t.nodes, (d.heap n).freq = aged t.maxAverageNum_ (t.heap n).freq

/-- A pass over the nodes leaves a frequency that `updateMinFreq` does not overlook. -/
def AgesWell (t : LfuCache Key Value) : Prop :=
  t.Ages → ∃ n ∈ t.nodes, aged t.maxAverageNum_ (t.heap n).freq < INT8_MAX

theorem Accessed.freq_lt (ha : Accessed c t) (s : t.Stored members)
    (hsum : c.freqSum ≤ c.curTotalNum_) (hn : n ∈ t.nodes) : (t.heap n).freq < 2 ^ 31 := by
  have hfreq := s.freq_le_freqSum hn
  have hsurplus := ha.surplus
  have hlt := ha.total_lt
  omega

theorem Counted.settled (h : Counted t d members members') (s : t.Stored members)
    (ha : Accessed c t) (hsum : c.freqSum ≤ c.curTotalNum_) (hmax : 0 ≤ t.maxAverageNum_)
    (hmax' : t.maxAverageNum_ < 2 ^ 31) : Settled t d where
  capacity_ := h.keeps.capacity_
  maxAverageNum_ := h.keeps.maxAverageNum_
  nodes := nodes_of_eq h.keeps.nodeMap_
  curTotalNum_ := h.keeps.curTotalNum_.trans (increment_of_lt ha.total_lt)
  curAverageNum_ := h.keeps.curAverageNum_
  freq hages n _ := by
    rw [h.of_not_ages hages]
    rfl
  aged hages n hn := by
    rw [h.freq hages n (s.lt_of_mem_nodes hn), if_pos hn,
      agedFreq_eq hmax hmax' (s.one_le_freq hn) (ha.freq_lt s hsum hn)]

/-- The new node has the frequency 1 after the counting as well. -/
theorem Settled.freq_new (h : Settled t d) (hmax : 0 ≤ t.maxAverageNum_) (hn : n ∈ t.nodes)
    (hone : (t.heap n).freq = 1) : (d.heap n).freq = 1 := by
  by_cases hages : t.Ages
  · rw [h.aged hages n hn, hone]
    have hle := aged_le hmax (Int.le_refl 1)
    have hge := one_le_aged t.maxAverageNum_ 1
    omega
  · rw [h.freq hages n hn, hone]

theorem Settled.freqSum_le (h : Settled t d) (ha : Accessed c t) (hmax : 0 ≤ t.maxAverageNum_) :
    d.freqSum ≤ t.freqSum := by
  apply freqSum_le_of_le h.nodes
  intro n hn
  by_cases hages : t.Ages
  · rw [h.aged hages n hn]
    exact aged_le hmax (ha.one_le_freq n hn)
  · rw [h.freq hages n hn]

theorem Settled.size (h : Settled t d) : d.size = t.size := by
  rw [← length_nodes, h.nodes, length_nodes]

/-- What `updateMinFreq` finds is right where there is a frequency below `INT8_MAX`. -/
theorem minTrue_of_foundMin (s : d.Stored members) (honly : ∀ n, Listed members n → n ∈ d.nodes)
    (hfound : FoundMin members d.minFreq_) (hlow : ∃ n ∈ d.nodes, (d.heap n).freq < INT8_MAX) :
    d.MinTrue := by
  obtain ⟨a, ha, hlt⟩ := hlow
  rcases hfound with ⟨⟨hne, hmin⟩, -⟩ | ⟨-, hall⟩
  · intro _
    obtain ⟨m, hm⟩ := List.exists_mem_of_ne_nil _ hne
    refine ⟨⟨m, honly m ⟨_, hm⟩, s.lists.freq _ m hm⟩, ?_⟩
    intro n hn
    exact hmin _ (List.ne_nil_of_mem (s.mem_members hn))
  · have hge := hall _ (List.ne_nil_of_mem (s.mem_members ha))
    omega

theorem Counted.minTrue (h : Counted t d members members') (hsettled : Settled t d)
    (honly : ∀ n, Listed members n → n ∈ t.nodes) (hmin : t.MinTrue) (hwell : t.AgesWell) :
    d.MinTrue := by
  by_cases hages : t.Ages
  · refine minTrue_of_foundMin h.stored ?_ (h.found hages) ?_
    · intro n hn
      rw [hsettled.nodes]
      exact honly n ((h.listed n).mp hn)
    · obtain ⟨n, hn, hlt⟩ := hwell hages
      exact ⟨n, hsettled.nodes ▸ hn, hsettled.aged hages n hn ▸ hlt⟩
  · rw [h.of_not_ages hages]
    exact hmin

theorem Exact.of_settled (s : c.Exact members) (ha : Accessed c t)
    (h : Settled t d) (hmax : 0 ≤ t.maxAverageNum_) :
    d.freqSum ≤ d.curTotalNum_ ∧ d.curTotalNum_ < 2 ^ 31 ∧ d.size ≤ toSize_t d.capacity_ := by
  have hlt := ha.total_lt
  have hle := h.freqSum_le ha hmax
  have hsurplus := ha.surplus
  have hold := s.freqSum_le
  have hsize := ha.size_le
  rw [h.curTotalNum_, h.size, h.capacity_]
  exact ⟨by omega, by omega, hsize⟩

/-! ## A call -/

section Call

variable [DecidableEq Key]

omit [DecidableEq Key] in
theorem Exact.purge (s : c.Exact members) : c.purge.Exact fun _ => [] where
  toSound := s.toSound.purge
  only n hn := absurd hn (by simp [Listed])
  minTrue h := absurd rfl h
  freqSum_le := by
    have hle := s.freqSum_le
    have hsize := s.stored.size_le_freqSum
    change (0 : ℤ) ≤ c.curTotalNum_
    omega
  total_lt := s.total_lt
  size_le := Nat.zero_le _

omit [DecidableEq Key] in
theorem freqSum_withValue (c : LfuCache Key Value) (n : ℕ) (v : Value) :
    (c.withValue n v).freqSum = c.freqSum :=
  freqSum_of_eq rfl fun a _ => freq_withValue c n v a

omit [DecidableEq Key] in
theorem Exact.withValue (s : c.Exact members) (n : ℕ) (v : Value) :
    (c.withValue n v).Exact members := by
  refine ⟨s.toSound.withValue n v, s.only, ?_, ?_, s.total_lt, s.size_le⟩
  · simp only [MinTrue, freq_withValue]
    exact s.minTrue
  · rw [freqSum_withValue]
    exact s.freqSum_le

omit [DecidableEq Key] in
theorem Accessed.of_withValue {v : Value} (h : Accessed (c.withValue n v) t) : Accessed c t where
  capacity_ := h.capacity_
  maxAverageNum_ := h.maxAverageNum_
  surplus := freqSum_withValue c n v ▸ h.surplus
  total_le := h.total_le
  total_nonneg := h.total_nonneg
  total_lt := h.total_lt
  nodes := h.nodes
  one_le_freq := h.one_le_freq
  size_le := h.size_le
  low m hm hlow := h.low m hm (by simp only [freq_withValue]; exact hlow)

variable [Inhabited Key] [Inhabited Value] {k : Key} {v : Value}

/-- The cache at the point where a call counts its access, for a call that does. -/
def access (c : LfuCache Key Value) : CacheCall Key Value → Option (LfuCache Key Value)
  | .put _ k v =>
      match c.nodeMap_.lookup k with
      | some n => (c.withValue n v).touch n
      | none =>
          (if c.size = toSize_t c.capacity_ then c.kickOut else some c).bind fun c => c.store k v
  | .get _ k => (c.nodeMap_.lookup k).bind fun n => c.touch n
  | .purge => none

omit [DecidableEq Key] [Inhabited Key] [Inhabited Value] in
/-- The call finds its key. -/
def Hits (c : LfuCache Key Value) : CacheCall Key Value → Prop
  | .put _ k _ => k ∈ c.nodeMap_
  | .get _ k => k ∈ c.nodeMap_
  | .purge => False

/-- The call counts an access, and no entry has to go for it. -/
def Raises (c : LfuCache Key Value) : CacheCall Key Value → Prop
  | .put _ k _ => k ∈ c.nodeMap_ ∨ c.size ≠ toSize_t c.capacity_
  | .get _ k => k ∈ c.nodeMap_
  | .purge => False

/-- What a call does: it counts no access, or it touches a node, or it inserts one, in the place
of another if the cache is full. -/
inductive Outcome (c d : LfuCache Key Value) (op : CacheCall Key Value) : Prop
  | idle (h : c.access op = none) (hmiss : ¬ c.Hits op)
      (hd : op ≠ .purge ∧ d = c ∨ op = .purge ∧ d = c.purge)
  | touches (t : LfuCache Key Value) (h : c.access op = some t) (hhit : c.Hits op)
      (ha : Accessed c t) (hsum : t.freqSum = c.freqSum + 1) (hsize : t.size = c.size)
      (hd : Settled t d)
  | inserts (t : LfuCache Key Value) (h : c.access op = some t) (hmiss : ¬ c.Hits op)
      (ha : Accessed c t) (hshape : Inserts c t) (hd : Settled t d)

omit [DecidableEq Key] in
theorem Exact.getInternal (s : c.Exact members) (o : IterationOrders Key) (hn : n ∈ c.nodes)
    (hmax : 0 ≤ c.maxAverageNum_) (hroom : c.curTotalNum_ < 2 ^ 31 - 1) :
    ∃ t d members', c.touch n = some t ∧ c.getInternal o n = some (d, (c.heap n).value) ∧
      (t.AgesWell → d.Exact members') ∧ Accessed c t ∧ t.freqSum = c.freqSum + 1 ∧
      t.size = c.size ∧ Settled t d := by
  have hf := s.stored.mem_members hn
  have hfreq := s.stored.freq_le_freqSum hn
  have hsum := s.freqSum_le
  obtain ⟨t, htouch, ht⟩ := s.stored.touch hf (by omega)
  obtain ⟨d, members', hadd, hd⟩ := ht.stored.addFreqNum o
  have hnodes := nodes_of_eq ht.keeps.nodeMap_
  have haccessed := s.accessed_touched hn hf ht hroom
  have hsettled := hd.settled ht.stored haccessed hsum (haccessed.maxAverageNum_ ▸ hmax)
    (haccessed.maxAverageNum_ ▸ s.max_lt)
  have honly : ∀ a, Listed (moved members n (c.heap n).freq ((c.heap n).freq + 1)) a →
      a ∈ t.nodes := by
    intro a ha
    rw [hnodes]
    exact s.only a ((s.stored.lists.listed_moved hf).mp ha)
  obtain ⟨htotal, hlt, hsize⟩ := s.of_settled haccessed hsettled
    (haccessed.maxAverageNum_ ▸ hmax)
  refine ⟨t, d, members', htouch, by simp [getInternal_eq, htouch, hadd], ?_, haccessed,
    ht.freqSum s.stored hn hf, size_of_eq ht.keeps.nodeMap_, hsettled⟩
  intro hwell
  refine ⟨?_, ?_, ?_, htotal, hlt, hsize⟩
  · exact s.toSound.of_counted ht hd (s.stored.one_le_freq hn)
      fun hnil => List.ne_nil_of_mem hn (nodes_eq_nil.mpr hnil)
  · intro a ha
    rw [hsettled.nodes]
    exact honly a ((hd.listed a).mp ha)
  · exact hd.minTrue hsettled honly (s.minTrue_touched hn hf ht) hwell

theorem Exact.putInternal (s : c.Exact members) (o : IterationOrders Key) (hcap : c.capacity_ ≠ 0)
    (hmax : 0 ≤ c.maxAverageNum_)
    (hroom : c.size ≠ toSize_t c.capacity_ → c.curTotalNum_ < 2 ^ 31 - 1) (hk : k ∉ c.nodeMap_) :
    ∃ t d members',
      ((if c.size = toSize_t c.capacity_ then c.kickOut else some c).bind fun c => c.store k v) =
        some t ∧
      c.putInternal o k v = some d ∧ d.Exact members' ∧ Accessed c t ∧
      Inserts c t ∧ Settled t d := by
  obtain ⟨e, members₁, hroom, hr⟩ := s.room hcap hroom
  obtain ⟨t, hstore, hi⟩ := hr.stored.store (v := v) (hr.nodeMap_ k hk)
  obtain ⟨d, members', hadd, hd⟩ := hi.stored.addFreqNum o
  have haccessed := hr.accessed hi hk s.freqSum_le
  have hmaxlt : t.maxAverageNum_ < 2 ^ 31 := haccessed.maxAverageNum_ ▸ s.max_lt
  have hsettled := hd.settled hi.stored haccessed s.freqSum_le (haccessed.maxAverageNum_ ▸ hmax)
    hmaxlt
  have honly := hr.only_inserted hi hk
  have hpos : 1 ≤ t.minFreq_ := by
    rw [hi.minFreq_, hr.minFreq_]
    exact s.min_pos
  have hsettled' : Settled t { d with minFreq_ := min d.minFreq_ 1 } :=
    ⟨hsettled.capacity_, hsettled.maxAverageNum_, hsettled.nodes, hsettled.curTotalNum_,
      hsettled.curAverageNum_, hsettled.freq, hsettled.aged⟩
  obtain ⟨htotal, hlt, hsize⟩ := s.of_settled haccessed hsettled'
    (haccessed.maxAverageNum_ ▸ hmax)
  have hnew : e.allocated ∈ t.nodes := by simp [hi.nodes (hr.nodeMap_ k hk)]
  refine ⟨t, _, members', by rw [hroom]; exact hstore, ?_, ⟨?_, ?_, ?_, htotal, hlt, hsize⟩,
    haccessed, hr.inserts hi hk, hsettled'⟩
  · rw [putInternal_eq, hroom, Option.bind_some, hstore, Option.bind_some, hadd]
    rfl
  · refine hd.sound hi.mem_lists hpos ?_ hmaxlt
    rw [hi.capacity_, hr.capacity_]
    exact s.capacity
  · intro a ha
    exact hsettled'.nodes ▸ honly a ((hd.listed a).mp ha)
  · -- the new node has the frequency 1, with a pass over the nodes as well
    intro _
    simp only [hd.min_eq hpos]
    refine ⟨⟨e.allocated, hsettled'.nodes ▸ hnew, ?_⟩, fun a ha => hd.stored.one_le_freq ha⟩
    exact hsettled'.freq_new (haccessed.maxAverageNum_ ▸ hmax) hnew hi.new.1

/-- The step lemma: with a pass that leaves no frequency below `INT8_MAX` only the outcome is
certain. -/
theorem Exact.call (s : c.Exact members) (op : CacheCall Key Value) (hcap : c.capacity_ ≠ 0)
    (hmax : 0 ≤ c.maxAverageNum_) (hroom : c.Raises op → c.curTotalNum_ < 2 ^ 31 - 1) :
    ∃ d members', c.call op = some d ∧ Outcome c d op ∧
      ((∀ t, c.access op = some t → t.AgesWell) → d.Exact members') := by
  cases op with
  | put o k v =>
      simp only [LfuCache.call, LfuCache.put, if_neg hcap]
      cases hk : c.nodeMap_.lookup k with
      | none =>
          have hmiss := AList.lookup_eq_none.mp hk
          obtain ⟨t, d, members', ht, hput, hd, ha, hshape, hs⟩ :=
            s.putInternal (v := v) o hcap hmax (fun hfree => hroom (.inr hfree)) hmiss
          exact ⟨d, members', hput, .inserts t (by simp only [access, hk, ht]) hmiss ha hshape hs,
            fun _ => hd⟩
      | some n =>
          have hn : n ∈ (c.withValue n v).nodes := mem_nodes.mpr ⟨k, mem_entries hk⟩
          have hhit : k ∈ c.nodeMap_ := AList.lookup_isSome.mp (by simp [hk])
          obtain ⟨t, d, members', ht, hget, hd, ha, hsum, hsize, hs⟩ :=
            (s.withValue n v).getInternal o hn hmax (hroom (.inl hhit))
          have haccess : c.access (.put o k v) = some t := by simp only [access, hk, ht]
          refine ⟨d, members', ?_, .touches t haccess hhit ha.of_withValue
            (by rw [hsum, freqSum_withValue]) hsize hs, fun hwell => hd (hwell t haccess)⟩
          change ((c.withValue n v).getInternal o n).map Prod.fst = some d
          rw [hget]
          rfl
  | get o k =>
      simp only [LfuCache.call, LfuCache.get]
      cases hk : c.nodeMap_.lookup k with
      | none =>
          exact ⟨c, members, rfl, .idle (by simp [access, hk]) (AList.lookup_eq_none.mp hk)
            (.inl ⟨by simp, rfl⟩), fun _ => s⟩
      | some n =>
          have hn : n ∈ c.nodes := mem_nodes.mpr ⟨k, mem_entries hk⟩
          have hhit : k ∈ c.nodeMap_ := AList.lookup_isSome.mp (by simp [hk])
          obtain ⟨t, d, members', ht, hget, hd, ha, hsum, hsize, hs⟩ :=
            s.getInternal o hn hmax (hroom hhit)
          have haccess : c.access (.get o k) = some t := by simp [access, hk, ht]
          exact ⟨d, members', by simp [hget], .touches t haccess hhit ha hsum hsize hs,
            fun hwell => hd (hwell t haccess)⟩
  | purge => exact ⟨c.purge, _, rfl, .idle rfl not_false (.inr ⟨rfl, rfl⟩), fun _ => s.purge⟩

end Call

end LfuCache

end CkServer
