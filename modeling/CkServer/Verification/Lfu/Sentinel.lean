import CkServer.Verification.Lfu.Runs

/-! # The smallest frequency

`updateMinFreq` starts from `INT8_MAX`, and takes it for "no node" at the end. A run can leave
the cache with no frequency below it exactly if the bound on the average is 0, 1 or from 251 on;
with the largest `int` for a bound the pass over the nodes never happens. -/

namespace CkServer

namespace LfuCache

variable {Key Value : Type} {c d t : LfuCache Key Value} {members members' : ℤ → List ℕ} {n : ℕ}
  {f : ℤ}

/-- `minFreq_` is the smallest frequency, and its list is there for `kickOut`. -/
def MinFound (c : LfuCache Key Value) : Prop :=
  c.nodes ≠ [] → (∃ n ∈ c.nodes, (c.heap n).freq = c.minFreq_) ∧
    (∀ n ∈ c.nodes, c.minFreq_ ≤ (c.heap n).freq) ∧
    ∃ l, c.freqToFreqList_.lookup c.minFreq_ = some l ∧ l.isEmpty c.heap = false

theorem Exact.minFound (s : c.Exact members) : c.MinFound := by
  intro hne
  obtain ⟨⟨n, hn, hmin⟩, hall⟩ := s.minTrue hne
  refine ⟨⟨n, hn, hmin⟩, hall, ?_⟩
  have hin := s.stored.mem_members hn
  rw [hmin] at hin
  obtain ⟨l, hlookup⟩ := s.stored.lists.lookup_of_mem hin
  refine ⟨l, hlookup, ?_⟩
  rw [← Bool.not_eq_true, FreqList.isEmpty_iff (s.stored.lists.chain _ l hlookup)]
  exact List.ne_nil_of_mem hin

variable [DecidableEq Key] [Inhabited Key] [Inhabited Value] {capacity maxAverageNum : Int32}

/-! ## A hot key -/

/-- One key, all of whose accesses are in its frequency. -/
structure Hot (c : LfuCache Key Value) (members : ℤ → List ℕ) (n : ℕ) (f : ℤ) : Prop where
  exact : c.Exact members
  lookup : c.nodeMap_.lookup default = some n
  nodes : c.nodes = [n]
  freq : (c.heap n).freq = f
  total : c.curTotalNum_ = f

omit [DecidableEq Key] [Inhabited Key] [Inhabited Value] in
theorem freqSum_of_nodes_eq_singleton (h : c.nodes = [n]) : c.freqSum = (c.heap n).freq := by
  simp [freqSum, h]

theorem Hot.get (h : Hot c members n f) (o : IterationOrders Key) (hmax : 0 ≤ c.maxAverageNum_)
    (hwell : f + 1 ≤ c.maxAverageNum_ ∨ c.maxAverageNum_ ≤ 1 ∧ f + 1 < INT8_MAX) :
    ∃ d members', c.call (.get o default) = some d ∧ Hot d members' n (f + 1) ∧
      d.maxAverageNum_ = c.maxAverageNum_ := by
  have hn : n ∈ c.nodes := by simp [h.nodes]
  have hint : INT8_MAX = 127 := rfl
  have hmaxlt := h.exact.max_lt
  have hroom : f < 2 ^ 31 - 1 := by omega
  obtain ⟨t, d, members', -, hget, hd, ha, hsum, hsize, hset⟩ :=
    h.exact.getInternal o hn hmax (h.total ▸ hroom)
  obtain ⟨d', _, hget', -, hsame, -⟩ :=
    h.exact.toSound.getInternal o h.lookup (h.freq ▸ hroom)
  have hdd : d' = d := by
    rw [hget, Option.some_inj, Prod.mk.injEq] at hget'
    exact hget'.1.symm
  subst hdd
  have hdnodes : d'.nodes = [n] := (nodes_of_eq hsame.nodeMap_).trans h.nodes
  have htnodes : t.nodes = [n] := hset.nodes.symm.trans hdnodes
  have hone : t.size = 1 := by rw [← length_nodes, htnodes, List.length_singleton]
  have hfsum := freqSum_of_nodes_eq_singleton h.nodes
  have hffreq := h.freq
  have hftotal := h.total
  have hpos := h.exact.stored.one_le_freq hn
  have htfreq : (t.heap n).freq = f + 1 := by
    rw [← freqSum_of_nodes_eq_singleton htnodes]
    omega
  have htotal : t.curTotalNum_ = f := by
    have hsurplus := ha.surplus
    omega
  have hhalf : c.maxAverageNum_ ≤ 1 → t.maxAverageNum_.tdiv 2 = 0 := by
    intro hle
    rw [ha.maxAverageNum_, Int.tdiv_eq_ediv_of_nonneg hmax]
    omega
  have hnotages : f + 1 ≤ c.maxAverageNum_ → ¬ t.Ages := by
    intro hle hages
    rw [ages_iff ha.total_nonneg ha.total_lt, hone, ha.maxAverageNum_] at hages
    omega
  have hagedsame : c.maxAverageNum_ ≤ 1 → aged t.maxAverageNum_ (t.heap n).freq = f + 1 := by
    intro hle
    rw [aged, hhalf hle, htfreq]
    omega
  have hdfreq : (d'.heap n).freq = f + 1 := by
    by_cases hages : t.Ages
    · rw [hset.aged hages n (by simp [htnodes])]
      rcases hwell with hle | ⟨hle, -⟩
      · exact absurd hages (hnotages hle)
      · exact hagedsame hle
    · rw [hset.freq hages n (by simp [htnodes]), htfreq]
  refine ⟨d', members', ?_, ⟨hd ?_, ?_, hdnodes, hdfreq, ?_⟩, ?_⟩
  · simp [LfuCache.call, LfuCache.get, h.lookup, hget]
  · intro hages
    rcases hwell with hle | ⟨hle, hlt⟩
    · exact absurd hages (hnotages hle)
    · exact ⟨n, by simp [htnodes], by rw [hagedsame hle]; exact hlt⟩
  · rw [hsame.nodeMap_]
    exact h.lookup
  · rw [hset.curTotalNum_, htotal]
  · rw [hset.maxAverageNum_, ha.maxAverageNum_]

/-- One more access makes the pass over the nodes happen, and it leaves a frequency from
`INT8_MAX` on. -/
theorem Hot.get_overlooked (h : Hot c members n f) (o : IterationOrders Key)
    (hmax : 0 ≤ c.maxAverageNum_) (hlt : f < 2 ^ 31 - 1) (hages : c.maxAverageNum_ < f + 1)
    (hge : INT8_MAX ≤ f + 1 - c.maxAverageNum_.tdiv 2) :
    ∃ d, c.call (.get o default) = some d ∧ ¬ d.MinFound := by
  have hn : n ∈ c.nodes := by simp [h.nodes]
  have hfreq := h.freq
  have hf : n ∈ members f := hfreq ▸ h.exact.stored.mem_members hn
  obtain ⟨t, htouch, ht⟩ := h.exact.stored.touch hf hlt
  obtain ⟨d, members', hadd, hd⟩ := ht.stored.addFreqNum o
  have ha := h.exact.accessed_touched hn hf ht (h.total ▸ hlt)
  have hset := hd.settled ht.stored ha h.exact.freqSum_le (ha.maxAverageNum_ ▸ hmax)
    (ha.maxAverageNum_ ▸ h.exact.max_lt)
  have htnodes : t.nodes = [n] := (nodes_of_eq ht.keeps.nodeMap_).trans h.nodes
  have hone : t.size = 1 := by rw [← length_nodes, htnodes, List.length_singleton]
  have hpos := h.exact.stored.one_le_freq hn
  have htotal : t.curTotalNum_ = f := ht.keeps.curTotalNum_.trans h.total
  have hages' : t.Ages := by
    rw [ages_iff ha.total_nonneg ha.total_lt, hone, ha.maxAverageNum_]
    omega
  have hdfreq : INT8_MAX ≤ (d.heap n).freq := by
    rw [hset.aged hages' n (by simp [htnodes]), aged, ht.freq_self, ha.maxAverageNum_]
    omega
  have hdnodes : d.nodes = [n] := hset.nodes.trans htnodes
  have honly : ∀ a, Listed members' a → a = n := by
    intro a ha
    have hin := h.exact.only a ((h.exact.stored.lists.listed_moved hf).mp ((hd.listed a).mp ha))
    simpa [h.nodes] using hin
  have hmin : d.minFreq_ = 1 := by
    rcases hd.found hages' with ⟨⟨hne, -⟩, hlt⟩ | ⟨hone, -⟩
    · obtain ⟨a, ha⟩ := List.exists_mem_of_ne_nil _ hne
      have han := honly a ⟨_, ha⟩
      subst han
      have heq := hd.stored.lists.freq _ a ha
      omega
    · exact hone
  refine ⟨d, by simp [LfuCache.call, LfuCache.get, h.lookup, getInternal_eq, htouch, hadd], ?_⟩
  intro hfound
  obtain ⟨⟨a, ha, heq⟩, -⟩ := hfound (by simp [hdnodes])
  rw [hdnodes, List.mem_singleton] at ha
  subst ha
  have hint : INT8_MAX = 127 := rfl
  omega

/-- A key is put, and then accessed again and again. -/
def hotCalls (Key Value : Type) [Inhabited Key] [Inhabited Value] (gets : ℕ) :
    List (CacheCall Key Value) :=
  .put .inOrder default default :: List.replicate gets (.get .inOrder default)

omit [DecidableEq Key] in
theorem hotCalls_succ [DecidableEq Key] (gets : ℕ) :
    hotCalls Key Value (gets + 1) = hotCalls Key Value gets ++ [.get .inOrder default] := by
  simp [hotCalls, List.replicate_succ']

variable (Key Value) in
theorem hot_put (hcap : 1 ≤ capacity.toInt) (hmax : 0 ≤ maxAverageNum.toInt) :
    ∃ c members n, (new capacity maxAverageNum).calls (hotCalls Key Value 0) = some c ∧
      Hot c members n 1 ∧ c.maxAverageNum_ = maxAverageNum.toInt := by
  let c₀ : LfuCache Key Value := new capacity maxAverageNum
  have hcap' : c₀.capacity_ ≠ 0 := by
    change capacity.toInt ≠ 0
    omega
  have hmiss : (default : Key) ∉ c₀.nodeMap_ := AList.notMem_empty default
  obtain ⟨t, d, members', -, hput, hd, ha, hshape, hset⟩ :=
    exact_new.putInternal (c := c₀) (v := default) .inOrder hcap' hmax
      (fun _ => by simp [c₀, new]) hmiss
  obtain ⟨d', _, hput', -, hcontents, -⟩ := (sound_new capacity maxAverageNum).putInternal
    (c := c₀) (k := default) (v := default) .inOrder hcap' hmiss
  have hcall : c₀.put .inOrder default default = some d := by
    rw [LfuCache.put, if_neg hcap', AList.lookup_eq_none.mpr hmiss]
    exact hput
  have hcalls : c₀.calls (hotCalls Key Value 0) = some d := by
    change c₀.calls [.put .inOrder default default] = some d
    simp [calls, LfuCache.call, hcall]
  have hdd : d' = d := Option.some_inj.mp (hput'.symm.trans hput)
  subst hdd
  have hzero : c₀.freqSum = 0 ∧ c₀.size = 0 ∧ c₀.curTotalNum_ = 0 := ⟨rfl, rfl, rfl⟩
  obtain ⟨hsum₀, hsize₀, htotal₀⟩ := hzero
  have hne := ha.size_ne_zero
  obtain ⟨hsum, hsize⟩ : t.freqSum = 1 ∧ t.size = 1 := by
    rcases hshape with ⟨-, hsum, hsize⟩ | ⟨-, -, hsize⟩
    · omega
    · omega
  obtain ⟨n, hnodes⟩ := List.length_eq_one_iff.mp ((length_nodes t).trans hsize)
  have hsurplus := ha.surplus
  have htfreq : (t.heap n).freq = 1 := (freqSum_of_nodes_eq_singleton hnodes).symm.trans hsum
  have hdnodes : d'.nodes = [n] := hset.nodes.trans hnodes
  refine ⟨d', members', n, hcalls, ⟨hd, ?_, hdnodes, ?_, ?_⟩, ?_⟩
  · have hvalue := hcontents.self
    rw [valueOf] at hvalue
    obtain ⟨m, hm, -⟩ := Option.map_eq_some_iff.mp hvalue
    have hmem : m ∈ d'.nodes := mem_nodes.mpr ⟨default, mem_entries hm⟩
    rw [hdnodes, List.mem_singleton] at hmem
    exact hmem ▸ hm
  · by_cases hages : t.Ages
    · rw [hset.aged hages n (by simp [hnodes]), htfreq]
      have hle := aged_le (m := t.maxAverageNum_) (by rw [ha.maxAverageNum_]; exact hmax)
        (Int.le_refl 1)
      have hge := one_le_aged t.maxAverageNum_ 1
      omega
    · rw [hset.freq hages n (by simp [hnodes]), htfreq]
  · rw [hset.curTotalNum_]
    omega
  · rw [hset.maxAverageNum_, ha.maxAverageNum_]
    rfl

variable (Key Value) in
theorem hot_calls (hcap : 1 ≤ capacity.toInt) (hmax : 0 ≤ maxAverageNum.toInt) (gets : ℕ)
    (hgets : (gets + 1 : ℤ) ≤ maxAverageNum.toInt ∨
      maxAverageNum.toInt ≤ 1 ∧ (gets + 1 : ℤ) < INT8_MAX) :
    ∃ c members n, (new capacity maxAverageNum).calls (hotCalls Key Value gets) = some c ∧
      Hot c members n (gets + 1) ∧ c.maxAverageNum_ = maxAverageNum.toInt := by
  induction gets with
  | zero =>
      obtain ⟨c, members, n, hcalls, hhot, hc⟩ := hot_put Key Value hcap hmax
      exact ⟨c, members, n, hcalls, by simpa using hhot, hc⟩
  | succ gets ih =>
      obtain ⟨c, members, n, hcalls, hhot, hc⟩ := ih (by push_cast at hgets; omega)
      obtain ⟨d, members', hcall, hd, hmax'⟩ := hhot.get .inOrder (by omega) (by
        rw [hc]
        push_cast at hgets
        exact hgets)
      refine ⟨d, members', n, ?_, by push_cast; exact hd, hmax'.trans hc⟩
      rw [hotCalls_succ, calls_concat, hcalls]
      exact hcall

/-! ## The bounds for which the smallest frequency is right -/

theorem minFound_of_bound (hcap : 1 ≤ capacity.toInt) (hbound : SafeAverage maxAverageNum)
    (ops : List (CacheCall Key Value)) (hlen : ops.length < 2 ^ 31) :
    ∃ c, (new capacity maxAverageNum).calls ops = some c ∧ c.MinFound := by
  have hcap' : capacity.toInt ≠ 0 := by omega
  obtain ⟨c, members, hc, -⟩ := reached_of_safe_average hcap' hbound ops hlen
  exact ⟨c, hc.calls, hc.exact.minFound⟩

variable (Key Value) in
/-- After one access more than `gets`, the pass over the nodes has overlooked the only node. -/
theorem hot_calls_overlooked (hcap : 1 ≤ capacity.toInt) (hmax : 0 ≤ maxAverageNum.toInt)
    (hlt : maxAverageNum.toInt < 2 ^ 31 - 1) (gets : ℕ)
    (hgets : (gets + 1 : ℤ) ≤ maxAverageNum.toInt ∨
      maxAverageNum.toInt ≤ 1 ∧ (gets + 1 : ℤ) < INT8_MAX)
    (hages : maxAverageNum.toInt < (gets + 1 : ℤ) + 1)
    (hge : INT8_MAX ≤ (gets + 1 : ℤ) + 1 - maxAverageNum.toInt.tdiv 2) :
    ∃ c, (new capacity maxAverageNum).calls (hotCalls Key Value (gets + 1)) = some c ∧
      ¬ c.MinFound := by
  obtain ⟨c, members, n, hcalls, hhot, hc⟩ :=
    hot_calls Key Value hcap hmax gets hgets
  have hint : INT8_MAX = 127 := rfl
  obtain ⟨d, hcall, hnot⟩ := hhot.get_overlooked .inOrder (by rwa [hc]) (by omega) (by omega)
    (by rw [hc]; exact hge)
  refine ⟨d, ?_, hnot⟩
  rw [hotCalls_succ, calls_concat, hcalls]
  exact hcall

variable (Key Value) in
theorem exists_min_not_found (capacity maxAverageNum : Int32) (hcap : 1 ≤ capacity.toInt)
    (hbound : 0 ≤ maxAverageNum.toInt ∧ maxAverageNum.toInt ≤ 1 ∨
      251 ≤ maxAverageNum.toInt ∧ maxAverageNum.toInt < 2 ^ 31 - 1) :
    ∃ gets, (hotCalls Key Value (gets + 1)).length < 2 ^ 31 ∧
      ∃ c, (new capacity maxAverageNum).calls (hotCalls Key Value (gets + 1)) = some c ∧
        ¬ c.MinFound := by
  have hint : INT8_MAX = 127 := rfl
  rcases hbound with ⟨hnonneg, hle⟩ | ⟨hge, hlt⟩
  · -- such a pass lowers nothing
    have hhalf : maxAverageNum.toInt.tdiv 2 = 0 := by
      rw [Int.tdiv_eq_ediv_of_nonneg hnonneg]
      omega
    exact ⟨125, by simp [hotCalls], hot_calls_overlooked Key Value hcap hnonneg (by omega) 125
      (by omega) (by omega) (by omega)⟩
  · -- the first pass leaves more than half of the bound
    have hhalf : maxAverageNum.toInt.tdiv 2 = maxAverageNum.toInt / 2 :=
      Int.tdiv_eq_ediv_of_nonneg (by omega)
    refine ⟨(maxAverageNum.toInt - 1).toNat, ?_, hot_calls_overlooked Key Value hcap (by omega)
      (by omega) _ (by omega) (by omega) (by omega)⟩
    simp only [hotCalls, List.length_cons, List.length_replicate]
    omega

/-- A bound of 300, and 301 accesses of the only key. -/
theorem min_not_found_hot : ∃ c, (new 1 300).calls (hotCalls ℕ ℕ 300) = some c ∧ ¬ c.MinFound :=
  hot_calls_overlooked ℕ ℕ (by decide) (by decide) (by decide) 299 (by decide) (by decide)
    (by decide)

/-- The smallest frequency is right in every run exactly for these bounds on the average. -/
theorem minFound_iff (hcap : 1 ≤ capacity.toInt) (hmax : 0 ≤ maxAverageNum.toInt) :
    (∀ ops : List (CacheCall Key Value), ops.length < 2 ^ 31 →
      ∃ c, (new capacity maxAverageNum).calls ops = some c ∧ c.MinFound) ↔
    2 ≤ maxAverageNum.toInt ∧ maxAverageNum.toInt ≤ 250 ∨ maxAverageNum.toInt = 2 ^ 31 - 1 := by
  constructor
  · intro hall
    by_contra hbound
    have hlt := maxAverageNum.toInt_lt
    obtain ⟨gets, hlen, c, hcalls, hnot⟩ :=
      exists_min_not_found Key Value capacity maxAverageNum hcap (by omega)
    obtain ⟨c', hcalls', hfound⟩ := hall (hotCalls Key Value (gets + 1)) hlen
    rw [hcalls, Option.some_inj] at hcalls'
    exact hnot (hcalls' ▸ hfound)
  · exact fun hbound ops hlen => minFound_of_bound hcap hbound ops hlen

/-- The default bound. -/
theorem minFound_iff_ten : (∀ ops : List (CacheCall ℕ ℕ), ops.length < 2 ^ 31 →
      ∃ c, (new 4 10).calls ops = some c ∧ c.MinFound) ↔
    2 ≤ (10 : Int32).toInt ∧ (10 : Int32).toInt ≤ 250 ∨ (10 : Int32).toInt = 2 ^ 31 - 1 :=
  minFound_iff (by decide) (by decide)

/-! ## A frequency that overflows -/

omit [DecidableEq Key] in
theorem mem_lists_of_addToFreqList {g : ℤ} (h : c.addToFreqList n = some d)
    (hg : g ∈ d.freqToFreqList_) : g = (c.heap n).freq ∨ g ∈ c.freqToFreqList_ := by
  simp only [addToFreqList, Option.bind_eq_bind, Option.bind_eq_some_iff] at h
  obtain ⟨l, -, heap, -, hd⟩ := h
  obtain rfl := Option.some_inj.mp hd
  by_cases hmem : (c.heap n).freq ∈ c.freqToFreqList_
  · simp only [hmem, ↓reduceIte] at hg
    exact .inr hg
  · simp only [hmem, ↓reduceIte, newFreqList, AList.mem_insert] at hg
    exact hg

/-- The frequency of the only key wraps, and `minFreq_` follows it. -/
theorem Hot.get_wraps (h : Hot c members n (2 ^ 31 - 1)) (o : IterationOrders Key)
    (hmost : c.maxAverageNum_ = 2 ^ 31 - 1) :
    ∃ d, c.call (.get o default) = some d ∧ d.minFreq_ = -2 ^ 31 ∧
      d.capacity_ = c.capacity_ ∧ d.maxAverageNum_ = c.maxAverageNum_ := by
  have hn : n ∈ c.nodes := by simp [h.nodes]
  have hf : n ∈ members (2 ^ 31 - 1) := h.freq ▸ h.exact.stored.mem_members hn
  obtain ⟨t, hmove, hmoved⟩ := h.exact.stored.lists.moveNode hf (-2 ^ 31)
  have hmem : 2 ^ 31 - 1 ∈ t.freqToFreqList_ := by
    obtain ⟨l, hl⟩ := h.exact.stored.lists.lookup_of_mem hf
    exact hmoved.keeps.lists _ (AList.lookup_isSome.mp (by rw [hl]; rfl))
  have hleft : moved members n (2 ^ 31 - 1) (-2 ^ 31) (2 ^ 31 - 1) = [] := by
    rw [List.eq_nil_iff_forall_not_mem]
    intro a ha
    rw [h.exact.stored.lists.mem_moved hf] at ha
    rcases ha with ⟨-, hg⟩ | ⟨hne, ha⟩
    · omega
    · have hin := h.exact.only a ⟨_, ha⟩
      rw [h.nodes, List.mem_singleton] at hin
      exact hne hin
  have hmin : 2 ^ 31 - 1 = t.minFreq_ := by
    obtain ⟨⟨a, ha, heq⟩, -⟩ := h.exact.minTrue (List.ne_nil_of_mem hn)
    rw [h.nodes, List.mem_singleton] at ha
    rw [hmoved.minFreq_, ← heq, ha, h.freq]
  let e : LfuCache Key Value := { t with minFreq_ := increment t.minFreq_ }
  have htouch : c.touch n = some e := by
    have hinc : increment (c.heap n).freq = -2 ^ 31 := by rw [h.freq]; rfl
    have hraise := raiseMinFreq_eq (g := -2 ^ 31) (f := 2 ^ 31 - 1) rfl hmoved.lists hmem
    rw [touch, hinc, hmove, Option.bind_some, hmoved.freq_self, hraise, if_pos ⟨hmin, hleft⟩]
  have hadd := addFreqNum_of_not_ages (c := e) o
    (not_ages_of_largest (hmoved.keeps.maxAverageNum_.trans hmost))
  refine ⟨e.counted, ?_, ?_, hmoved.keeps.capacity_, hmoved.keeps.maxAverageNum_⟩
  · simp [LfuCache.call, LfuCache.get, h.lookup, getInternal_eq, htouch, hadd]
  · change increment t.minFreq_ = -2 ^ 31
    rw [← hmin]
    rfl

/-- A smallest frequency below 1 outlives the purge, and the first key that is kicked out is
looked for in a list that is not there. -/
theorem purged_puts_fail (o o' : IterationOrders Key) (k k' : Key) (v v' : Value) (hne : k' ≠ k)
    (hcap : c.capacity_ = 1) (hmost : c.maxAverageNum_ = 2 ^ 31 - 1) (hmin : c.minFreq_ < 1) :
    c.purge.calls [.put o k v, .put o' k' v'] = none := by
  have hmiss : k ∉ c.purge.nodeMap_ := AList.notMem_empty k
  obtain ⟨t, hstore, hi⟩ := (stored_purge c).store (v := v) hmiss
  have hmost' : t.maxAverageNum_ = 2 ^ 31 - 1 := hi.maxAverageNum_.trans hmost
  have hcap' : c.purge.capacity_ = 1 := hcap
  have hput : c.purge.put o k v =
      some { t.counted with minFreq_ := min t.counted.minFreq_ 1 } := by
    have hfree : c.purge.size ≠ toSize_t c.purge.capacity_ := by
      rw [hcap']
      exact Nat.zero_ne_one
    rw [LfuCache.put, if_neg (by omega), AList.lookup_eq_none.mpr hmiss]
    simp only [putInternal_eq, if_neg hfree, Option.bind_some, hstore,
      addFreqNum_of_not_ages o (not_ages_of_largest hmost'), Option.map_some]
  let d : LfuCache Key Value := { t.counted with minFreq_ := min t.counted.minFreq_ 1 }
  have hsame : d.minFreq_ = c.minFreq_ := by
    have hkept : t.counted.minFreq_ = c.minFreq_ := hi.minFreq_
    change min t.counted.minFreq_ 1 = c.minFreq_
    omega
  have habsent : d.freqToFreqList_.lookup d.minFreq_ = none := by
    rw [AList.lookup_eq_none, hsame]
    intro hmem
    rcases mem_lists_of_addToFreqList hstore hmem with hone | hmem
    · simp only [LfuCache.newNode, Heap.set_self] at hone
      omega
    · exact AList.notMem_empty _ hmem
  have hfull : d.size = toSize_t d.capacity_ := by
    have hsize : d.size = 1 := by
      change t.nodeMap_.entries.length = 1
      rw [hi.nodeMap_, AList.entries_insert_of_notMem hmiss]
      rfl
    have hone : d.capacity_ = 1 := hi.capacity_.trans hcap
    rw [hsize, hone]
    rfl
  have hmiss' : k' ∉ d.nodeMap_ := by
    change k' ∉ t.nodeMap_
    rw [hi.nodeMap_, AList.mem_insert, not_or]
    exact ⟨hne, AList.notMem_empty k'⟩
  have hfail : d.put o' k' v' = none := by
    have hkick : d.kickOut = none := by simp [kickOut, habsent]
    have hone : d.capacity_ = 1 := hi.capacity_.trans hcap
    rw [LfuCache.put, if_neg (by omega), AList.lookup_eq_none.mpr hmiss']
    simp only [putInternal_eq, if_pos hfull, hkick, Option.bind_none]
  change (c.purge.put o k v).bind (fun d => (d.put o' k' v').bind some) = none
  rw [hput, Option.bind_some]
  change (d.put o' k' v').bind some = none
  rw [hfail, Option.bind_none]

/-- After `2 ^ 31 - 1` gets of its only key, a cache for one entry does not survive a purge. -/
theorem overflowed_calls_fail (capacity maxAverageNum : Int32) (hcap : capacity.toInt = 1)
    (hmost : maxAverageNum.toInt = 2 ^ 31 - 1) (gets : ℕ) (hgets : gets = 2 ^ 31 - 1)
    (k k' : Key) (v v' : Value) (hne : k' ≠ k) :
    (new capacity maxAverageNum).calls (hotCalls Key Value gets ++
      [.purge, .put .inOrder k v, .put .inOrder k' v']) = none := by
  obtain ⟨g, rfl⟩ : ∃ g, gets = g + 1 := ⟨2 ^ 31 - 2, by omega⟩
  have hcap₁ : 1 ≤ capacity.toInt := by omega
  have hgets₁ : (g + 1 : ℤ) ≤ maxAverageNum.toInt := by omega
  obtain ⟨c, members, n, hcalls, hhot, hc⟩ :=
    hot_calls Key Value hcap₁ (by omega) g (.inl hgets₁)
  have hlast : (g : ℤ) + 1 = 2 ^ 31 - 1 := by omega
  rw [hlast] at hhot
  have hcap' : c.capacity_ = capacity.toInt := by
    have hne₀ : capacity.toInt ≠ 0 := by omega
    have hlen : (hotCalls Key Value g).length < 2 ^ 31 := by
      simp only [hotCalls, List.length_cons, List.length_replicate]
      omega
    obtain ⟨c', _, hc', -⟩ := reached_of_safe_average hne₀ (.inr hmost) (hotCalls Key Value g) hlen
    obtain rfl := Option.some_inj.mp (hc'.calls.symm.trans hcalls)
    exact hc'.capacity_
  obtain ⟨d, hcall, hmin, hdcap, hdmax⟩ := hhot.get_wraps .inOrder (hc.trans hmost)
  have hwrapped : (new capacity maxAverageNum).calls (hotCalls Key Value (g + 1)) = some d := by
    rw [hotCalls_succ, calls_concat, hcalls]
    exact hcall
  have hfail := purged_puts_fail .inOrder .inOrder k k' v v' hne
    (hdcap.trans (hcap'.trans hcap)) (hdmax.trans (hc.trans hmost)) (by omega)
  rw [calls, List.foldlM_append]
  change ((new capacity maxAverageNum).calls (hotCalls Key Value (g + 1))).bind _ = none
  rw [hwrapped]
  exact hfail

end LfuCache

end CkServer
