import CkServer.Verification.Lfu.Aging

/-! # The operations of the LFU cache

Whatever its capacity and its bound on the average, the cache keeps its lists linked and its
keys' nodes in them, and never follows a null pointer. -/

namespace CkServer

namespace LfuCache

variable {Key Value : Type} {c d t : LfuCache Key Value} {members : ℤ → List ℕ} {n a : ℕ} {f : ℤ}

/-- The lists under the smallest frequency and under 1 exist as long as a key is cached. -/
structure Sound (c : LfuCache Key Value) (members : ℤ → List ℕ) : Prop where
  stored : c.Stored members
  min_pos : 1 ≤ c.minFreq_
  min_mem : c.nodeMap_.entries ≠ [] → c.minFreq_ ∈ c.freqToFreqList_ ∧ 1 ∈ c.freqToFreqList_
  capacity : c.capacity_ ≠ 0 → toSize_t c.capacity_ ≠ 0
  max_lt : c.maxAverageNum_ < 2 ^ 31

/-! ## Touching a node -/

theorem raiseMinFreq_eq {g : ℤ} (hg : toInt (g - 1) = f) (hl : c.Lists members)
    (hf : f ∈ c.freqToFreqList_) :
    c.raiseMinFreq g = some (if f = c.minFreq_ ∧ members f = [] then
      { c with minFreq_ := increment c.minFreq_ } else c) := by
  obtain ⟨l, hlookup⟩ := Option.isSome_iff_exists.mp (AList.lookup_isSome.mpr hf)
  have hempty := FreqList.isEmpty_iff (hl.chain _ l hlookup)
  rw [raiseMinFreq, hg]
  by_cases hmin : f = c.minFreq_
  · rw [if_pos hmin, hlookup]
    by_cases hnil : members f = []
    · simp [hempty.mpr hnil, hmin, hmin ▸ hnil]
    · have hne : ¬ l.isEmpty c.heap = true := fun e => hnil (hempty.mp e)
      simp [hne, hnil]
  · rw [if_neg hmin, if_neg (fun e => hmin e.1)]

section Touch

variable [Inhabited Key] [Inhabited Value]

/-- The part of `getInternal` before the access is counted. -/
def touch (c : LfuCache Key Value) (n : ℕ) : Option (LfuCache Key Value) :=
  (c.moveNode n (increment (c.heap n).freq)).bind fun c => c.raiseMinFreq (c.heap n).freq

theorem getInternal_eq (c : LfuCache Key Value) (o : IterationOrders Key) (n : ℕ) :
    c.getInternal o n = (c.touch n).bind fun t =>
      (t.addFreqNum o).map fun d => (d, (c.heap n).value) := by
  simp only [getInternal, touch, Option.bind_eq_bind, Option.map_eq_bind, Option.bind_assoc,
    Function.comp_def, Option.pure_def]

/-- The frequency of the node has grown by one. -/
structure Touched (c t : LfuCache Key Value) (members : ℤ → List ℕ) (n : ℕ) (f : ℤ) : Prop where
  keeps : c.Keeps t
  stored : t.Stored (moved members n f (f + 1))
  freq_self : (t.heap n).freq = f + 1
  freq_of_ne : ∀ a < c.allocated, a ≠ n → (t.heap a).freq = (c.heap a).freq
  minFreq_ : t.minFreq_ =
    if f = c.minFreq_ ∧ moved members n f (f + 1) f = [] then c.minFreq_ + 1 else c.minFreq_
  mem_lists : f + 1 ∈ t.freqToFreqList_

theorem Stored.touch (s : c.Stored members) (hn : n ∈ members f) (hlt : f < 2 ^ 31 - 1) :
    ∃ t, c.touch n = some t ∧ Touched c t members n f := by
  have hf := s.lists.freq f n hn
  have hpos := s.pos f n hn
  have hinc := increment_of_lt hlt
  obtain ⟨d, hmove, hmoved⟩ := s.lists.moveNode hn (f + 1)
  have hmem : f ∈ d.freqToFreqList_ := by
    obtain ⟨l, hl⟩ := s.lists.lookup_of_mem hn
    exact hmoved.keeps.lists f (AList.lookup_isSome.mp (by simp [hl]))
  have hstored : d.Stored (moved members n f (f + 1)) := by
    refine s.of_keeps hmoved.keeps hmoved.lists (fun a => s.lists.listed_moved hn) ?_
    intro a ha
    obtain ⟨g, hg⟩ := (s.lists.listed_moved hn).mp ha
    by_cases han : a = n
    · rw [han, hmoved.freq_self]
      omega
    · rw [hmoved.freq_of_ne a (s.lists.lt_allocated hg) han, s.lists.freq g a hg]
      exact s.pos g a hg
  have hsub : toInt (f + 1 - 1) = f := by
    rw [toInt_of_mem (by omega) (by omega)]
    omega
  have hraise := raiseMinFreq_eq hsub hmoved.lists hmem
  have htouch : c.touch n = d.raiseMinFreq (f + 1) := by
    simp only [LfuCache.touch, hf, hinc, hmove, Option.bind_some, hmoved.freq_self]
  rw [htouch, hraise]
  refine ⟨_, rfl, ?_⟩
  by_cases hcond : f = d.minFreq_ ∧ moved members n f (f + 1) f = []
  · rw [if_pos hcond]
    rw [hmoved.minFreq_] at hcond
    refine ⟨?_, hstored.of_eq rfl rfl rfl rfl, hmoved.freq_self, hmoved.freq_of_ne, ?_, ?_⟩
    · exact ⟨hmoved.keeps.capacity_, hmoved.keeps.maxAverageNum_, hmoved.keeps.curAverageNum_,
        hmoved.keeps.curTotalNum_, hmoved.keeps.nodeMap_, hmoved.keeps.key, hmoved.keeps.value,
        hmoved.keeps.allocated, hmoved.keeps.lists⟩
    · rw [if_pos hcond, hmoved.minFreq_, ← hcond.1, hinc]
    · exact hmoved.mem_lists
  · rw [if_neg hcond]
    rw [hmoved.minFreq_] at hcond
    refine ⟨hmoved.keeps, hstored, hmoved.freq_self, hmoved.freq_of_ne, ?_, hmoved.mem_lists⟩
    rw [if_neg hcond, hmoved.minFreq_]

end Touch

/-! ## The highest frequency -/

/-- No frequency is above `b`. -/
def AtMost (members : ℤ → List ℕ) (b : ℤ) : Prop := ∀ f n, n ∈ members f → f ≤ b

theorem AtMost.mono {b b' : ℤ} (h : AtMost members b) (hle : b ≤ b') : AtMost members b' :=
  fun f n hn => Int.le_trans (h f n hn) hle

theorem AtMost.moved {b : ℤ} (h : AtMost members b) (hl : c.Lists members) (hn : n ∈ members f) :
    AtMost (moved members n f (f + 1)) (b + 1) := by
  intro g a ha
  rcases (hl.mem_moved hn).mp ha with ⟨-, rfl⟩ | ⟨-, hold⟩
  · have hle := h f n hn
    omega
  · have hle := h g a hold
    omega

theorem AtMost.append_one {b : ℤ} (h : AtMost members b) (hb : 1 ≤ b) (n : ℕ) :
    AtMost (Function.update members 1 (members 1 ++ [n])) b := by
  intro g a ha
  by_cases hg : g = 1
  · omega
  · rw [Function.update_of_ne hg] at ha
    exact h g a ha

theorem AtMost.erase {b : ℤ} (h : AtMost members b) (f : ℤ) (n : ℕ) :
    AtMost (Function.update members f ((members f).erase n)) b := by
  intro g a ha
  by_cases hg : g = f
  · subst hg
    rw [Function.update_self] at ha
    exact h g a (List.mem_of_mem_erase ha)
  · rw [Function.update_of_ne hg] at ha
    exact h g a ha

/-- The highest frequency rises by one at most, where the bound on the average is not negative. -/
def Rises (c : LfuCache Key Value) (members members' : ℤ → List ℕ) : Prop :=
  0 ≤ c.maxAverageNum_ → ∀ b, 0 ≤ b → b < 2 ^ 31 - 1 → AtMost members b → AtMost members' (b + 1)

/-! ## What stays of the contents -/

variable [DecidableEq Key]

/-- The value cached for a key. -/
def valueOf (c : LfuCache Key Value) (k : Key) : Option Value :=
  (c.nodeMap_.lookup k).map fun n => (c.heap n).value

/-- The frequency of the node of a key. -/
def freqOf (c : LfuCache Key Value) (k : Key) : Option ℤ :=
  (c.nodeMap_.lookup k).map fun n => (c.heap n).freq

theorem mem_entries {k : Key} (hk : c.nodeMap_.lookup k = some n) :
    (⟨k, n⟩ : Σ _ : Key, ℕ) ∈ c.nodeMap_.entries :=
  AList.mem_lookup_iff.mp hk

/-- The same keys with the same values, and the same configuration. -/
structure SameContents (c d : LfuCache Key Value) : Prop where
  capacity_ : d.capacity_ = c.capacity_
  maxAverageNum_ : d.maxAverageNum_ = c.maxAverageNum_
  nodeMap_ : d.nodeMap_ = c.nodeMap_
  valueOf : ∀ k, d.valueOf k = c.valueOf k

theorem Stored.sameContents (s : c.Stored members) (hkeeps : c.Keeps d) : c.SameContents d where
  capacity_ := hkeeps.capacity_
  maxAverageNum_ := hkeeps.maxAverageNum_
  nodeMap_ := hkeeps.nodeMap_
  valueOf k := by
    rw [LfuCache.valueOf, LfuCache.valueOf, hkeeps.nodeMap_]
    cases hk : c.nodeMap_.lookup k with
    | none => rfl
    | some n => simp [hkeeps.value n (s.lt_allocated (mem_entries hk))]

theorem SameContents.trans {e : LfuCache Key Value} (h : c.SameContents d)
    (k : d.SameContents e) : c.SameContents e where
  capacity_ := k.capacity_.trans h.capacity_
  maxAverageNum_ := k.maxAverageNum_.trans h.maxAverageNum_
  nodeMap_ := k.nodeMap_.trans h.nodeMap_
  valueOf key := (k.valueOf key).trans (h.valueOf key)

omit [DecidableEq Key] in
theorem Stored.one_le_of_foundMin (s : c.Stored members) (hm : FoundMin members f) : 1 ≤ f := by
  rcases hm with ⟨⟨hne, -⟩, -⟩ | ⟨rfl, -⟩
  · obtain ⟨n, hn⟩ := List.exists_mem_of_ne_nil _ hne
    exact s.pos f n hn
  · exact Int.le_refl 1

omit [DecidableEq Key] in
theorem Lists.mem_of_foundMin (hl : c.Lists members) (hm : FoundMin members f)
    (hone : 1 ∈ c.freqToFreqList_) : f ∈ c.freqToFreqList_ := by
  rcases hm with ⟨⟨hne, -⟩, -⟩ | ⟨rfl, -⟩
  · by_cases hf : f ∈ c.freqToFreqList_
    · exact hf
    · exact absurd (hl.absent f hf) hne
  · exact hone

section Access

variable [Inhabited Key] [Inhabited Value]

omit [DecidableEq Key] in
/-- Counting an access, with or without a pass over the nodes. -/
structure Counted (c d : LfuCache Key Value) (members members' : ℤ → List ℕ) : Prop where
  keeps : c.counted.Keeps d
  stored : d.Stored members'
  listed : ∀ a, Listed members' a ↔ Listed members a
  of_not_ages : ¬ c.Ages → d = c.counted
  found : c.Ages → FoundMin members' d.minFreq_
  freq : c.Ages → ∀ a < c.allocated, (d.heap a).freq =
    if a ∈ c.nodes then agedFreq c.maxAverageNum_ (c.heap a).freq else (c.heap a).freq

omit [DecidableEq Key] in
theorem Stored.addFreqNum (s : c.Stored members) (o : IterationOrders Key) :
    ∃ d members', c.addFreqNum o = some d ∧ Counted c d members members' := by
  by_cases hages : c.Ages
  · obtain ⟨d, members', hadd, hstored, haged, hmin⟩ := s.addFreqNum_of_ages o hages
    exact ⟨d, members', hadd, haged.keeps, hstored, haged.listed, absurd hages, fun _ => hmin,
      fun _ => haged.freq⟩
  · refine ⟨c.counted, members, addFreqNum_of_not_ages o hages, ?_, s.of_eq rfl rfl rfl rfl,
      fun _ => Iff.rfl, fun _ => rfl, fun h => absurd h hages, fun h => absurd h hages⟩
    exact ⟨rfl, rfl, rfl, rfl, rfl, fun _ _ => rfl, fun _ _ => rfl, Nat.le_refl _, fun _ h => h⟩

omit [DecidableEq Key] [Inhabited Key] [Inhabited Value] in
theorem Counted.minFreq_ {members' : ℤ → List ℕ} (h : Counted c d members members') :
    d.minFreq_ = c.minFreq_ ∨ FoundMin members' d.minFreq_ := by
  by_cases hages : c.Ages
  · exact .inr (h.found hages)
  · left
    rw [h.of_not_ages hages]
    rfl

omit [DecidableEq Key] [Inhabited Key] [Inhabited Value] in
theorem Counted.atMost {members' : ℤ → List ℕ} {b : ℤ} (h : Counted c d members members')
    (s : c.Stored members) (hmax : 0 ≤ c.maxAverageNum_) (hmax' : c.maxAverageNum_ < 2 ^ 31)
    (hb : b < 2 ^ 31) (hle : AtMost members b) : AtMost members' b := by
  intro f n hn
  have hf := h.stored.lists.freq f n hn
  obtain ⟨g, hg⟩ := (h.listed n).mp ⟨f, hn⟩
  have hgb := hle g n hg
  have hpos := s.pos g n hg
  have hold := s.lists.freq g n hg
  by_cases hages : c.Ages
  · have haged := aged_le hmax hpos
    rw [h.freq hages n (s.lists.lt_allocated hg), hold,
      agedFreq_eq hmax hmax' hpos (by omega)] at hf
    split at hf <;> omega
  · rw [h.of_not_ages hages] at hf
    change (c.heap n).freq = f at hf
    omega

omit [DecidableEq Key] [Inhabited Key] [Inhabited Value] in
theorem Sound.touched (s : c.Sound members) (ht : Touched c t members n f) (hpos : 1 ≤ f)
    (hnodes : c.nodeMap_.entries ≠ []) :
    1 ≤ t.minFreq_ ∧ t.minFreq_ ∈ t.freqToFreqList_ ∧ 1 ∈ t.freqToFreqList_ := by
  obtain ⟨hmem, hone⟩ := s.min_mem hnodes
  have hmin := s.min_pos
  rw [ht.minFreq_]
  refine ⟨?_, ?_, ht.keeps.lists 1 hone⟩
  · split <;> omega
  · split
    · rename_i hcond
      exact hcond.1 ▸ ht.mem_lists
    · exact ht.keeps.lists _ hmem

omit [DecidableEq Key] [Inhabited Key] [Inhabited Value] in
theorem Sound.of_counted {members' : ℤ → List ℕ} (s : c.Sound members)
    (ht : Touched c t members n f) (hd : Counted t d (moved members n f (f + 1)) members')
    (hpos : 1 ≤ f) (hnodes : c.nodeMap_.entries ≠ []) : d.Sound members' := by
  obtain ⟨hmin, hmem, hone⟩ := s.touched ht hpos hnodes
  have hone' := hd.keeps.lists 1 hone
  refine ⟨hd.stored, ?_, ?_, ?_, ?_⟩
  · rcases hd.minFreq_ with heq | hfound
    · rw [heq]
      exact hmin
    · exact hd.stored.one_le_of_foundMin hfound
  · intro _
    rcases hd.minFreq_ with heq | hfound
    · rw [heq]
      exact ⟨hd.keeps.lists _ hmem, hone'⟩
    · exact ⟨hd.stored.lists.mem_of_foundMin hfound hone', hone'⟩
  · have hcap : d.capacity_ = c.capacity_ := hd.keeps.capacity_.trans ht.keeps.capacity_
    rw [hcap]
    exact s.capacity
  · have hmax : d.maxAverageNum_ = c.maxAverageNum_ :=
      hd.keeps.maxAverageNum_.trans ht.keeps.maxAverageNum_
    rw [hmax]
    exact s.max_lt

theorem Sound.getInternal {k : Key} (s : c.Sound members) (o : IterationOrders Key)
    (hk : c.nodeMap_.lookup k = some n) (hlt : (c.heap n).freq < 2 ^ 31 - 1) :
    ∃ d members', c.getInternal o n = some (d, (c.heap n).value) ∧ d.Sound members' ∧
      c.SameContents d ∧ c.Rises members members' := by
  have hin := mem_entries hk
  have hnodes : c.nodeMap_.entries ≠ [] := List.ne_nil_of_mem hin
  obtain ⟨f, hn⟩ := s.stored.listed k n hin
  rw [s.stored.lists.freq f n hn] at hlt
  obtain ⟨t, htouch, ht⟩ := s.stored.touch hn hlt
  obtain ⟨d, members', hadd, hd⟩ := ht.stored.addFreqNum o
  refine ⟨d, members', ?_, s.of_counted ht hd (s.stored.pos f n hn) hnodes, ?_, ?_⟩
  · simp [getInternal_eq, htouch, hadd]
  · have hcounted : t.counted.Stored (moved members n f (f + 1)) := ht.stored.of_eq rfl rfl rfl rfl
    have hsame : t.SameContents t.counted := ⟨rfl, rfl, rfl, fun _ => rfl⟩
    exact ((s.stored.sameContents ht.keeps).trans hsame).trans (hcounted.sameContents hd.keeps)
  · intro hmax b hb hlt' hle
    have hsame : t.maxAverageNum_ = c.maxAverageNum_ := ht.keeps.maxAverageNum_
    exact hd.atMost ht.stored (hsame ▸ hmax) (hsame ▸ s.max_lt) (by omega)
      (hle.moved s.stored.lists hn)

end Access

/-! ## Kicking a node out -/

/-- The cache without the node `n`. -/
def evicted (c : LfuCache Key Value) (n : ℕ) : LfuCache Key Value :=
  decreaseFreqNum
    { c with
      heap := FreqList.removeNode c.heap n
      nodeMap_ := c.nodeMap_.erase (c.heap n).key }
    (c.heap n).freq

/-- The first node of the list under `minFreq_`. -/
theorem kickOut_eq {l : FreqList} (hl : c.Lists members)
    (hlookup : c.freqToFreqList_.lookup c.minFreq_ = some l) (hone : 1 ∈ c.freqToFreqList_) :
    c.kickOut = some (c.evicted ((members c.minFreq_).headD l.tail_)) := by
  have hfirst := FreqList.getFirstNode_eq (hl.chain _ l hlookup)
  generalize hn : (members c.minFreq_).headD l.tail_ = n at hfirst
  have hmem : (c.heap n).freq ∈ c.freqToFreqList_ := by
    cases hms : members c.minFreq_ with
    | nil =>
        rw [hms, List.headD_nil] at hn
        rw [← hn, hl.sentinel _ l hlookup]
        exact hone
    | cons m ms =>
        rw [hms, List.headD_cons] at hn
        rw [← hn, hl.freq c.minFreq_ m (by simp [hms])]
        exact AList.lookup_isSome.mp (by simp [hlookup])
  obtain ⟨l', hl'⟩ := Option.isSome_iff_exists.mp (AList.lookup_isSome.mpr hmem)
  have hdata := FreqList.sameData_removeNode c.heap n n
  simp only [kickOut, hlookup, hfirst, removeFromFreqList, hl', Option.bind_eq_bind,
    Option.bind_some, evicted, hdata.1, hdata.2.1]
  rfl

omit [DecidableEq Key] in
theorem removeNode_tail {l : FreqList} (hl : c.Lists members)
    (hlookup : c.freqToFreqList_.lookup f = some l) :
    FreqList.removeNode c.heap l.tail_ = c.heap := by
  have hlast : (c.heap l.tail_).next = none := (hl.chain f l hlookup).last
  simp only [FreqList.removeNode, hlast]
  cases (c.heap l.tail_).pre <;> rfl

theorem mem_entries_erase {k k' : Key} :
    (⟨k, n⟩ : Σ _ : Key, ℕ) ∈ (c.nodeMap_.erase k').entries ↔
      k ≠ k' ∧ (⟨k, n⟩ : Σ _ : Key, ℕ) ∈ c.nodeMap_.entries := by
  by_cases hk : k = k'
  · subst hk
    simp [← AList.mem_lookup_iff]
  · rw [← AList.mem_lookup_iff, ← AList.mem_lookup_iff, AList.lookup_erase_ne hk]
    simp [hk]

theorem Stored.evicted_of_mem (s : c.Stored members) (hn : n ∈ members f) :
    (c.evicted n).Stored (Function.update members f ((members f).erase n)) := by
  have hdata := fun a => FreqList.sameData_removeNode c.heap n a
  have hmem := fun g a => s.lists.mem_erase (a := a) (h := g) hn
  refine ⟨(s.lists.removeNode hn).of_eq rfl rfl rfl, ?_, ?_, ?_⟩
  · intro g a ha
    exact s.pos g a ((hmem g a).mp ha).2
  · intro k a ha
    exact (hdata a).2.1.trans (s.key k a (mem_entries_erase.mp ha).2)
  · intro k a ha
    obtain ⟨hne, hin⟩ := mem_entries_erase.mp ha
    obtain ⟨g, hg⟩ := s.listed k a hin
    refine ⟨g, (hmem g a).mpr ⟨?_, hg⟩⟩
    rintro rfl
    exact hne (s.key k a hin).symm

theorem Stored.evicted_tail {l : FreqList} (s : c.Stored members)
    (hlookup : c.freqToFreqList_.lookup f = some l) : (c.evicted l.tail_).Stored members where
  lists := s.lists.of_eq (removeNode_tail s.lists hlookup) rfl rfl
  pos := s.pos
  key k a ha := by
    have hheap : (c.evicted l.tail_).heap = c.heap := removeNode_tail s.lists hlookup
    rw [hheap]
    exact s.key k a (mem_entries_erase.mp ha).2
  listed k a ha := s.listed k a (mem_entries_erase.mp ha).2

/-- The lists keep their members but for a node that is kicked out. -/
theorem Sound.kickOut (s : c.Sound members) (hnodes : c.nodeMap_.entries ≠ []) :
    ∃ n members', c.kickOut = some (c.evicted n) ∧ (c.evicted n).Stored members' ∧
      ∀ b, AtMost members b → AtMost members' b := by
  obtain ⟨hmem, hone⟩ := s.min_mem hnodes
  obtain ⟨l, hlookup⟩ := Option.isSome_iff_exists.mp (AList.lookup_isSome.mpr hmem)
  have hkick := kickOut_eq s.stored.lists hlookup hone
  cases hms : members c.minFreq_ with
  | nil =>
      rw [hms, List.headD_nil] at hkick
      exact ⟨l.tail_, members, hkick, s.stored.evicted_tail hlookup, fun _ h => h⟩
  | cons n ms =>
      rw [hms, List.headD_cons] at hkick
      exact ⟨n, _, hkick, s.stored.evicted_of_mem (f := c.minFreq_) (by simp [hms]),
        fun _ h => h.erase _ n⟩

/-! ## Storing a key -/

section Store

variable [Inhabited Key] [Inhabited Value] {k : Key} {v : Value}

/-- The part of `putInternal` between the eviction and the counting. -/
def store (c : LfuCache Key Value) (k : Key) (v : Value) : Option (LfuCache Key Value) :=
  addToFreqList { c.newNode k v with nodeMap_ := c.nodeMap_.insert k c.allocated } c.allocated

theorem putInternal_eq (c : LfuCache Key Value) (o : IterationOrders Key) (k : Key) (v : Value) :
    c.putInternal o k v =
      (if c.size = toSize_t c.capacity_ then c.kickOut else some c).bind fun c =>
        (c.store k v).bind fun c =>
          (c.addFreqNum o).map fun c => { c with minFreq_ := min c.minFreq_ 1 } := by
  simp only [putInternal, store, Option.map_eq_bind, Function.comp_def]
  by_cases hfull : c.size = toSize_t c.capacity_
  · rw [if_pos hfull, if_pos hfull]
    rfl
  · rw [if_neg hfull, if_neg hfull]
    rfl

/-- A node for the key has come to the end of the list under 1. -/
structure Inserted (c d : LfuCache Key Value) (members : ℤ → List ℕ) (k : Key) (v : Value) :
    Prop where
  stored : d.Stored (Function.update members 1 (members 1 ++ [c.allocated]))
  capacity_ : d.capacity_ = c.capacity_
  minFreq_ : d.minFreq_ = c.minFreq_
  maxAverageNum_ : d.maxAverageNum_ = c.maxAverageNum_
  curTotalNum_ : d.curTotalNum_ = c.curTotalNum_
  nodeMap_ : d.nodeMap_ = c.nodeMap_.insert k c.allocated
  allocated : c.allocated < d.allocated
  mem_lists : 1 ∈ d.freqToFreqList_
  new : (d.heap c.allocated).freq = 1 ∧ (d.heap c.allocated).value = v
  old : ∀ a < c.allocated, Heap.SameData (d.heap a) (c.heap a)

theorem Stored.store (s : c.Stored members) (hk : k ∉ c.nodeMap_) :
    ∃ d, c.store k v = some d ∧ Inserted c d members k v := by
  let n := c.allocated
  let c' : LfuCache Key Value := { c.newNode k v with nodeMap_ := c.nodeMap_.insert k n }
  have hheap : ∀ a < n, c'.heap a = c.heap a := fun a ha => Heap.set_of_ne _ _ (Nat.ne_of_lt ha)
  have hself : c'.heap n = { key := k, value := v } := Heap.set_self _ _ _
  have hlists : c'.Lists members := by
    refine s.lists.congr rfl (Nat.le_succ n) ?_
    intro f l a hl ha
    rw [hheap a (s.lists.allocated f l a hl ha)]
    exact ⟨rfl, rfl, rfl⟩
  have hdet : c'.Detached members n := by
    intro f l hl ha
    exact Nat.lt_irrefl n (s.lists.allocated f l n hl ha)
  have hone : (c'.heap n).freq = 1 := by rw [hself]
  obtain ⟨d, hadd, hkeeps, hmin, hd, hmem, hfreq⟩ :=
    hlists.addToFreqList hdet (Nat.lt_succ_self n) hone
  have hold : ∀ a < n, Heap.SameData (d.heap a) (c.heap a) := by
    intro a ha
    have ha' : a < c'.allocated := Nat.lt_succ_of_lt ha
    rw [← hheap a ha]
    exact ⟨hfreq a ha', hkeeps.key a ha', hkeeps.value a ha'⟩
  have hnew : (d.heap n).freq = 1 ∧ (d.heap n).key = k ∧ (d.heap n).value = v := by
    have hlt : n < c'.allocated := Nat.lt_succ_self n
    rw [hfreq n hlt, hkeeps.key n hlt, hkeeps.value n hlt, hself]
    exact ⟨rfl, rfl, rfl⟩
  have hin : ∀ k' a, (⟨k', a⟩ : Σ _ : Key, ℕ) ∈ d.nodeMap_.entries →
      k' = k ∧ a = n ∨ (⟨k', a⟩ : Σ _ : Key, ℕ) ∈ c.nodeMap_.entries := by
    intro k' a ha
    rw [hkeeps.nodeMap_, AList.entries_insert_of_notMem hk] at ha
    rcases List.mem_cons.mp ha with heq | ha
    · injection heq with hk' ha
      exact .inl ⟨hk', ha⟩
    · exact .inr ha
  refine ⟨d, hadd, ⟨⟨hd, ?_, ?_, ?_⟩, hkeeps.capacity_, hmin, hkeeps.maxAverageNum_,
    hkeeps.curTotalNum_, hkeeps.nodeMap_, Nat.lt_of_lt_of_le (Nat.lt_succ_self n) hkeeps.allocated,
    hmem, ⟨hnew.1, hnew.2.2⟩, hold⟩⟩
  · intro f a ha
    by_cases hf : f = 1
    · omega
    · rw [Function.update_of_ne hf] at ha
      exact s.pos f a ha
  · intro k' a ha
    rcases hin k' a ha with ⟨rfl, rfl⟩ | ha
    · exact hnew.2.1
    · rw [(hold a (s.lt_allocated ha)).2.1, s.key k' a ha]
  · intro k' a ha
    rcases hin k' a ha with ⟨rfl, rfl⟩ | ha
    · exact ⟨1, by simp [n]⟩
    · obtain ⟨f, hf⟩ := s.listed k' a ha
      by_cases hf1 : f = 1
      · subst hf1
        exact ⟨1, by simp [hf]⟩
      · exact ⟨f, by rwa [Function.update_of_ne hf1]⟩

omit [Inhabited Key] [Inhabited Value] in
theorem valueOf_of_inserted (hi : Inserted c d members k v) (s : c.Stored members) (k' : Key) :
    d.valueOf k' = if k' = k then some v else c.valueOf k' := by
  rw [valueOf, hi.nodeMap_]
  by_cases hk : k' = k
  · subst hk
    rw [if_pos rfl, AList.lookup_insert]
    simp [hi.new.2]
  · rw [if_neg hk, AList.lookup_insert_ne hk, valueOf]
    cases hl : c.nodeMap_.lookup k' with
    | none => rfl
    | some n => simp [(hi.old n (s.lt_allocated (mem_entries hl))).2.2]

omit [Inhabited Key] [Inhabited Value] in
theorem valueOf_evicted (c : LfuCache Key Value) (n : ℕ) (k : Key) :
    (c.evicted n).valueOf k = if k = (c.heap n).key then none else c.valueOf k := by
  have hnodes : (c.evicted n).nodeMap_ = c.nodeMap_.erase (c.heap n).key := rfl
  have hvalue : ∀ a, ((c.evicted n).heap a).value = (c.heap a).value := fun a =>
    (FreqList.sameData_removeNode c.heap n a).2.2
  simp only [valueOf, hnodes, hvalue]
  by_cases hk : k = (c.heap n).key
  · rw [if_pos hk, hk, AList.lookup_erase]
    rfl
  · rw [if_neg hk, AList.lookup_erase_ne hk]

end Store

/-! ## The public operations -/

section Public

variable [Inhabited Key] [Inhabited Value] {k : Key} {v : Value}

theorem calls_concat (c : LfuCache Key Value) (ops : List (CacheCall Key Value))
    (op : CacheCall Key Value) : c.calls (ops ++ [op]) = (c.calls ops).bind fun d => d.call op := by
  simp [calls]

omit [DecidableEq Key] [Inhabited Key] [Inhabited Value] in
theorem length_of_concat {ops : List (CacheCall Key Value)} {op : CacheCall Key Value} {n : ℕ}
    (h : (ops ++ [op]).length < n) : ops.length + 1 < n := by
  rwa [List.length_append, List.length_singleton] at h

omit [DecidableEq Key] in
theorem sound_new (capacity maxAverageNum : Int32) :
    Sound (new capacity maxAverageNum : LfuCache Key Value) (fun _ => []) where
  stored := by
    refine ⟨⟨?_, ?_, ?_, ?_, ?_, ?_⟩, ?_, ?_, ?_⟩
    all_goals simp [new]
  min_pos := by simp [new, INT8_MAX]
  min_mem := by simp [new]
  capacity := by
    have hle := capacity.le_toInt
    intro hne
    change capacity.toInt ≠ 0 at hne
    change toSize_t capacity.toInt ≠ 0
    by_cases hpos : 0 ≤ capacity.toInt
    · rw [toSize_t, if_pos hpos]
      omega
    · rw [toSize_t, if_neg hpos]
      omega
  max_lt := maxAverageNum.toInt_lt

/-- The contents after `put`: the key has the value, and the other keys have theirs or are
gone. There is one key more at most. -/
structure Put (c d : LfuCache Key Value) (k : Key) (v : Value) : Prop where
  capacity_ : d.capacity_ = c.capacity_
  maxAverageNum_ : d.maxAverageNum_ = c.maxAverageNum_
  self : d.valueOf k = some v
  other : ∀ k', k' ≠ k → d.valueOf k' = none ∨ d.valueOf k' = c.valueOf k'
  size_le : d.size ≤ c.size + 1

omit [DecidableEq Key] [Inhabited Key] [Inhabited Value] in
theorem Counted.min_eq {members' : ℤ → List ℕ} (h : Counted c d members members')
    (hpos : 1 ≤ c.minFreq_) : min d.minFreq_ 1 = 1 := by
  rcases h.minFreq_ with heq | hfound
  · omega
  · have hle := h.stored.one_le_of_foundMin hfound
    omega

omit [DecidableEq Key] [Inhabited Key] [Inhabited Value] in
theorem Counted.sound {members' : ℤ → List ℕ} (h : Counted c d members members')
    (hone : 1 ∈ c.freqToFreqList_) (hpos : 1 ≤ c.minFreq_)
    (hcap : c.capacity_ ≠ 0 → toSize_t c.capacity_ ≠ 0) (hmax : c.maxAverageNum_ < 2 ^ 31) :
    Sound { d with minFreq_ := min d.minFreq_ 1 } members' := by
  have hmin := h.min_eq hpos
  refine ⟨h.stored.of_eq rfl rfl rfl rfl, ?_, ?_, ?_, ?_⟩
  · simp only [hmin, Int.le_refl]
  · intro _
    simp only [hmin]
    exact ⟨h.keeps.lists 1 hone, h.keeps.lists 1 hone⟩
  · have hcap' : d.capacity_ = c.capacity_ := h.keeps.capacity_
    rw [hcap']
    exact hcap
  · have hmax' : d.maxAverageNum_ = c.maxAverageNum_ := h.keeps.maxAverageNum_
    rw [hmax']
    exact hmax

theorem Stored.count (s : c.Stored members) (o : IterationOrders Key) (hone : 1 ∈ c.freqToFreqList_)
    (hpos : 1 ≤ c.minFreq_) (hcap : c.capacity_ ≠ 0 → toSize_t c.capacity_ ≠ 0)
    (hmax : c.maxAverageNum_ < 2 ^ 31) :
    ∃ d members', ((c.addFreqNum o).map fun c => { c with minFreq_ := min c.minFreq_ 1 }) = some d ∧
      d.Sound members' ∧ c.SameContents d ∧
      (0 ≤ c.maxAverageNum_ → ∀ b < 2 ^ 31, AtMost members b → AtMost members' b) := by
  obtain ⟨d, members', hadd, hd⟩ := s.addFreqNum o
  have hcounted : c.counted.Stored members := s.of_eq rfl rfl rfl rfl
  have hsame := hcounted.sameContents hd.keeps
  exact ⟨{ d with minFreq_ := min d.minFreq_ 1 }, members', by rw [hadd]; rfl,
    hd.sound hone hpos hcap hmax,
    ⟨hsame.capacity_, hsame.maxAverageNum_, hsame.nodeMap_, hsame.valueOf⟩,
    fun hnonneg _ hb hle => hd.atMost s hnonneg hmax hb hle⟩

omit [Inhabited Key] [Inhabited Value] in
/-- There is room for one more node, where that of another key has been kicked out of a full
cache. -/
theorem Sound.room (s : c.Sound members) (hcap : c.capacity_ ≠ 0) (hk : k ∉ c.nodeMap_) :
    ∃ e members', (if c.size = toSize_t c.capacity_ then c.kickOut else some c) = some e ∧
      e.Stored members' ∧ k ∉ e.nodeMap_ ∧ e.minFreq_ = c.minFreq_ ∧ e.capacity_ = c.capacity_ ∧
      e.maxAverageNum_ = c.maxAverageNum_ ∧ e.size ≤ c.size ∧
      (∀ k', e.valueOf k' = none ∨ e.valueOf k' = c.valueOf k') ∧
      ∀ b, AtMost members b → AtMost members' b := by
  by_cases hfull : c.size = toSize_t c.capacity_
  · have hnodes : c.nodeMap_.entries ≠ [] := by
      intro hnil
      exact s.capacity hcap (by rw [← hfull, size, hnil, List.length_nil])
    obtain ⟨n, members', hkick, hstored, hle⟩ := s.kickOut hnodes
    refine ⟨c.evicted n, members', by rw [if_pos hfull, hkick], hstored, ?_, rfl, rfl, rfl, ?_, ?_,
      hle⟩
    · intro hmem
      exact hk (AList.mem_erase.mp hmem).2
    · exact (List.kerase_sublist _ _).length_le
    · intro k'
      rw [valueOf_evicted]
      by_cases hk' : k' = (c.heap n).key
      · exact .inl (if_pos hk')
      · exact .inr (if_neg hk')
  · exact ⟨c, members, if_neg hfull, s.stored, hk, rfl, rfl, rfl, Nat.le_refl _,
      fun _ => .inr rfl, fun _ h => h⟩

theorem Sound.putInternal (s : c.Sound members) (o : IterationOrders Key)
    (hcap : c.capacity_ ≠ 0) (hk : k ∉ c.nodeMap_) :
    ∃ d members', c.putInternal o k v = some d ∧ d.Sound members' ∧ Put c d k v ∧
      c.Rises members members' := by
  obtain ⟨e, members', hroom, hstored, hk', hmin, hcap', hmax, hsize, hvalue, hless⟩ :=
    s.room hcap hk
  obtain ⟨t, hstore, hins⟩ := hstored.store (v := v) hk'
  have hsame' : t.maxAverageNum_ = c.maxAverageNum_ := hins.maxAverageNum_.trans hmax
  obtain ⟨d, members'', hcount, hd, hsame, hle⟩ := hins.stored.count o hins.mem_lists
    (by rw [hins.minFreq_, hmin]; exact s.min_pos)
    (by rw [hins.capacity_, hcap']; exact s.capacity) (by rw [hsame']; exact s.max_lt)
  refine ⟨d, members'', ?_, hd, ⟨?_, ?_, ?_, ?_, ?_⟩, ?_⟩
  · rw [putInternal_eq, hroom, Option.bind_some, hstore, Option.bind_some, hcount]
  · rw [hsame.capacity_, hins.capacity_, hcap']
  · rw [hsame.maxAverageNum_, hins.maxAverageNum_, hmax]
  · rw [hsame.valueOf, valueOf_of_inserted hins hstored, if_pos rfl]
  · intro k' hne
    rw [hsame.valueOf, valueOf_of_inserted hins hstored, if_neg hne]
    exact hvalue k'
  · have hnodes := hsame.nodeMap_.trans hins.nodeMap_
    rw [size, hnodes, AList.entries_insert_of_notMem hk', List.length_cons]
    exact Nat.succ_le_succ hsize
  · intro hnonneg b hb hlt hbound
    exact hle (hsame' ▸ hnonneg) (b + 1) (by omega)
      (((hless b hbound).mono (by omega)).append_one (by omega) _)

/-- The cache when `put` has found the key's node and set its value. -/
def withValue (c : LfuCache Key Value) (n : ℕ) (v : Value) : LfuCache Key Value :=
  { c with heap := c.heap.setValue n v }

omit [DecidableEq Key] [Inhabited Key] [Inhabited Value] in
theorem Sound.withValue (s : c.Sound members) (n : ℕ) (v : Value) :
    (c.withValue n v).Sound members := by
  have hheap : ∀ a, ((c.withValue n v).heap a).freq = (c.heap a).freq ∧
      ((c.withValue n v).heap a).key = (c.heap a).key ∧
      ((c.withValue n v).heap a).pre = (c.heap a).pre ∧
      ((c.withValue n v).heap a).next = (c.heap a).next := by
    intro a
    by_cases ha : a = n
    · subst ha
      simp [LfuCache.withValue, Heap.setValue]
    · simp [LfuCache.withValue, Heap.setValue, Heap.set_of_ne _ _ ha]
  refine ⟨⟨s.stored.lists.congr rfl (Nat.le_refl _) ?_, s.stored.pos, ?_, s.stored.listed⟩,
    s.min_pos, s.min_mem, s.capacity, s.max_lt⟩
  · intro f l a _ _
    exact ⟨(hheap a).2.2.2, (hheap a).2.2.1, (hheap a).1⟩
  · intro k a ha
    rw [(hheap a).2.1]
    exact s.stored.key k a ha

omit [Inhabited Key] [Inhabited Value] in
theorem valueOf_withValue (s : c.Sound members) (hk : c.nodeMap_.lookup k = some n) (v : Value)
    (k' : Key) : (c.withValue n v).valueOf k' = if k' = k then some v else c.valueOf k' := by
  have hnodes : (c.withValue n v).nodeMap_ = c.nodeMap_ := rfl
  rw [valueOf, hnodes]
  by_cases hk' : k' = k
  · subst hk'
    rw [if_pos rfl, hk]
    simp [withValue, Heap.setValue]
  · rw [if_neg hk', valueOf]
    cases hl : c.nodeMap_.lookup k' with
    | none => rfl
    | some a =>
        have hne : a ≠ n := by
          rintro rfl
          exact hk' ((s.stored.key k' a (mem_entries hl)).symm.trans
            (s.stored.key k a (mem_entries hk)))
        simp [withValue, Heap.setValue, Heap.set_of_ne _ _ hne]

omit [DecidableEq Key] [Inhabited Key] [Inhabited Value] in
theorem freq_withValue (c : LfuCache Key Value) (n : ℕ) (v : Value) (a : ℕ) :
    ((c.withValue n v).heap a).freq = (c.heap a).freq := by
  by_cases ha : a = n
  · subst ha
    simp [LfuCache.withValue, Heap.setValue]
  · simp [LfuCache.withValue, Heap.setValue, Heap.set_of_ne _ _ ha]

/-- The frequency of the key can be counted once more. -/
def Countable (c : LfuCache Key Value) (k : Key) : Prop :=
  ∀ f, c.freqOf k = some f → f < 2 ^ 31 - 1

omit [Inhabited Key] [Inhabited Value] in
theorem Countable.lt (h : c.Countable k) (hk : c.nodeMap_.lookup k = some n) :
    (c.heap n).freq < 2 ^ 31 - 1 :=
  h _ (by rw [freqOf, hk, Option.map_some])

theorem Sound.put (s : c.Sound members) (o : IterationOrders Key) (hcap : c.capacity_ ≠ 0)
    (hcount : c.Countable k) :
    ∃ d members', c.put o k v = some d ∧ d.Sound members' ∧ Put c d k v ∧
      c.Rises members members' := by
  rw [LfuCache.put, if_neg hcap]
  cases hk : c.nodeMap_.lookup k with
  | none => exact s.putInternal o hcap (AList.lookup_eq_none.mp hk)
  | some n =>
      have hvalue := valueOf_withValue s hk v
      obtain ⟨d, members', hget, hd, hsame, hrises⟩ := (s.withValue n v).getInternal o hk
        (by rw [freq_withValue]; exact hcount.lt hk)
      refine ⟨d, members', ?_, hd, ⟨hsame.capacity_, hsame.maxAverageNum_, ?_, ?_, ?_⟩, hrises⟩
      · change ((c.withValue n v).getInternal o n).map Prod.fst = some d
        rw [hget]
        rfl
      · rw [hsame.valueOf, hvalue, if_pos rfl]
      · intro k' hne
        rw [hsame.valueOf, hvalue, if_neg hne]
        exact .inr rfl
      · rw [size, hsame.nodeMap_]
        exact Nat.le_succ _

omit [DecidableEq Key] [Inhabited Key] [Inhabited Value] in
theorem stored_purge (c : LfuCache Key Value) : c.purge.Stored fun _ => [] := by
  refine ⟨⟨?_, ?_, ?_, ?_, ?_, ?_⟩, ?_, ?_, ?_⟩
  all_goals simp [LfuCache.purge]

omit [DecidableEq Key] [Inhabited Key] [Inhabited Value] in
theorem Sound.purge (s : c.Sound members) : c.purge.Sound fun _ => [] where
  stored := stored_purge c
  min_pos := s.min_pos
  min_mem := by simp [LfuCache.purge]
  capacity := s.capacity
  max_lt := s.max_lt

theorem Sound.get (s : c.Sound members) (o : IterationOrders Key) (hcount : c.Countable k) :
    ∃ d members', c.get o k = some (d, c.valueOf k) ∧ d.Sound members' ∧ c.SameContents d ∧
      c.Rises members members' := by
  rw [LfuCache.get, valueOf]
  cases hk : c.nodeMap_.lookup k with
  | none =>
      exact ⟨c, members, rfl, s, ⟨rfl, rfl, rfl, fun _ => rfl⟩, fun _ b _ _ hle =>
        hle.mono (by omega)⟩
  | some n =>
      obtain ⟨d, members', hget, hd, hsame, hrises⟩ := s.getInternal o hk (hcount.lt hk)
      exact ⟨d, members', by simp [hget], hd, hsame, hrises⟩

end Public

end LfuCache

end CkServer
