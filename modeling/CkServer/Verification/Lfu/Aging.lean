import CkServer.Verification.Lfu.Lists
import Mathlib.Tactic.Tauto

/-! # The counters of the LFU cache

What counting an access does: the total and the average, and the pass that lowers the
frequencies of all nodes when the average is too high. -/

namespace CkServer

namespace LfuCache

variable {Key Value : Type} {c d : LfuCache Key Value} {members : ℤ → List ℕ} {n a : ℕ} {f g h : ℤ}

def Listed (members : ℤ → List ℕ) (a : ℕ) : Prop := ∃ f, a ∈ members f

namespace Lists

theorem mem_iff (hl : c.Lists members) :
    a ∈ members f ↔ Listed members a ∧ (c.heap a).freq = f := by
  refine ⟨fun ha => ⟨⟨f, ha⟩, hl.freq f a ha⟩, ?_⟩
  rintro ⟨⟨g, hg⟩, rfl⟩
  rwa [hl.freq g a hg]

theorem mem_erase (hl : c.Lists members) (hn : n ∈ members f) :
    a ∈ Function.update members f ((members f).erase n) h ↔ a ≠ n ∧ a ∈ members h := by
  by_cases hh : h = f
  · subst hh
    rw [Function.update_self, (hl.nodup h).mem_erase_iff]
  · rw [Function.update_of_ne hh]
    refine ⟨fun ha => ⟨?_, ha⟩, And.right⟩
    rintro rfl
    exact hh ((hl.freq h a ha).symm.trans (hl.freq f a hn))

theorem mem_moved (hl : c.Lists members) (hn : n ∈ members f) :
    a ∈ moved members n f g h ↔ a = n ∧ h = g ∨ a ≠ n ∧ a ∈ members h := by
  simp only [moved]
  by_cases hh : h = g
  · subst hh
    rw [Function.update_self, List.mem_append, hl.mem_erase hn, List.mem_singleton]
    tauto
  · rw [Function.update_of_ne hh, hl.mem_erase hn]
    tauto

theorem listed_moved (hl : c.Lists members) (hn : n ∈ members f) :
    Listed (moved members n f g) a ↔ Listed members a := by
  simp only [Listed, hl.mem_moved hn]
  by_cases ha : a = n
  · subst ha
    simp only [true_and, ne_eq, not_true_eq_false, false_and, or_false]
    exact ⟨fun _ => ⟨f, hn⟩, fun _ => ⟨g, rfl⟩⟩
  · simp [ha]

end Lists

/-! ## The pass over the nodes -/

/-- The frequency that the pass gives a node. -/
def agedFreq (maxAverageNum freq : ℤ) : ℤ := max (toInt (freq - maxAverageNum.tdiv 2)) 1

/-- The same where nothing overflows. -/
def aged (maxAverageNum freq : ℤ) : ℤ := max (freq - maxAverageNum.tdiv 2) 1

theorem agedFreq_eq {m g : ℤ} (hm : 0 ≤ m) (hm' : m < 2 ^ 31) (hg : 1 ≤ g) (hg' : g < 2 ^ 31) :
    agedFreq m g = aged m g := by
  have hhalf : m.tdiv 2 = m / 2 := Int.tdiv_eq_ediv_of_nonneg hm
  rw [agedFreq, aged, hhalf, toInt_of_mem (by omega) (by omega)]

theorem one_le_aged (m g : ℤ) : 1 ≤ aged m g := Int.le_max_right _ _

theorem aged_le {m g : ℤ} (hm : 0 ≤ m) (hg : 1 ≤ g) : aged m g ≤ g := by
  have hhalf : 0 ≤ m.tdiv 2 := Int.tdiv_nonneg hm (by omega)
  unfold aged
  omega

theorem ageNode_eq [Inhabited Key] [Inhabited Value] (c : LfuCache Key Value) (n : ℕ) :
    c.ageNode n = c.moveNode n (agedFreq c.maxAverageNum_ (c.heap n).freq) := by
  have hmax : (if toInt ((c.heap n).freq - c.maxAverageNum_.tdiv 2) < 1 then 1
      else toInt ((c.heap n).freq - c.maxAverageNum_.tdiv 2)) =
        agedFreq c.maxAverageNum_ (c.heap n).freq := by
    simp only [agedFreq]
    split <;> omega
  simp only [ageNode, hmax]

variable [Inhabited Key] [Inhabited Value]

/-- What aging the nodes `ns` does. -/
structure Aged (c d : LfuCache Key Value) (members members' : ℤ → List ℕ) (ns : List ℕ) :
    Prop where
  keeps : c.Keeps d
  lists : d.Lists members'
  listed : ∀ a, Listed members' a ↔ Listed members a
  freq : ∀ a < c.allocated, (d.heap a).freq =
    if a ∈ ns then agedFreq c.maxAverageNum_ (c.heap a).freq else (c.heap a).freq

theorem Lists.ageNodes (hl : c.Lists members) (ns : List ℕ) (hnodup : ns.Nodup)
    (hns : ∀ n ∈ ns, Listed members n) :
    ∃ d members', ns.foldlM ageNode c = some d ∧ Aged c d members members' ns := by
  induction ns generalizing c members with
  | nil =>
      refine ⟨c, members, rfl, ⟨?_, hl, fun _ => Iff.rfl, fun _ _ => by simp⟩⟩
      exact ⟨rfl, rfl, rfl, rfl, rfl, fun _ _ => rfl, fun _ _ => rfl, Nat.le_refl _,
        fun f hf => hf⟩
  | cons n ns ih =>
      obtain ⟨f, hn⟩ := hns n (by simp)
      obtain ⟨hnew, hnodup⟩ := List.nodup_cons.mp hnodup
      obtain ⟨d, hmove, hmoved⟩ := hl.moveNode hn (agedFreq c.maxAverageNum_ (c.heap n).freq)
      obtain ⟨e, members', hfold, haged⟩ := ih hmoved.lists hnodup (by
        intro m hm
        rw [hl.listed_moved hn]
        exact hns m (by simp [hm]))
      refine ⟨e, members', ?_, ⟨hmoved.keeps.trans haged.keeps, haged.lists, ?_, ?_⟩⟩
      · rw [List.foldlM_cons, ageNode_eq, hmove]
        exact hfold
      · intro a
        rw [haged.listed, hl.listed_moved hn]
      · intro a ha
        rw [haged.freq a (Nat.lt_of_lt_of_le ha hmoved.keeps.allocated),
          hmoved.keeps.maxAverageNum_]
        by_cases han : a = n
        · subst han
          simp [hnew, hmoved.freq_self]
        · rw [hmoved.freq_of_ne a ha han]
          simp [han]

/-! ## The smallest frequency -/

omit [Inhabited Key] [Inhabited Value] in
theorem foldl_min_spec {α : Type} (skip : α → Bool) (v : α → ℤ) (es : List α) (b : ℤ) :
    let m := es.foldl (fun m e => if skip e then m else min m (v e)) b
    m ≤ b ∧ (∀ e ∈ es, skip e = false → m ≤ v e) ∧
      (m = b ∨ ∃ e ∈ es, skip e = false ∧ v e = m) := by
  induction es generalizing b with
  | nil => simp
  | cons e es ih =>
      simp only [List.foldl_cons]
      cases he : skip e with
      | true =>
          obtain ⟨hle, hall, hreach⟩ := ih b
          simp only [↓reduceIte]
          refine ⟨hle, ?_, ?_⟩
          · intro e' he' hskip
            rcases List.mem_cons.mp he' with rfl | he'
            · simp [he] at hskip
            · exact hall e' he' hskip
          · rcases hreach with hm | ⟨e', he', hskip, hm⟩
            · exact .inl hm
            · exact .inr ⟨e', List.mem_cons_of_mem _ he', hskip, hm⟩
      | false =>
          obtain ⟨hle, hall, hreach⟩ := ih (min b (v e))
          simp only [Bool.false_eq_true, ↓reduceIte]
          refine ⟨by omega, ?_, ?_⟩
          · intro e' he' hskip
            rcases List.mem_cons.mp he' with rfl | he'
            · omega
            · exact hall e' he' hskip
          · rcases hreach with hm | ⟨e', he', hskip, hm⟩
            · by_cases hb : b ≤ v e
              · exact .inl (by rw [hm]; omega)
              · exact .inr ⟨e, by simp, he, by rw [hm]; omega⟩
            · exact .inr ⟨e', List.mem_cons_of_mem _ he', hskip, hm⟩

/-- `f` is the smallest frequency of a member. -/
def IsMin (members : ℤ → List ℕ) (f : ℤ) : Prop :=
  members f ≠ [] ∧ ∀ g, members g ≠ [] → f ≤ g

/-- What `updateMinFreq` finds. `INT8_MAX` stands for "no member", and hides the frequencies
from there on. -/
def FoundMin (members : ℤ → List ℕ) (f : ℤ) : Prop :=
  IsMin members f ∧ f < INT8_MAX ∨ f = 1 ∧ ∀ g, members g ≠ [] → INT8_MAX ≤ g

omit [Inhabited Key] [Inhabited Value] in
theorem Lists.updateMinFreq (hl : c.Lists members) (o : IterationOrders Key) :
    FoundMin members (c.updateMinFreq o).minFreq_ := by
  obtain ⟨hle, hall, hreach⟩ := foldl_min_spec (fun e : Σ _ : ℤ, FreqList => e.2.isEmpty c.heap)
    (fun e => e.1) (o.lists c.freqToFreqList_.entries) INT8_MAX
  generalize hm : (o.lists c.freqToFreqList_.entries).foldl
    (fun m e => if e.2.isEmpty c.heap then m else min m e.1) INT8_MAX = m at hle hall hreach
  have hentry : ∀ g l, (⟨g, l⟩ : Σ _ : ℤ, FreqList) ∈ o.lists c.freqToFreqList_.entries →
      (l.isEmpty c.heap = false ↔ members g ≠ []) := by
    intro g l hin
    have hlookup : c.freqToFreqList_.lookup g = some l :=
      AList.mem_lookup_iff.mpr ((o.lists_perm _).mem_iff.mp hin)
    rw [← Bool.not_eq_true, FreqList.isEmpty_iff (hl.chain g l hlookup)]
  have hbound : ∀ g, members g ≠ [] → m ≤ g := by
    intro g hg
    obtain ⟨n, hn⟩ := List.exists_mem_of_ne_nil _ hg
    obtain ⟨l, hlookup⟩ := hl.lookup_of_mem hn
    have hin := (o.lists_perm _).mem_iff.mpr (AList.mem_lookup_iff.mp hlookup)
    exact hall ⟨g, l⟩ hin ((hentry g l hin).mpr hg)
  have heq : (c.updateMinFreq o).minFreq_ = if m = INT8_MAX then 1 else m := by
    simp [LfuCache.updateMinFreq, hm]
  rw [heq]
  by_cases hmax : m = INT8_MAX
  · rw [if_pos hmax]
    exact .inr ⟨rfl, hmax ▸ hbound⟩
  · rw [if_neg hmax]
    obtain ⟨⟨g, l⟩, hin, hskip, rfl⟩ := hreach.resolve_left hmax
    exact .inl ⟨⟨(hentry g l hin).mp hskip, hbound⟩, by simp at hle hmax ⊢; omega⟩

/-! ## Counting an access -/

/-- Every key's node has the key and is in a list, and no frequency is below 1. -/
structure Stored (c : LfuCache Key Value) (members : ℤ → List ℕ) : Prop where
  lists : c.Lists members
  pos : ∀ f n, n ∈ members f → 1 ≤ f
  key : ∀ k n, (⟨k, n⟩ : Σ _ : Key, ℕ) ∈ c.nodeMap_.entries → (c.heap n).key = k
  listed : ∀ k n, (⟨k, n⟩ : Σ _ : Key, ℕ) ∈ c.nodeMap_.entries → Listed members n

/-- The nodes of the cached keys. -/
def nodes (c : LfuCache Key Value) : List ℕ := c.nodeMap_.entries.map fun e => e.2

omit [Inhabited Key] [Inhabited Value] in
@[simp] theorem mem_nodes : n ∈ c.nodes ↔ ∃ k, (⟨k, n⟩ : Σ _ : Key, ℕ) ∈ c.nodeMap_.entries := by
  simp [nodes]

omit [Inhabited Key] [Inhabited Value] in
theorem length_nodes (c : LfuCache Key Value) : c.nodes.length = c.size := by
  simp [nodes, size]

omit [Inhabited Key] [Inhabited Value] in
theorem Stored.nodup_nodes (s : c.Stored members) : c.nodes.Nodup := by
  refine List.Nodup.map_on ?_ c.nodeMap_.nodupKeys.nodup
  rintro ⟨k, n⟩ hk ⟨k', n'⟩ hk' heq
  simp only at heq
  subst heq
  rw [← s.key k n hk, ← s.key k' n hk']

omit [Inhabited Key] [Inhabited Value] in
theorem Stored.lt_allocated {k : Key} (s : c.Stored members)
    (hk : (⟨k, n⟩ : Σ _ : Key, ℕ) ∈ c.nodeMap_.entries) : n < c.allocated := by
  obtain ⟨f, hf⟩ := s.listed k n hk
  exact s.lists.lt_allocated hf

omit [Inhabited Key] [Inhabited Value] in
/-- The counters do not matter. -/
theorem Stored.of_eq (s : c.Stored members) (hheap : d.heap = c.heap)
    (hlists : d.freqToFreqList_ = c.freqToFreqList_) (hallocated : d.allocated = c.allocated)
    (hnodes : d.nodeMap_ = c.nodeMap_) : d.Stored members where
  lists := s.lists.of_eq hheap hlists hallocated
  pos := s.pos
  key k n hk := by
    rw [hheap]
    exact s.key k n (hnodes ▸ hk)
  listed k n hk := s.listed k n (hnodes ▸ hk)

/-- The first part of `addFreqNum`. -/
def counted (c : LfuCache Key Value) : LfuCache Key Value :=
  { c with curTotalNum_ := increment c.curTotalNum_ }.updateAverage

/-- The access that is counted makes the average too high. -/
def Ages (c : LfuCache Key Value) : Prop := c.counted.curAverageNum_ > c.maxAverageNum_ ∧ c.size ≠ 0

instance (c : LfuCache Key Value) : Decidable c.Ages :=
  inferInstanceAs (Decidable (c.counted.curAverageNum_ > c.maxAverageNum_ ∧ c.size ≠ 0))

theorem addFreqNum_of_not_ages (o : IterationOrders Key) (hages : ¬ c.Ages) :
    c.addFreqNum o = some c.counted := by
  have hsize : c.counted.size = c.size := rfl
  have hmax : c.counted.maxAverageNum_ = c.maxAverageNum_ := rfl
  simp only [Ages, not_and, not_not] at hages
  change (if c.counted.curAverageNum_ > c.counted.maxAverageNum_
    then c.counted.handleOverMaxAverageNum o else some c.counted) = some c.counted
  by_cases hgt : c.counted.curAverageNum_ > c.maxAverageNum_
  · rw [hmax, if_pos hgt, handleOverMaxAverageNum, if_pos (hsize.trans (hages hgt))]
  · rw [hmax, if_neg hgt]

theorem addFreqNum_of_fold (o : IterationOrders Key) (hages : c.Ages)
    (hfold : ((o.nodes c.nodeMap_.entries).map fun e => e.2).foldlM ageNode c.counted = some d) :
    c.addFreqNum o = some (d.updateMinFreq o) := by
  have hmax : c.counted.curAverageNum_ > c.counted.maxAverageNum_ := hages.1
  have hsize : c.counted.size ≠ 0 := hages.2
  have hnodes : c.counted.nodeMap_ = c.nodeMap_ := rfl
  rw [List.foldlM_map] at hfold
  change (if c.counted.curAverageNum_ > c.counted.maxAverageNum_
    then c.counted.handleOverMaxAverageNum o else some c.counted) = some (d.updateMinFreq o)
  rw [if_pos hmax, handleOverMaxAverageNum, if_neg hsize, hnodes, hfold]
  rfl

omit [Inhabited Key] [Inhabited Value] in
theorem Stored.of_keeps {members' : ℤ → List ℕ} (s : c.Stored members) (hkeeps : c.Keeps d)
    (hlists : d.Lists members') (hlisted : ∀ a, Listed members' a ↔ Listed members a)
    (hpos : ∀ a, Listed members' a → 1 ≤ (d.heap a).freq) : d.Stored members' where
  lists := hlists
  pos f n hn := hlists.freq f n hn ▸ hpos n ⟨f, hn⟩
  key k n hk := by
    rw [hkeeps.nodeMap_] at hk
    rw [hkeeps.key n (s.lt_allocated hk), s.key k n hk]
  listed k n hk := by
    rw [hkeeps.nodeMap_] at hk
    exact (hlisted n).mpr (s.listed k n hk)

omit [Inhabited Key] [Inhabited Value] in
theorem one_le_agedFreq (m f : ℤ) : 1 ≤ agedFreq m f := Int.le_max_right _ _

theorem Stored.addFreqNum_of_ages (s : c.Stored members) (o : IterationOrders Key)
    (hages : c.Ages) :
    ∃ d members', c.addFreqNum o = some d ∧ d.Stored members' ∧
      Aged c.counted d members members' c.nodes ∧ FoundMin members' d.minFreq_ := by
  have hperm : (o.nodes c.nodeMap_.entries).Perm c.nodeMap_.entries := o.nodes_perm _
  let ns := (o.nodes c.nodeMap_.entries).map fun e => e.2
  have hns : ns.Perm c.nodes := hperm.map _
  have hlists : c.counted.Lists members := s.lists.of_eq rfl rfl rfl
  obtain ⟨d, members', hfold, haged⟩ := hlists.ageNodes ns (hns.nodup_iff.mpr s.nodup_nodes) (by
    intro n hn
    obtain ⟨k, hk⟩ := mem_nodes.mp (hns.mem_iff.mp hn)
    exact s.listed k n hk)
  have hmin := haged.lists.updateMinFreq o
  have hfreq : ∀ a < c.allocated, (d.heap a).freq =
      if a ∈ c.nodes then agedFreq c.maxAverageNum_ (c.heap a).freq else (c.heap a).freq := by
    intro a ha
    rw [haged.freq a ha]
    simp only [hns.mem_iff]
    rfl
  have hstored : d.Stored members' := by
    refine Stored.of_keeps (c := c.counted) (s.of_eq rfl rfl rfl rfl) haged.keeps
      haged.lists haged.listed ?_
    intro a ha
    obtain ⟨f, hf⟩ := (haged.listed a).mp ha
    rw [hfreq a (s.lists.lt_allocated hf)]
    by_cases hn : a ∈ c.nodes
    · rw [if_pos hn]
      exact one_le_agedFreq _ _
    · rw [if_neg hn, s.lists.freq f a hf]
      exact s.pos f a hf
  refine ⟨d.updateMinFreq o, members', addFreqNum_of_fold o hages hfold, ?_, ?_, hmin⟩
  · exact hstored.of_eq rfl rfl rfl rfl
  · refine ⟨?_, haged.lists.of_eq rfl rfl rfl, haged.listed, hfreq⟩
    exact ⟨haged.keeps.capacity_, haged.keeps.maxAverageNum_, haged.keeps.curAverageNum_,
      haged.keeps.curTotalNum_, haged.keeps.nodeMap_, haged.keeps.key, haged.keeps.value,
      haged.keeps.allocated, haged.keeps.lists⟩

end LfuCache

end CkServer
