import CkServer.Verification.Lfu.Eviction
import CkServer.Verification.Lfu.Ranking

/-! # The cache is a ranking

The list under each frequency has the entries of the ranking with this number of uses, in their
order. Each call of the cache is then a request to the ranking with the same answer. -/

namespace CkServer

/-- What a call asks, whatever the order in which it goes over the hash maps. -/
def CacheCall.request {Key Value : Type} : CacheCall Key Value → Request Key Value
  | .put _ key value => .put key value
  | .get _ key => .get key
  | .purge => .purge

namespace LfuCache

/-- A call with its answer, which is the value that `get` has found. -/
def respond {Key Value : Type} [Inhabited Key] [Inhabited Value] [DecidableEq Key]
    (c : LfuCache Key Value) : CacheCall Key Value → Option (LfuCache Key Value × Option Value)
  | .put o key value => (c.put o key value).map fun c => (c, none)
  | .get o key => c.get o key
  | .purge => some (c.purge, none)

/-- The state after a sequence of calls, and their answers. -/
def responses {Key Value : Type} [Inhabited Key] [Inhabited Value] [DecidableEq Key] :
    LfuCache Key Value → List (CacheCall Key Value) →
      Option (LfuCache Key Value × List (Option Value))
  | c, [] => some (c, [])
  | c, op :: ops => do
      let (c, answer) ← c.respond op
      let (c, answers) ← c.responses ops
      return (c, answer :: answers)

variable {Key Value : Type} {c d t : LfuCache Key Value} {members members' : ℤ → List ℕ} {n : ℕ}
  {f g : ℤ} {es : List (Ranked Key Value)}

/-- A node as an entry of a ranking. -/
def ranked (c : LfuCache Key Value) (n : ℕ) : Ranked Key Value :=
  ⟨(c.heap n).key, (c.heap n).value, (c.heap n).freq⟩

/-- Every list has the entries with its frequency, in their order. -/
def Ranks (c : LfuCache Key Value) (members : ℤ → List ℕ) (es : List (Ranked Key Value)) : Prop :=
  ∀ f, (members f).map c.ranked = es.filter fun e => e.freq = f

/-! ## Nodes and entries -/

theorem Ranks.of_ranked (h : c.Ranks members es)
    (hsame : ∀ a, Listed members a → d.ranked a = c.ranked a) : d.Ranks members es := by
  intro f
  rw [← h f]
  exact List.map_congr_left fun a ha => hsame a ⟨f, ha⟩

theorem Ranks.mem_iff (h : c.Ranks members es) {e : Ranked Key Value} :
    e ∈ es ↔ ∃ a, Listed members a ∧ c.ranked a = e := by
  constructor
  · intro he
    have hin : e ∈ (members e.freq).map c.ranked := by
      rw [h e.freq]
      exact List.mem_filter.mpr ⟨he, by simp⟩
    obtain ⟨a, ha, heq⟩ := List.mem_map.mp hin
    exact ⟨a, ⟨_, ha⟩, heq⟩
  · rintro ⟨a, ⟨f, ha⟩, rfl⟩
    have hin : c.ranked a ∈ es.filter fun e => e.freq = f := by
      rw [← h f]
      exact List.mem_map_of_mem ha
    exact (List.mem_filter.mp hin).1

/-- A node at the end of a list is an entry at the end. -/
theorem Ranks.append (h : c.Ranks members es)
    (hsame : ∀ a, Listed members a → d.ranked a = c.ranked a) :
    d.Ranks (Function.update members (d.ranked n).freq (members (d.ranked n).freq ++ [n]))
      (es ++ [d.ranked n]) := by
  have hold := h.of_ranked hsame
  intro f
  rw [List.filter_append, ← hold f]
  by_cases hf : f = (d.ranked n).freq
  · rw [hf, Function.update_self, List.map_append]
    simp
  · rw [Function.update_of_ne hf]
    simp [Ne.symm hf]

section Keys

variable [DecidableEq Key]

/-- A node that leaves its list is an entry that goes. -/
theorem Ranks.erase (h : c.Ranks members es) (hl : c.Lists members)
    (hdiffer : c.KeysDiffer members) (hn : n ∈ members f)
    (hsame : ∀ a, Listed members a → a ≠ n → d.ranked a = c.ranked a) :
    d.Ranks (Function.update members f ((members f).erase n))
      (Ranking.without es (c.heap n).key) := by
  intro i
  have hleft : Function.update members f ((members f).erase n) i =
      (members i).filter fun a => a ≠ n := by
    by_cases hi : i = f
    · rw [hi, Function.update_self, (hl.nodup f).erase_eq_filter]
      exact List.filter_congr fun a _ => by rw [Bool.eq_iff_iff]; simp
    · rw [Function.update_of_ne hi, eq_comm, List.filter_eq_self]
      intro a ha
      simp only [decide_eq_true_eq]
      rintro rfl
      exact hi ((hl.freq i a ha).symm.trans (hl.freq f a hn))
  have hkeys : ∀ a ∈ members i, decide (a ≠ n) = decide ((c.ranked a).key ≠ (c.heap n).key) := by
    intro a ha
    have hiff : a ≠ n ↔ (c.ranked a).key ≠ (c.heap n).key :=
      not_congr ⟨fun heq => heq ▸ rfl, hdiffer a n ⟨i, ha⟩ ⟨f, hn⟩⟩
    simp only [hiff]
  have hmap : ((members i).filter fun a => a ≠ n).map d.ranked =
      ((members i).filter fun a => a ≠ n).map c.ranked := by
    apply List.map_congr_left
    intro a ha
    obtain ⟨hin, hne⟩ := List.mem_filter.mp ha
    exact hsame a ⟨i, hin⟩ (by simpa using hne)
  rw [hleft, hmap, List.filter_congr hkeys, Ranking.without, List.filter_comm, ← h i,
    List.filter_map]
  rfl

/-- A node that goes to the end of another list is an entry that gets another number of uses. -/
theorem Ranks.moved (h : c.Ranks members es) (hl : c.Lists members)
    (hdiffer : c.KeysDiffer members) (hn : n ∈ members f)
    (hsame : ∀ a, Listed members a → a ≠ n → d.ranked a = c.ranked a) :
    d.Ranks (moved members n f (d.heap n).freq)
      (Ranking.without es (c.heap n).key ++ [d.ranked n]) :=
  (h.erase hl hdiffer hn hsame).append fun _ _ => rfl

/-! ## The pass over the nodes -/

/-- The entries of the nodes `ns` come last, lowered. -/
def agedUpTo (es : List (Ranked Key Value)) (maxAverage : ℤ) (ns : List (Ranked Key Value)) :
    List (Ranked Key Value) :=
  (es.filter fun e => e.key ∉ ns.map (·.key)) ++ ns.map (Ranking.lowered maxAverage)

omit [DecidableEq Key] in
theorem ranked_aged (hmax : 0 ≤ c.maxAverageNum_) (hmax' : c.maxAverageNum_ < 2 ^ 31)
    (hmoved : Moved c d members n f (agedFreq c.maxAverageNum_ (c.heap n).freq))
    (hlt : n < c.allocated) (hrange : 1 ≤ (c.heap n).freq ∧ (c.heap n).freq < 2 ^ 31) :
    d.ranked n = Ranking.lowered c.maxAverageNum_ (c.ranked n) := by
  have hfreq := hmoved.freq_self
  rw [agedFreq_eq hmax hmax' hrange.1 hrange.2, aged, Int.tdiv_eq_ediv_of_nonneg hmax] at hfreq
  simp only [ranked, Ranking.lowered, hmoved.keeps.key n hlt, hmoved.keeps.value n hlt, hfreq]

omit [DecidableEq Key] in
theorem ranked_of_moved (hmoved : Moved c d members n f g) {a : ℕ} (hlt : a < c.allocated)
    (hne : a ≠ n) : d.ranked a = c.ranked a := by
  simp only [ranked, hmoved.keeps.key a hlt, hmoved.keeps.value a hlt,
    hmoved.freq_of_ne a hlt hne]

/-- One node after another goes to the end. -/
theorem agedUpTo_cons (es : List (Ranked Key Value)) (maxAverage : ℤ) (e : Ranked Key Value)
    (ns : List (Ranked Key Value)) (hnew : e.key ∉ ns.map (·.key)) :
    agedUpTo (Ranking.without es e.key ++ [Ranking.lowered maxAverage e]) maxAverage ns =
      agedUpTo es maxAverage (e :: ns) := by
  have hkey : (Ranking.lowered maxAverage e).key = e.key := rfl
  have hkeep : [Ranking.lowered maxAverage e].filter (fun e => e.key ∉ ns.map (·.key)) =
      [Ranking.lowered maxAverage e] := by
    rw [List.filter_cons_of_pos (by simpa [hkey] using hnew), List.filter_nil]
  rw [agedUpTo, List.filter_append, hkeep, Ranking.without, List.filter_filter, agedUpTo,
    List.map_cons, List.append_assoc, List.singleton_append, List.map_cons]
  congr 1
  apply List.filter_congr
  intro x _
  rw [Bool.eq_iff_iff]
  simp [and_comm]

section Access

variable [Inhabited Key] [Inhabited Value]

theorem Ranks.ageNodes (ns : List ℕ) (h : c.Ranks members es) (hl : c.Lists members)
    (hdiffer : c.KeysDiffer members) (hmax : 0 ≤ c.maxAverageNum_)
    (hmax' : c.maxAverageNum_ < 2 ^ 31) (hnodup : ns.Nodup) (hns : ∀ n ∈ ns, Listed members n)
    (hrange : ∀ n ∈ ns, 1 ≤ (c.heap n).freq ∧ (c.heap n).freq < 2 ^ 31) :
    ∃ d members', ns.foldlM ageNode c = some d ∧ c.Keeps d ∧ d.Lists members' ∧
      d.Ranks members' (agedUpTo es c.maxAverageNum_ (ns.map c.ranked)) := by
  induction ns generalizing c members es with
  | nil =>
      refine ⟨c, members, rfl, ?_, hl, by simpa [agedUpTo] using h⟩
      exact ⟨rfl, rfl, rfl, rfl, rfl, fun _ _ => rfl, fun _ _ => rfl, Nat.le_refl _,
        fun _ hf => hf⟩
  | cons n ns ih =>
      obtain ⟨f, hn⟩ := hns n (by simp)
      obtain ⟨hnew, hnodup⟩ := List.nodup_cons.mp hnodup
      obtain ⟨d, hmove, hmoved⟩ := hl.moveNode hn (agedFreq c.maxAverageNum_ (c.heap n).freq)
      have hlt := hl.lt_allocated hn
      have hothers : ∀ a, Listed members a → a ≠ n → d.ranked a = c.ranked a := by
        rintro a ⟨i, ha⟩ hne
        exact ranked_of_moved hmoved (hl.lt_allocated ha) hne
      have hrank := h.moved hl hdiffer hn hothers
      rw [hmoved.freq_self, ranked_aged hmax hmax' hmoved hlt (hrange n (by simp))] at hrank
      have hothers' : ∀ m ∈ ns, Listed members m ∧ m ≠ n := by
        refine fun m hm => ⟨hns m (by simp [hm]), ?_⟩
        rintro rfl
        exact hnew hm
      obtain ⟨e, members', hfold, hkeeps, hlists, haged⟩ := ih hrank hmoved.lists
        (hdiffer.moved hl hn hmoved.keeps.key) (by rwa [hmoved.keeps.maxAverageNum_])
        (by rwa [hmoved.keeps.maxAverageNum_]) hnodup (by
          intro m hm
          rw [hl.listed_moved hn]
          exact (hothers' m hm).1) (by
          intro m hm
          obtain ⟨⟨g, hg⟩, hne⟩ := hothers' m hm
          rw [hmoved.freq_of_ne m (hl.lt_allocated hg) hne]
          exact hrange m (by simp [hm]))
      have hrest : ns.map d.ranked = ns.map c.ranked := by
        apply List.map_congr_left
        intro a ha
        exact hothers a (hothers' a ha).1 (hothers' a ha).2
      have hkey : (c.ranked n).key ∉ (ns.map c.ranked).map (·.key) := by
        intro hmem
        rw [List.map_map] at hmem
        obtain ⟨a, ha, heq⟩ := List.mem_map.mp hmem
        rw [hdiffer a n (hothers' a ha).1 ⟨f, hn⟩ heq] at ha
        exact hnew ha
      refine ⟨e, members', ?_, hmoved.keeps.trans hkeeps, hlists, ?_⟩
      · rw [List.foldlM_cons, ageNode_eq, hmove]
        exact hfold
      · rw [hrest, hmoved.keeps.maxAverageNum_] at haged
        rw [List.map_cons, ← agedUpTo_cons es _ _ _ hkey]
        exact haged

end Access

/-! ## The counters -/

omit [DecidableEq Key] in
/-- The cache in a state that the ranking `r` tells all about. -/
structure Mirrors (c : LfuCache Key Value) (members : ℤ → List ℕ) (r : Ranking Key Value) :
    Prop where
  ranks : c.Ranks members r.entries
  keys : r.KeysDiffer
  total : r.total = c.curTotalNum_
  capacity : r.capacity = toSize_t c.capacity_
  maxAverage : r.maxAverage = c.maxAverageNum_

variable {r : Ranking Key Value}

omit [DecidableEq Key] in
/-- The entries are those of the cached nodes. -/
theorem Mirrors.perm (h : c.Mirrors members r) (s : c.Stored members)
    (honly : ∀ n, Listed members n → n ∈ c.nodes) : r.entries.Perm (c.nodes.map c.ranked) := by
  have hlisted : ∀ n, n ∈ c.nodes → Listed members n := by
    intro n hn
    obtain ⟨k, hk⟩ := mem_nodes.mp hn
    exact s.listed k n hk
  have hnodup : (c.nodes.map c.ranked).Nodup := by
    refine s.nodup_nodes.map_on fun a ha b hb heq => ?_
    exact s.keysDiffer honly a b (hlisted a ha) (hlisted b hb) (congrArg Ranked.key heq)
  refine (List.perm_ext_iff_of_nodup (List.Nodup.of_map _ h.keys) hnodup).mpr fun e => ?_
  rw [h.ranks.mem_iff, List.mem_map]
  constructor
  · rintro ⟨a, ha, heq⟩
    exact ⟨a, honly a ha, heq⟩
  · rintro ⟨a, ha, heq⟩
    exact ⟨a, hlisted a ha, heq⟩

omit [DecidableEq Key] in
theorem Mirrors.length (h : c.Mirrors members r) (s : c.Stored members)
    (honly : ∀ n, Listed members n → n ∈ c.nodes) : r.entries.length = c.size := by
  rw [(h.perm s honly).length_eq, List.length_map, length_nodes]

omit [DecidableEq Key] in
theorem Mirrors.tooHigh_iff (h : c.Mirrors members r) (s : c.Stored members)
    (honly : ∀ n, Listed members n → n ∈ c.nodes) (hnodes : c.nodes ≠ [])
    (htotal : 0 ≤ c.curTotalNum_) (hlt : c.curTotalNum_ < 2 ^ 31 - 1) : r.TooHigh ↔ c.Ages := by
  have hsize : c.size ≠ 0 := by
    rw [← length_nodes]
    exact fun hnil => hnodes (List.length_eq_zero_iff.mp hnil)
  have hpos : (0 : ℤ) < c.size := by omega
  rw [Ranking.TooHigh, h.length s honly, h.total, h.maxAverage, ages_iff htotal hlt,
    ← Int.add_one_le_iff, Int.le_ediv_iff_mul_le hpos]
  exact (and_iff_right hsize).symm

variable [Inhabited Key] [Inhabited Value]

/-- The use that a call counts is one that the ranking counts. -/
theorem Mirrors.addFreqNum (h : c.Mirrors members r) (s : c.Stored members)
    (honly : ∀ n, Listed members n → n ∈ c.nodes) (ha : Accessed t c)
    (hsum : t.freqSum ≤ t.curTotalNum_) (hmax : 0 ≤ c.maxAverageNum_)
    (hmax' : c.maxAverageNum_ < 2 ^ 31) (o : IterationOrders Key) :
    ∃ d members' r', c.addFreqNum o = some d ∧ d.Lists members' ∧ d.Mirrors members' r' ∧
      r.Counts r' := by
  have htoo := h.tooHigh_iff s honly ha.nodes ha.total_nonneg ha.total_lt
  have hinc := increment_of_lt ha.total_lt
  by_cases hages : c.Ages
  · have hperm : (o.nodes c.nodeMap_.entries).Perm c.nodeMap_.entries := o.nodes_perm _
    let ns := (o.nodes c.nodeMap_.entries).map fun e => e.2
    have hns : ns.Perm c.nodes := hperm.map _
    have hlists : c.counted.Lists members := s.lists.of_eq rfl rfl rfl
    obtain ⟨d, members', hfold, hkeeps, hd, haged⟩ := Ranks.ageNodes (c := c.counted) ns h.ranks
      hlists (s.keysDiffer honly) hmax hmax' (hns.nodup_iff.mpr s.nodup_nodes) (by
        intro n hn
        obtain ⟨k, hk⟩ := mem_nodes.mp (hns.mem_iff.mp hn)
        exact s.listed k n hk) (by
        intro n hn
        have hin := hns.mem_iff.mp hn
        exact ⟨s.one_le_freq hin, ha.freq_lt s hsum hin⟩)
    have horder : (ns.map c.ranked).Perm r.entries := (hns.map _).trans (h.perm s honly).symm
    have hall : r.entries.filter (fun e => e.key ∉ (ns.map c.ranked).map (·.key)) = [] := by
      rw [List.filter_eq_nil_iff]
      intro e he
      have hin := List.mem_map_of_mem (f := (·.key)) (horder.mem_iff.mpr he)
      simpa using hin
    have hcount : r.Counts { r with
        total := r.total + 1
        entries := (ns.map c.ranked).map (Ranking.lowered r.maxAverage) } :=
      .lowering (htoo.mpr hages) _ horder
    refine ⟨d.updateMinFreq o, members', _, addFreqNum_of_fold o hages hfold,
      hd.of_eq rfl rfl rfl, ⟨?_, h.keys.counts hcount, ?_, ?_, ?_⟩, hcount⟩
    · have heq : agedUpTo r.entries c.counted.maxAverageNum_ (ns.map c.counted.ranked) =
          (ns.map c.ranked).map (Ranking.lowered r.maxAverage) := by
        have hranked : ns.map c.counted.ranked = ns.map c.ranked := rfl
        rw [hranked, agedUpTo, hall, List.nil_append, h.maxAverage]
        rfl
      rw [heq] at haged
      exact haged
    · change r.total + 1 = d.curTotalNum_
      rw [hkeeps.curTotalNum_, h.total, ← hinc]
      rfl
    · change r.capacity = toSize_t d.capacity_
      rw [hkeeps.capacity_]
      exact h.capacity
    · change r.maxAverage = d.maxAverageNum_
      rw [hkeeps.maxAverageNum_]
      exact h.maxAverage
  · have hcount : r.Counts { r with total := r.total + 1 } :=
      .plain fun htoo' => hages (htoo.mp htoo')
    refine ⟨c.counted, members, { r with total := r.total + 1 }, addFreqNum_of_not_ages o hages,
      s.lists.of_eq rfl rfl rfl,
      ⟨h.ranks, h.keys.counts hcount, ?_, h.capacity, h.maxAverage⟩, hcount⟩
    change r.total + 1 = increment c.curTotalNum_
    rw [h.total, hinc]

/-! ## Calls -/

omit [DecidableEq Key] [Inhabited Key] [Inhabited Value] in
/-- The entry of a cached key. -/
theorem Mirrors.mem_of_lookup [DecidableEq Key] (h : c.Mirrors members r) (s : c.Stored members)
    {k : Key} (hk : c.nodeMap_.lookup k = some n) :
    c.ranked n ∈ r.entries ∧ (c.ranked n).key = k := by
  have hin := mem_entries hk
  exact ⟨h.ranks.mem_iff.mpr ⟨n, s.listed k n hin, rfl⟩, s.key k n hin⟩

omit [Inhabited Key] [Inhabited Value] in
theorem Mirrors.not_holds (h : c.Mirrors members r) (s : c.Exact members) {k : Key}
    (hk : c.nodeMap_.lookup k = none) : ¬ r.Holds k := by
  rintro ⟨e, he, rfl⟩
  obtain ⟨a, ha, rfl⟩ := h.ranks.mem_iff.mp he
  exact AList.lookup_eq_none.mp hk (s.stored.key_mem (s.only a ha))

/-- The touched node is the entry that is used. Its value may be another one by now. -/
theorem Mirrors.getInternal (h : c.Mirrors members r) (s : c.Exact members)
    (hmax : 0 ≤ c.maxAverageNum_) (hroom : c.curTotalNum_ < 2 ^ 31 - 1) (o : IterationOrders Key)
    (hn : n ∈ c.nodes) (v : Value) :
    ∃ d members' r', (c.withValue n v).getInternal o n = some (d, v) ∧ d.Lists members' ∧
      d.Mirrors members' r' ∧ (r.use (c.ranked n) v).Counts r' := by
  have hf := s.stored.mem_members hn
  have hs := s.withValue n v
  have hvalue : ((c.withValue n v).heap n).value = v := by
    simp [LfuCache.withValue, Heap.setValue]
  have hfreq := s.stored.freq_le_freqSum hn
  have hsum := s.freqSum_le
  obtain ⟨t, htouch, ht⟩ := hs.stored.touch hf (by omega)
  have hnodes : t.nodes = c.nodes := nodes_of_eq ht.keeps.nodeMap_
  have hlt := s.stored.lt_of_mem_nodes hn
  have hkeys (a : ℕ) : ((c.withValue n v).heap a).key = (c.heap a).key := by
    by_cases ha : a = n
    · subst ha
      simp [LfuCache.withValue, Heap.setValue]
    · simp [LfuCache.withValue, Heap.setValue, Heap.set_of_ne _ _ ha]
  have hothers : ∀ a, Listed members a → a ≠ n → t.ranked a = c.ranked a := by
    rintro a ⟨i, ha⟩ hne
    have hlt' : a < (c.withValue n v).allocated := s.stored.lists.lt_allocated ha
    have hsame : (c.withValue n v).heap a = c.heap a := Heap.set_of_ne _ _ hne
    simp only [ranked, ht.keeps.key a hlt', ht.keeps.value a hlt', ht.freq_of_ne a hlt' hne, hsame]
  have hself : t.ranked n = ⟨(c.ranked n).key, v, (c.ranked n).freq + 1⟩ := by
    simp only [ranked, ht.keeps.key n hlt, ht.keeps.value n hlt, ht.freq_self, hvalue, hkeys]
  have hranks := h.ranks.moved s.stored.lists (s.stored.keysDiffer s.only) hf hothers
  rw [hself, ht.freq_self] at hranks
  have hmirrors : t.Mirrors (LfuCache.moved members n (c.heap n).freq ((c.heap n).freq + 1))
      (r.use (c.ranked n) v) :=
    ⟨hranks, h.keys.use _ _, h.total.trans ht.keeps.curTotalNum_.symm,
      h.capacity.trans (congrArg toSize_t ht.keeps.capacity_.symm),
      h.maxAverage.trans ht.keeps.maxAverageNum_.symm⟩
  have honly : ∀ a, Listed (LfuCache.moved members n (c.heap n).freq ((c.heap n).freq + 1)) a →
      a ∈ t.nodes := by
    intro a ha
    rw [hnodes]
    exact s.only a ((s.stored.lists.listed_moved hf).mp ha)
  have haccessed := hs.accessed_touched hn hf ht hroom
  obtain ⟨d, members', r', hadd, hd, hmirrors', hcount⟩ := hmirrors.addFreqNum ht.stored honly
    haccessed hs.freqSum_le (haccessed.maxAverageNum_ ▸ hmax)
    (haccessed.maxAverageNum_ ▸ s.max_lt) o
  refine ⟨d, members', r', ?_, hd, hmirrors', hcount⟩
  rw [getInternal_eq, htouch, Option.bind_some, hadd, Option.map_some, hvalue]

omit [DecidableEq Key] [Inhabited Key] [Inhabited Value] in
/-- The entries from the first with the smallest number of uses on. -/
theorem Mirrors.split (h : c.Mirrors members r) (s : c.Exact members) {ms : List ℕ}
    (hms : members c.minFreq_ = n :: ms) :
    ∃ before after, r.entries = before ++ c.ranked n :: after ∧
      (∀ e ∈ before, (c.ranked n).freq < e.freq) ∧ ∀ e ∈ after, (c.ranked n).freq ≤ e.freq := by
  have hn : n ∈ members c.minFreq_ := by simp [hms]
  have hnodes : c.nodes ≠ [] := List.ne_nil_of_mem (s.only n ⟨_, hn⟩)
  have hmin : ∀ e ∈ r.entries, c.minFreq_ ≤ e.freq := by
    intro e he
    obtain ⟨a, ha, rfl⟩ := h.ranks.mem_iff.mp he
    exact (s.minTrue hnodes).2 a (s.only a ha)
  have hfreq : (c.ranked n).freq = c.minFreq_ := s.stored.lists.freq _ n hn
  have hfirst : r.entries.filter (fun e => e.freq = c.minFreq_) =
      c.ranked n :: ms.map c.ranked := by
    rw [← h.ranks c.minFreq_, hms, List.map_cons]
  obtain ⟨before, after, heq, hbefore, -, -⟩ := List.filter_eq_cons_iff.mp hfirst
  refine ⟨before, after, heq, fun e he => ?_, fun e he => ?_⟩
  · have hle := hmin e (by simp [heq, he])
    have hne := hbefore e he
    simp only [decide_eq_true_eq] at hne
    omega
  · have hle := hmin e (by simp [heq, he])
    omega

omit [Inhabited Key] [Inhabited Value] in
theorem without_of_split {before after : List (Ranked Key Value)} {e : Ranked Key Value}
    (h : r.KeysDiffer) (heq : r.entries = before ++ e :: after) :
    Ranking.without r.entries e.key = before ++ after := by
  rw [Ranking.KeysDiffer, heq, List.map_append, List.map_cons] at h
  obtain ⟨-, hafter, hdisjoint⟩ := List.nodup_append.mp h
  have hkeep : ∀ x ∈ before ++ after, x.key ≠ e.key := by
    intro x hx hkey
    rcases List.mem_append.mp hx with hx | hx
    · exact hdisjoint x.key (List.mem_map_of_mem hx) e.key (by simp) hkey
    · exact (List.nodup_cons.mp hafter).1 (hkey ▸ List.mem_map_of_mem hx)
  have hgone : (e :: after).filter (fun x => x.key ≠ e.key) =
      after.filter fun x => x.key ≠ e.key := List.filter_cons_of_neg (by simp)
  rw [heq, Ranking.without, List.filter_append, hgone, ← List.filter_append, List.filter_eq_self]
  exact fun x hx => decide_eq_true (hkeep x hx)

omit [Inhabited Key] [Inhabited Value] in
/-- The node that is kicked out is the entry that goes. -/
theorem Mirrors.room (h : c.Mirrors members r) (s : c.Exact members) (hcap : c.capacity_ ≠ 0)
    (hroom : c.size ≠ toSize_t c.capacity_ → c.curTotalNum_ < 2 ^ 31 - 1) :
    ∃ e members' r', (if c.size = toSize_t c.capacity_ then c.kickOut else some c) = some e ∧
      Room c e members' ∧ e.Mirrors members' r' ∧ r.MakesRoom r' := by
  have hlength := h.length s.stored s.only
  have hcapacity := h.capacity
  by_cases hfull : c.size = toSize_t c.capacity_
  · obtain ⟨n, ms, hms, hkick⟩ := s.kickOut hcap hfull
    have hn : n ∈ members c.minFreq_ := by simp [hms]
    obtain ⟨before, after, heq, hbefore, hafter⟩ := h.split s hms
    let left : Ranking Key Value :=
      { r with total := r.total - (c.ranked n).freq, entries := before ++ after }
    have hroom : r.MakesRoom left := .full before (c.ranked n) after heq (by omega) hbefore hafter
    have hsame : ∀ a, Listed members a → a ≠ n → (c.evicted n).ranked a = c.ranked a := by
      intro a _ _
      obtain ⟨hfreq, hkey, hvalue⟩ := FreqList.sameData_removeNode c.heap n a
      have hheap : (c.evicted n).heap a = FreqList.removeNode c.heap n a := rfl
      simp only [ranked, hheap, hfreq, hkey, hvalue]
    have hranks := h.ranks.erase s.stored.lists (s.stored.keysDiffer s.only) hn hsame
    have hwithout := without_of_split h.keys heq
    refine ⟨c.evicted n, _, left, by rw [if_pos hfull, hkick], s.room_evicted hfull hn,
      ⟨?_, ?_, ?_, h.capacity, h.maxAverage⟩, hroom⟩
    · have hentries : left.entries = before ++ after := rfl
      rw [hentries, ← hwithout]
      exact hranks
    · exact h.keys.sublist (hroom.sublist.map _)
    · change r.total - (c.heap n).freq = (c.evicted n).curTotalNum_
      rw [h.total, s.total_evicted (s.only n ⟨_, hn⟩)]
  · have hle := s.size_le
    exact ⟨c, members, r, if_neg hfull, s.room_of_free hfull (hroom hfull), h,
      .free (by omega)⟩

/-- The new node is the new entry. -/
theorem Mirrors.putInternal (h : c.Mirrors members r) (s : c.Exact members)
    (hcap : c.capacity_ ≠ 0) (hmax : 0 ≤ c.maxAverageNum_)
    (hroom : c.size ≠ toSize_t c.capacity_ → c.curTotalNum_ < 2 ^ 31 - 1)
    (o : IterationOrders Key) {k : Key} (hk : c.nodeMap_.lookup k = none) (v : Value) :
    ∃ d members' r₁ r₂, c.putInternal o k v = some d ∧ d.Lists members' ∧
      d.Mirrors members' r₂ ∧ r.MakesRoom r₁ ∧ (r₁.insert k v).Counts r₂ := by
  have hmiss := AList.lookup_eq_none.mp hk
  obtain ⟨e, members₁, r₁, hroom, hr, he, hmakes⟩ := h.room s hcap hroom
  obtain ⟨t, hstore, hi⟩ := hr.stored.store (v := v) (hr.nodeMap_ k hmiss)
  have hkey : (t.heap e.allocated).key = k := by
    refine hi.stored.key k e.allocated ?_
    rw [hi.nodeMap_, AList.entries_insert_of_notMem (hr.nodeMap_ k hmiss)]
    exact List.mem_cons_self ..
  have hself : t.ranked e.allocated = ⟨k, v, 1⟩ := by
    simp only [ranked, hkey, hi.new.1, hi.new.2]
  have hold : ∀ a, Listed members₁ a → t.ranked a = e.ranked a := by
    rintro a ⟨i, ha⟩
    obtain ⟨hfreq, hkey, hvalue⟩ := hi.old a (hr.stored.lists.lt_allocated ha)
    simp only [ranked, hfreq, hkey, hvalue]
  have hranks := he.ranks.append (n := e.allocated) hold
  rw [hself] at hranks
  have hmirrors : t.Mirrors (Function.update members₁ 1 (members₁ 1 ++ [e.allocated]))
      (r₁.insert k v) :=
    ⟨hranks, he.keys.insert (hmakes.not_holds (h.not_holds s hk)) v,
      he.total.trans hi.curTotalNum_.symm,
      he.capacity.trans (congrArg toSize_t hi.capacity_.symm),
      he.maxAverage.trans hi.maxAverageNum_.symm⟩
  have haccessed := hr.accessed hi hmiss s.freqSum_le
  obtain ⟨d, members', r₂, hadd, hd, hmirrors', hcount⟩ := hmirrors.addFreqNum hi.stored
    (hr.only_inserted hi hmiss) haccessed s.freqSum_le (haccessed.maxAverageNum_ ▸ hmax)
    (haccessed.maxAverageNum_ ▸ s.max_lt) o
  refine ⟨{ d with minFreq_ := min d.minFreq_ 1 }, members', r₁, r₂, ?_,
    hd.of_eq rfl rfl rfl, ⟨hmirrors'.ranks, hmirrors'.keys, hmirrors'.total, hmirrors'.capacity,
      hmirrors'.maxAverage⟩, hmakes, hcount⟩
  rw [putInternal_eq, hroom, Option.bind_some, hstore, Option.bind_some, hadd]
  rfl

theorem call_eq (c : LfuCache Key Value) (op : CacheCall Key Value) :
    c.call op = (c.respond op).map Prod.fst := by
  cases op with
  | put o k v =>
      simp only [call, respond, Option.map_map]
      exact Option.map_id'.symm
  | get o k => rfl
  | purge => rfl

omit [DecidableEq Key] [Inhabited Key] [Inhabited Value] in
theorem withValue_self (c : LfuCache Key Value) (n : ℕ) :
    c.withValue n (c.heap n).value = c := by
  have hheap : c.heap.setValue n (c.heap n).value = c.heap := by
    simp only [Heap.setValue, Heap.set]
    exact congrArg Heap.mk (Function.update_eq_self n c.heap.node)
  simp only [withValue, hheap]

/-- The step lemma: a call answers as the ranking does. -/
theorem Mirrors.respond (h : c.Mirrors members r) (s : c.Exact members) (hcap : c.capacity_ ≠ 0)
    (hmax : 0 ≤ c.maxAverageNum_) (op : CacheCall Key Value)
    (hroom : c.Raises op → c.curTotalNum_ < 2 ^ 31 - 1) :
    ∃ d members' a r', c.respond op = some (d, a) ∧ d.Lists members' ∧ d.Mirrors members' r' ∧
      r.Step op.request a r' := by
  cases op with
  | put o k v =>
      simp only [LfuCache.respond, LfuCache.put, if_neg hcap]
      cases hk : c.nodeMap_.lookup k with
      | none =>
          obtain ⟨d, members', r₁, r₂, hput, hd, hmirrors, hroom, hcount⟩ :=
            h.putInternal s hcap hmax (fun hfree => hroom (.inr hfree)) o hk v
          exact ⟨d, members', none, r₂, by rw [hput]; rfl, hd, hmirrors,
            .add k v (h.not_holds s hk) hroom hcount⟩
      | some n =>
          obtain ⟨hin, hkey⟩ := h.mem_of_lookup s.stored hk
          have hhit : k ∈ c.nodeMap_ := AList.lookup_isSome.mp (by simp [hk])
          obtain ⟨d, members', r', hget, hd, hmirrors, hcount⟩ :=
            h.getInternal s hmax (hroom (.inl hhit)) o (mem_nodes.mpr ⟨k, mem_entries hk⟩) v
          refine ⟨d, members', none, r', ?_, hd, hmirrors, ?_⟩
          · change (((c.withValue n v).getInternal o n).map Prod.fst).map _ = _
            rw [hget]
            rfl
          · have hstep := Ranking.Step.replace (c.ranked n) hin v hcount
            rwa [hkey] at hstep
  | get o k =>
      simp only [LfuCache.respond, LfuCache.get]
      cases hk : c.nodeMap_.lookup k with
      | none =>
          exact ⟨c, members, none, r, rfl, s.stored.lists, h, .miss k (h.not_holds s hk)⟩
      | some n =>
          obtain ⟨hin, hkey⟩ := h.mem_of_lookup s.stored hk
          have hhit : k ∈ c.nodeMap_ := AList.lookup_isSome.mp (by simp [hk])
          obtain ⟨d, members', r', hget, hd, hmirrors, hcount⟩ :=
            h.getInternal s hmax (hroom hhit) o (mem_nodes.mpr ⟨k, mem_entries hk⟩) (c.heap n).value
          rw [c.withValue_self n] at hget
          refine ⟨d, members', some (c.heap n).value, r', ?_, hd, hmirrors, ?_⟩
          · change (c.getInternal o n).map _ = _
            rw [hget]
            rfl
          · have hstep := Ranking.Step.hit (c.ranked n) hin hcount
            rwa [hkey] at hstep
  | purge =>
      have hempty : c.purge.Mirrors (fun _ => []) { r with entries := [] } :=
        ⟨fun f => by simp, List.nodup_nil, h.total, h.capacity, h.maxAverage⟩
      exact ⟨c.purge, _, none, _, rfl, s.purge.stored.lists, hempty, .purge⟩

/-! ## Runs -/

omit [DecidableEq Key] [Inhabited Key] [Inhabited Value] in
/-- The state after `i` calls, and what the ranking says of it. -/
structure Running (capacity maxAverageNum : Int32) (i : ℕ) (c : LfuCache Key Value)
    (members : ℤ → List ℕ) (r : Ranking Key Value) : Prop where
  exact : c.Exact members
  mirrors : c.Mirrors members r
  capacity_ : c.capacity_ = capacity.toInt
  maxAverageNum_ : c.maxAverageNum_ = maxAverageNum.toInt
  low : c.KeepsLow
  bounded : c.Bounded i

variable {capacity maxAverageNum : Int32} {i : ℕ}

theorem Running.respond (h : Running capacity maxAverageNum i c members r)
    (hcap : capacity.toInt ≠ 0) (hmax : 2 ≤ maxAverageNum.toInt)
    (hmax' : maxAverageNum.toInt ≤ 250) (hlen : i + 1 < 2 ^ 31) (op : CacheCall Key Value) :
    ∃ d members' a r', c.respond op = some (d, a) ∧
      Running capacity maxAverageNum (i + 1) d members' r' ∧ r.Step op.request a r' := by
  have hcapacity : c.capacity_ ≠ 0 := by rwa [h.capacity_]
  have hlarge : 2 ≤ c.maxAverageNum_ := by rwa [h.maxAverageNum_]
  have hsmall : c.maxAverageNum_ ≤ 250 := by rwa [h.maxAverageNum_]
  obtain ⟨d, members', a, r', hrespond, hlists, hmirrors, hstep⟩ :=
    h.mirrors.respond h.exact hcapacity (by omega) op (fun _ => h.bounded.room hlen)
  obtain ⟨d', members'', hcall, hout, hexact⟩ := h.exact.call op hcapacity (by omega)
    (fun _ => h.bounded.room hlen)
  have hd := hexact fun t ht => h.low.agesWell (hout.of_access ht).1 hlarge hsmall
  rw [call_eq, hrespond, Option.map_some, Option.some_inj] at hcall
  subst hcall
  rw [hd.stored.lists.unique hlists] at hd
  refine ⟨d, members', a, r', hrespond, ⟨hd, hmirrors, ?_, ?_, ?_, ?_⟩, hstep⟩
  · rw [hout.configured.1, h.capacity_]
  · rw [hout.configured.2, h.maxAverageNum_]
  · exact h.low.step h.exact hout hlarge
  · exact h.bounded.step hd hout

theorem Running.responses (ops : List (CacheCall Key Value)) (hcap : capacity.toInt ≠ 0)
    (hmax : 2 ≤ maxAverageNum.toInt) (hmax' : maxAverageNum.toInt ≤ 250)
    (h : Running capacity maxAverageNum i c members r) (hlen : i + ops.length < 2 ^ 31) :
    ∃ d members' as r', c.responses ops = some (d, as) ∧
      Running capacity maxAverageNum (i + ops.length) d members' r' ∧
      Ranking.Runs r (ops.map CacheCall.request) as r' := by
  induction ops generalizing c members r i with
  | nil => exact ⟨c, members, [], r, rfl, h, .nil r⟩
  | cons op ops ih =>
      rw [List.length_cons] at hlen
      obtain ⟨d, members₁, a, r₁, hrespond, hrunning, hstep⟩ :=
        h.respond hcap hmax hmax' (by omega) op
      obtain ⟨e, members', as, r', hrest, hlast, hruns⟩ := ih hrunning (by omega)
      refine ⟨e, members', a :: as, r', ?_, ?_, .cons hstep hruns⟩
      · simp only [LfuCache.responses, hrespond, hrest, Option.bind_eq_bind, Option.bind_some,
          Option.pure_def]
      · rw [List.length_cons, Nat.add_comm ops.length, ← Nat.add_assoc]
        exact hlast

omit [DecidableEq Key] in
theorem running_new : Running capacity maxAverageNum 0
    (new capacity maxAverageNum : LfuCache Key Value) (fun _ => [])
    { capacity := toSize_t capacity.toInt, maxAverage := maxAverageNum.toInt } :=
  ⟨exact_new, ⟨fun _ => rfl, List.nodup_nil, rfl, rfl, rfl⟩, rfl, rfl,
    keepsLow_of_nodes_eq_nil rfl, bounded_new⟩

omit [Inhabited Key] [Inhabited Value] in
/-- The entries are the cached keys with their values and frequencies. -/
theorem Mirrors.entry_iff (h : c.Mirrors members r) (s : c.Exact members) (e : Ranked Key Value) :
    e ∈ r.entries ↔ c.valueOf e.key = some e.value ∧ c.freqOf e.key = some e.freq := by
  rw [h.ranks.mem_iff]
  constructor
  · rintro ⟨a, ha, rfl⟩
    have hlookup : c.nodeMap_.lookup (c.ranked a).key = some a :=
      s.stored.lookup_key (s.only a ha)
    rw [valueOf, freqOf, hlookup]
    exact ⟨rfl, rfl⟩
  · rintro ⟨hvalue, hfreq⟩
    obtain ⟨a, ha, hv⟩ := Option.map_eq_some_iff.mp hvalue
    obtain ⟨a', ha', hf⟩ := Option.map_eq_some_iff.mp hfreq
    obtain rfl : a = a' := Option.some.inj (ha.symm.trans ha')
    have hin := mem_entries ha
    refine ⟨a, s.stored.listed _ a hin, ?_⟩
    simp only [ranked, s.stored.key _ a hin, hv, hf]

/-- With a bound on the average from 2 to 250, as the default one, the cache does what a ranking
does: every run has answers that a run of the ranking has, and ends with the same keys, values and
frequencies, and no `int` overflows. -/
theorem responses_refine_ranking (capacity maxAverageNum : Int32) (hcap : 1 ≤ capacity.toInt)
    (hmax : 2 ≤ maxAverageNum.toInt) (hmax' : maxAverageNum.toInt ≤ 250)
    (ops : List (CacheCall Key Value)) (hlen : ops.length < 2 ^ 31) :
    ∃ c answers r, (new capacity maxAverageNum).responses ops = some (c, answers) ∧
      Ranking.Runs { capacity := capacity.toInt.toNat, maxAverage := maxAverageNum.toInt }
        (ops.map CacheCall.request) answers r ∧
      (∀ e, e ∈ r.entries ↔ c.valueOf e.key = some e.value ∧ c.freqOf e.key = some e.freq) ∧
      r.entries.length = c.size ∧ c.InRange := by
  have hcapacity : toSize_t capacity.toInt = capacity.toInt.toNat := by
    rw [toSize_t, if_pos (by omega)]
  have hne : capacity.toInt ≠ 0 := by omega
  obtain ⟨c, members, answers, r, hresponses, hrunning, hruns⟩ :=
    Running.responses ops hne hmax hmax' running_new (by rwa [Nat.zero_add])
  rw [hcapacity] at hruns
  refine ⟨c, answers, r, hresponses, hruns, hrunning.mirrors.entry_iff hrunning.exact,
    hrunning.mirrors.length hrunning.exact.stored hrunning.exact.only, ?_⟩
  exact hrunning.bounded.inRange hrunning.exact (by rwa [Nat.zero_add])

/-- Of two keys used twice each the one that has been used twice for longer goes. -/
theorem responses_twoUsedTwice : ∃ c answers r,
    (new 2).responses (twoUsedTwice ++ [.put .inOrder 3 30, .get .inOrder 2, .get .inOrder 1]) =
      some (c, answers) ∧
      Ranking.Runs { capacity := 2, maxAverage := 10 }
        [.put 1 10, .put 2 20, .get 2, .get 1, .put 3 30, .get 2, .get 1] answers r ∧
      answers = [none, none, some 20, some 10, none, none, some 10] ∧
      r.entries.length = (c : LfuCache ℕ ℕ).size := by
  obtain ⟨c, answers, r, hresponses, hruns, -, hlength, -⟩ := responses_refine_ranking 2 10
    (by decide) (by decide) (by decide)
    (twoUsedTwice ++ [.put .inOrder 3 30, .get .inOrder 2, .get .inOrder 1]) (by decide)
  have hanswers : ((new 2 : LfuCache ℕ ℕ).responses
      (twoUsedTwice ++ [.put .inOrder 3 30, .get .inOrder 2, .get .inOrder 1])).map Prod.snd =
        some [none, none, some 20, some 10, none, none, some 10] := by
    decide +kernel
  refine ⟨c, answers, r, hresponses, hruns, ?_, hlength⟩
  have hresponses' : (new 2 : LfuCache ℕ ℕ).responses
      (twoUsedTwice ++ [.put .inOrder 3 30, .get .inOrder 2, .get .inOrder 1]) =
        some (c, answers) := hresponses
  rw [hresponses'] at hanswers
  exact Option.some.inj hanswers

end Keys

end LfuCache

end CkServer
