import CkServer.Verification.Lfu.Contents
import CkServer.Verification.Lfu.Eviction

/-! # The eviction order of the LFU cache and the pass over the nodes

The pass gives every node its new frequency and puts it at the end of the list of that
frequency, in the order of `nodeMap_`. It keeps the order of two frequencies that stay
different, and where they become the same its own order decides. -/

namespace CkServer

namespace LfuCache

variable {Key Value : Type} {c d t : LfuCache Key Value} {members : ℤ → List ℕ} {n a b : ℕ}
  {f g : ℤ} {k k' : Key}

/-! ## The order -/

/-- In the list under `f`, from its head on, `a` comes before `b`. -/
def Nearer (c : LfuCache Key Value) (f : ℤ) (a b : ℕ) : Prop :=
  ∃ l ms, c.freqToFreqList_.lookup f = some l ∧ c.heap.links.Chain l.head_ ms l.tail_ ∧
    [a, b].Sublist ms

/-- A full cache takes `k` before `k'`. -/
def EvictedBefore [DecidableEq Key] (c : LfuCache Key Value) (k k' : Key) : Prop :=
  ∃ a b, c.nodeMap_.lookup k = some a ∧ c.nodeMap_.lookup k' = some b ∧
    ((c.heap a).freq < (c.heap b).freq ∨
      (c.heap a).freq = (c.heap b).freq ∧ c.Nearer (c.heap a).freq a b)

theorem evictedBefore_iff [DecidableEq Key] (hk : c.nodeMap_.lookup k = some a)
    (hk' : c.nodeMap_.lookup k' = some b) :
    c.EvictedBefore k k' ↔ (c.heap a).freq < (c.heap b).freq ∨
      (c.heap a).freq = (c.heap b).freq ∧ c.Nearer (c.heap a).freq a b := by
  constructor
  · rintro ⟨a', b', ha', hb', hbefore⟩
    obtain rfl := Option.some.inj (hk.symm.trans ha')
    obtain rfl := Option.some.inj (hk'.symm.trans hb')
    exact hbefore
  · exact fun hbefore => ⟨a, b, hk, hk', hbefore⟩

theorem Lists.nearer_iff (hl : c.Lists members) : c.Nearer f a b ↔ [a, b].Sublist (members f) := by
  constructor
  · rintro ⟨l, ms, hlookup, hchain, hsub⟩
    rwa [(hl.chain f l hlookup).unique hchain]
  · intro hsub
    have ha : a ∈ members f := hsub.subset (by simp)
    obtain ⟨l, hlookup⟩ := hl.lookup_of_mem ha
    exact ⟨l, members f, hlookup, hl.chain f l hlookup, hsub⟩

/-- The states in which the pass over the nodes can start within the first `2 ^ 31 - 1` calls: the
average has been updated for an access of one more call. -/
def BeforePass [Inhabited Key] [Inhabited Value] [DecidableEq Key] (capacity maxAverageNum : Int32)
    (c : LfuCache Key Value) : Prop :=
  ∃ ops c₀, (new capacity maxAverageNum).calls ops = some c₀ ∧ ops.length + 1 < 2 ^ 31 ∧
    (c = c₀ ∨ c₀.capacity_ ≠ 0 ∧ ∃ op t, c₀.access op = some t ∧ c = t.counted)

/-! ## The lists after the pass -/

/-- The nodes that the pass leaves alone, and behind them those that it moves, in its order. -/
def passed (c : LfuCache Key Value) (members : ℤ → List ℕ) (ns : List ℕ) (f : ℤ) : List ℕ :=
  (members f).filter (· ∉ ns) ++
    ns.filter fun n => agedFreq c.maxAverageNum_ (c.heap n).freq = f

theorem Lists.moved_eq (hl : c.Lists members) (hn : n ∈ members f) (h : ℤ) :
    moved members n f g h = (members h).filter (· ≠ n) ++ if h = g then [n] else [] := by
  have hleft : Function.update members f ((members f).erase n) h =
      (members h).filter (· ≠ n) := by
    by_cases hh : h = f
    · subst hh
      rw [Function.update_self, (hl.nodup h).erase_eq_filter]
      exact List.filter_congr fun a _ => Bool.eq_iff_iff.mpr (by simp)
    · rw [Function.update_of_ne hh]
      refine (List.filter_eq_self.mpr fun a ha => ?_).symm
      rw [decide_eq_true_eq]
      rintro rfl
      exact hh ((hl.freq h a ha).symm.trans (hl.freq f a hn))
  by_cases hh : h = g
  · subst hh
    rw [if_pos rfl, moved, Function.update_self, hleft]
  · rw [if_neg hh, moved, Function.update_of_ne hh, hleft, List.append_nil]

section Adding

variable [Inhabited Key] [Inhabited Value]

/-- Induction on the nodes of the pass: the first of them goes to the end of its list, and stays
in front of those that follow. -/
theorem Lists.passed (ns : List ℕ) (hl : c.Lists members) (hnodup : ns.Nodup)
    (hns : ∀ n ∈ ns, Listed members n) :
    ∃ d, ns.foldlM ageNode c = some d ∧ d.Lists (c.passed members ns) := by
  induction ns generalizing c members with
  | nil =>
      have hsame : c.passed members [] = members := by
        funext f
        simp [LfuCache.passed]
      exact ⟨c, rfl, by rwa [hsame]⟩
  | cons n ns ih =>
      obtain ⟨f, hn⟩ := hns n (by simp)
      obtain ⟨hnew, hnodup⟩ := List.nodup_cons.mp hnodup
      obtain ⟨d, hmove, hmoved⟩ := hl.moveNode hn (agedFreq c.maxAverageNum_ (c.heap n).freq)
      obtain ⟨e, hfold, hlists⟩ := ih hmoved.lists hnodup (by
        intro m hm
        rw [hl.listed_moved hn]
        exact hns m (by simp [hm]))
      refine ⟨e, ?_, ?_⟩
      · rw [List.foldlM_cons, ageNode_eq, hmove]
        exact hfold
      · convert hlists using 1
        funext h
        have hfreq : ns.filter (fun m => agedFreq d.maxAverageNum_ (d.heap m).freq = h) =
            ns.filter fun m => agedFreq c.maxAverageNum_ (c.heap m).freq = h := by
          apply List.filter_congr
          intro m hm
          obtain ⟨g, hg⟩ := hns m (by simp [hm])
          have hne : m ≠ n := by
            rintro rfl
            exact hnew hm
          rw [hmoved.keeps.maxAverageNum_, hmoved.freq_of_ne m (hl.lt_allocated hg) hne]
        have hold : ((members h).filter (· ≠ n)).filter (· ∉ ns) =
            (members h).filter (· ∉ n :: ns) := by
          rw [List.filter_filter]
          apply List.filter_congr
          intro m _
          simp only [List.mem_cons, not_or, Bool.decide_and, Bool.and_comm]
        rw [LfuCache.passed, LfuCache.passed, hfreq, hl.moved_eq hn, List.filter_append, hold,
          List.append_assoc]
        congr 1
        by_cases hg : agedFreq c.maxAverageNum_ (c.heap n).freq = h
        · simp [hg, hnew]
        · simp [hg, Ne.symm hg]

/-- The cache after the pass. -/
structure Passed (c d : LfuCache Key Value) (members : ℤ → List ℕ) (ns : List ℕ) : Prop where
  lists : d.Lists (c.passed members ns)
  nodeMap_ : d.nodeMap_ = c.nodeMap_
  freq : ∀ n ∈ c.nodes, (d.heap n).freq = agedFreq c.maxAverageNum_ (c.heap n).freq

theorem Stored.pass (s : c.Stored members) (o : IterationOrders Key) :
    ∃ d, c.handleOverMaxAverageNum o = some d ∧
      Passed c d members ((o.nodes c.nodeMap_.entries).map fun e => e.2) := by
  let ns := (o.nodes c.nodeMap_.entries).map fun e => e.2
  have hns : ns.Perm c.nodes := (o.nodes_perm _).map _
  have hlisted : ∀ n ∈ ns, Listed members n := by
    intro n hn
    obtain ⟨k, hk⟩ := mem_nodes.mp (hns.mem_iff.mp hn)
    exact s.listed k n hk
  have hnodup : ns.Nodup := hns.nodup_iff.mpr s.nodup_nodes
  obtain ⟨e, hfold, hlists⟩ := s.lists.passed ns hnodup hlisted
  obtain ⟨e', members', hfold', haged⟩ := s.lists.ageNodes ns hnodup hlisted
  obtain rfl : e = e' := Option.some_inj.mp (hfold.symm.trans hfold')
  have hfreq : ∀ n ∈ c.nodes, (e.heap n).freq = agedFreq c.maxAverageNum_ (c.heap n).freq := by
    intro n hn
    rw [haged.freq n (s.lt_of_mem_nodes hn), if_pos (hns.mem_iff.mpr hn)]
  by_cases hsize : c.size = 0
  · have hnodes : c.nodes = [] := List.length_eq_zero_iff.mp ((length_nodes c).trans hsize)
    have hnil : ns = [] := List.perm_nil.mp (hnodes ▸ hns)
    rw [hnil] at hfold
    obtain rfl : c = e := Option.some_inj.mp hfold
    exact ⟨c, if_pos hsize, hlists, rfl, hfreq⟩
  · refine ⟨e.updateMinFreq o, ?_, hlists.of_eq rfl rfl rfl, haged.keeps.nodeMap_, hfreq⟩
    rw [List.foldlM_map] at hfold
    rw [handleOverMaxAverageNum, if_neg hsize, hfold]
    rfl

end Adding

/-! ## The order after the pass -/

theorem aged_mono {m f g : ℤ} (h : f ≤ g) : aged m f ≤ aged m g := by
  unfold aged
  omega

/-- Two nodes that the pass moves are in a list exactly if they get its frequency, and in the
order in which the pass goes over them. -/
theorem pair_sublist_passed {ns : List ℕ} (hb : b ∈ ns) :
    [b, a].Sublist (c.passed members ns f) ↔
      agedFreq c.maxAverageNum_ (c.heap a).freq = f ∧
        agedFreq c.maxAverageNum_ (c.heap b).freq = f ∧ [b, a].Sublist ns := by
  have hleft : b ∉ (members f).filter (· ∉ ns) := by simp [hb]
  rw [passed]
  constructor
  · intro hsub
    obtain ⟨early, late, heq, hearly, hlate⟩ := List.sublist_append_iff.mp hsub
    cases early with
    | nil =>
        rw [List.nil_append] at heq
        subst heq
        have hmem := hlate.subset
        exact ⟨by simpa using (List.mem_filter.mp (hmem (by simp : a ∈ [b, a]))).2,
          by simpa using (List.mem_filter.mp (hmem (by simp : b ∈ [b, a]))).2,
          hlate.trans List.filter_sublist⟩
    | cons first early =>
        obtain ⟨rfl, -⟩ := List.cons.inj heq
        exact absurd (hearly.subset (by simp)) hleft
  · rintro ⟨hfa, hfb, hsub⟩
    have hfilter := hsub.filter fun n => decide (agedFreq c.maxAverageNum_ (c.heap n).freq = f)
    rw [List.filter_eq_self.mpr (by simp [hfa, hfb])] at hfilter
    exact hfilter.trans (List.sublist_append_right _ _)

section Calls

variable [DecidableEq Key]

theorem Stored.freqOf_eq (s : c.Stored members) (hk : c.nodeMap_.lookup k = some a) :
    c.freqOf k = some (c.heap a).freq ∧ a ∈ c.nodes ∧ (c.heap a).key = k := by
  have hin := mem_entries hk
  exact ⟨by rw [freqOf, hk, Option.map_some], mem_nodes.mpr ⟨k, hin⟩, s.key k a hin⟩

/-- The pass goes over two nodes in the order in which it goes over their keys. -/
theorem Stored.pair_sublist_keys (s : c.Stored members) (o : IterationOrders Key)
    (hk : c.nodeMap_.lookup k = some a) (hk' : c.nodeMap_.lookup k' = some b) :
    [b, a].Sublist ((o.nodes c.nodeMap_.entries).map fun e => e.2) ↔
      [k', k].Sublist ((o.nodes c.nodeMap_.entries).map fun e => e.1) := by
  have hentries : ∀ e ∈ o.nodes c.nodeMap_.entries, e ∈ c.nodeMap_.entries := fun e he =>
    (o.nodes_perm _).mem_iff.mp he
  constructor
  · intro hsub
    have hmap := hsub.map fun n => (c.heap n).key
    rw [List.map_map] at hmap
    have hkeys : (o.nodes c.nodeMap_.entries).map ((fun n => (c.heap n).key) ∘ fun e => e.2) =
        (o.nodes c.nodeMap_.entries).map fun e => e.1 :=
      List.map_congr_left fun e he => s.key e.1 e.2 (hentries e he)
    rw [hkeys] at hmap
    simpa [(s.freqOf_eq hk).2.2, (s.freqOf_eq hk').2.2] using hmap
  · intro hsub
    have hmap := hsub.map fun k => (c.nodeMap_.lookup k).getD 0
    rw [List.map_map] at hmap
    have hnodes : (o.nodes c.nodeMap_.entries).map
        ((fun k => (c.nodeMap_.lookup k).getD 0) ∘ fun e => e.1) =
          (o.nodes c.nodeMap_.entries).map fun e => e.2 := by
      apply List.map_congr_left
      intro e he
      have hlookup : c.nodeMap_.lookup e.1 = some e.2 := AList.mem_lookup_iff.mpr (hentries e he)
      simp only [Function.comp_apply, hlookup, Option.getD_some]
    rw [hnodes] at hmap
    simpa [hk, hk'] using hmap

variable [Inhabited Key] [Inhabited Value] {capacity maxAverageNum : Int32}

/-- An access takes no frequency up by more than 1. -/
theorem Sound.access (s : c.Sound members) (hcap : c.capacity_ ≠ 0) {op : CacheCall Key Value}
    (hcount : ∀ k, op.key = some k → c.Countable k) (ht : c.access op = some t) :
    ∃ members', t.Stored members' ∧ t.maxAverageNum_ = c.maxAverageNum_ ∧
      ∀ i : ℕ, AtMost members i → AtMost members' (i + 1) := by
  cases op with
  | purge => simp [LfuCache.access] at ht
  | get o k =>
      obtain ⟨n, hk, htouch⟩ := Option.bind_eq_some_iff.mp ht
      obtain ⟨f, hf⟩ := s.stored.listed k n (mem_entries hk)
      have hlt := (hcount k rfl).lt hk
      rw [s.stored.lists.freq f n hf] at hlt
      obtain ⟨t', htouch', hmoved⟩ := s.stored.touch hf hlt
      obtain rfl : t' = t := Option.some_inj.mp (htouch'.symm.trans htouch)
      exact ⟨_, hmoved.stored, hmoved.keeps.maxAverageNum_,
        fun i hi => hi.moved s.stored.lists hf⟩
  | put o k v =>
      simp only [LfuCache.access] at ht
      cases hk : c.nodeMap_.lookup k with
      | some n =>
          rw [hk] at ht
          obtain ⟨f, hf⟩ := s.stored.listed k n (mem_entries hk)
          have hlt := (hcount k rfl).lt hk
          rw [s.stored.lists.freq f n hf] at hlt
          obtain ⟨t', htouch', hmoved⟩ := (s.withValue n v).stored.touch hf hlt
          obtain rfl : t' = t := Option.some_inj.mp (htouch'.symm.trans ht)
          exact ⟨_, hmoved.stored, hmoved.keeps.maxAverageNum_,
            fun i hi => hi.moved s.stored.lists hf⟩
      | none =>
          rw [hk] at ht
          obtain ⟨e, hroom, hstore⟩ := Option.bind_eq_some_iff.mp ht
          obtain ⟨e', members', hroom', hstored, hmiss, -, -, hmax, -, -, hless⟩ :=
            s.room hcap (AList.lookup_eq_none.mp hk)
          obtain rfl : e' = e := Option.some_inj.mp (hroom'.symm.trans hroom)
          obtain ⟨t', hstore', hinserted⟩ := hstored.store (v := v) hmiss
          obtain rfl : t' = t := Option.some_inj.mp (hstore'.symm.trans hstore)
          exact ⟨_, hinserted.stored, hinserted.maxAverageNum_.trans hmax,
            fun i hi => ((hless i hi).mono (by omega)).append_one (by omega) _⟩

theorem BeforePass.stored (h : BeforePass capacity maxAverageNum c)
    (hmax : 0 ≤ maxAverageNum.toInt) :
    ∃ members, c.Stored members ∧ c.maxAverageNum_ = maxAverageNum.toInt ∧
      AtMost members (2 ^ 31 - 1) := by
  obtain ⟨ops, c₀, hcalls, hlen, hc⟩ := h
  obtain ⟨c', hafter⟩ := exists_after_of_short capacity maxAverageNum hmax ops (by omega)
  obtain rfl : c' = c₀ := Option.some_inj.mp (hafter.calls.symm.trans hcalls)
  obtain ⟨members, hsound, hle⟩ := hafter.serves.sound
  have hmax' : 0 ≤ c'.maxAverageNum_ := hafter.maxAverageNum_ ▸ hmax
  have hbound := hle hmax' (by omega)
  rcases hc with rfl | ⟨hcap, op, t, ht, rfl⟩
  · exact ⟨members, hsound.stored, hafter.maxAverageNum_, hbound.mono (by omega)⟩
  · obtain ⟨members', hstored, hsame, hrises⟩ := hsound.access hcap
      (fun k _ => hafter.serves.countable hmax' hlen k) ht
    exact ⟨members', hstored.of_eq rfl rfl rfl rfl, hsame.trans hafter.maxAverageNum_,
      (hrises _ hbound).mono (by omega)⟩

/-- Where `k` has been before `k'`, the pass gives `k` no larger frequency. It puts `k'` before `k`
exactly if both get the same frequency and it goes over `k'` first. -/
theorem evictedBefore_of_pass (capacity maxAverageNum : Int32) (hmax : 2 ≤ maxAverageNum.toInt)
    (h : BeforePass capacity maxAverageNum c) (o : IterationOrders Key) :
    ∃ d, c.handleOverMaxAverageNum o = some d ∧
      (∀ k, d.freqOf k = (c.freqOf k).map (aged c.maxAverageNum_)) ∧
      ∀ k k', c.EvictedBefore k k' →
        (∀ f f', d.freqOf k = some f → d.freqOf k' = some f' → f ≤ f') ∧
        (d.EvictedBefore k' k ↔ d.freqOf k' = d.freqOf k ∧
          [k', k].Sublist ((o.nodes c.nodeMap_.entries).map fun e => e.1)) := by
  obtain ⟨members, s, hsame, hbound⟩ := h.stored (by omega)
  obtain ⟨d, hpass, hd⟩ := s.pass o
  have hmaxlt := maxAverageNum.toInt_lt
  have hfreq : ∀ k a, c.nodeMap_.lookup k = some a →
      d.freqOf k = some (d.heap a).freq ∧
        (d.heap a).freq = agedFreq c.maxAverageNum_ (c.heap a).freq ∧
        (d.heap a).freq = aged c.maxAverageNum_ (c.heap a).freq := by
    intro k a hk
    have hin := (s.freqOf_eq hk).2.1
    have hle := hbound _ a (s.mem_members hin)
    rw [hd.freq a hin, LfuCache.freqOf, hd.nodeMap_, hk, Option.map_some, hd.freq a hin,
      agedFreq_eq (by omega) (by omega) (s.one_le_freq hin) (by omega)]
    exact ⟨rfl, rfl, rfl⟩
  refine ⟨d, hpass, fun k => ?_, ?_⟩
  · cases hk : c.nodeMap_.lookup k with
    | none => simp [LfuCache.freqOf, hd.nodeMap_, hk]
    | some a =>
        obtain ⟨hdk, -, heq⟩ := hfreq k a hk
        rw [hdk, heq, (s.freqOf_eq hk).1, Option.map_some]
  · rintro k k' ⟨a, b, hk, hk', hbefore⟩
    obtain ⟨hdk, hfa, hfa'⟩ := hfreq k a hk
    obtain ⟨hdk', hfb, hfb'⟩ := hfreq k' b hk'
    have hold : (c.heap a).freq ≤ (c.heap b).freq := by
      rcases hbefore with hlt | ⟨heq, -⟩
      · exact Int.le_of_lt hlt
      · exact Int.le_of_eq heq
    have hle : (d.heap a).freq ≤ (d.heap b).freq := by
      rw [hfa', hfb']
      exact aged_mono hold
    refine ⟨?_, ?_⟩
    · intro f f' hf hf'
      rw [hdk, Option.some_inj] at hf
      rw [hdk', Option.some_inj] at hf'
      rwa [← hf, ← hf']
    have hb : b ∈ (o.nodes c.nodeMap_.entries).map fun e => e.2 :=
      ((o.nodes_perm _).map _).mem_iff.mpr (s.freqOf_eq hk').2.1
    have hpair : d.Nearer (d.heap b).freq b a ↔ (d.heap a).freq = (d.heap b).freq ∧
        [k', k].Sublist ((o.nodes c.nodeMap_.entries).map fun e => e.1) := by
      rw [hd.lists.nearer_iff, pair_sublist_passed hb, s.pair_sublist_keys o hk hk', ← hfa, ← hfb]
      simp only [true_and]
    rw [evictedBefore_iff (hd.nodeMap_ ▸ hk') (hd.nodeMap_ ▸ hk), hdk, hdk', Option.some_inj]
    constructor
    · rintro (hlt | ⟨heq, hnearer⟩)
      · omega
      · exact ⟨heq, (hpair.mp hnearer).2⟩
    · rintro ⟨heq, hsub⟩
      exact .inr ⟨heq, hpair.mpr ⟨heq.symm, hsub⟩⟩

/-! ## A pass that reverses the order -/

omit [Inhabited Key] [Inhabited Value] in
/-- The list `l` under `f` has the nodes of `k` and `k'`, in this order. -/
def HoldsPair (c : LfuCache Key Value) (f : ℤ) (l : FreqList) (k k' : Key) (a b : ℕ) : Prop :=
  (c.nodeMap_.lookup k = some a ∧ c.nodeMap_.lookup k' = some b) ∧
    ((c.heap a).freq = f ∧ (c.heap b).freq = f) ∧
    c.freqToFreqList_.lookup f = some l ∧ c.heap.links.Chain l.head_ [a, b] l.tail_

instance (c : LfuCache Key Value) (f : ℤ) (l : FreqList) (k k' : Key) (a b : ℕ) :
    Decidable (c.HoldsPair f l k k' a b) :=
  inferInstanceAs (Decidable ((c.nodeMap_.lookup k = some a ∧ c.nodeMap_.lookup k' = some b) ∧
    ((c.heap a).freq = f ∧ (c.heap b).freq = f) ∧
    c.freqToFreqList_.lookup f = some l ∧ c.heap.links.Chain l.head_ [a, b] l.tail_))

omit [Inhabited Key] [Inhabited Value] in
theorem HoldsPair.evictedBefore {l : FreqList} (h : c.HoldsPair f l k k' a b) :
    c.EvictedBefore k k' := by
  obtain ⟨⟨hk, hk'⟩, ⟨hfa, hfb⟩, hlookup, hchain⟩ := h
  refine ⟨a, b, hk, hk', .inr ⟨hfa.trans hfb.symm, ?_⟩⟩
  rw [hfa]
  exact ⟨l, _, hlookup, hchain, List.Sublist.refl _⟩

end Calls

/-- Two keys, and three accesses to each but for the last to the second key. -/
def reversedCalls : List (CacheCall ℕ ℕ) :=
  [.put .inOrder 1 10, .put .inOrder 2 20, .get .inOrder 1, .get .inOrder 2, .get .inOrder 1]

/-- With the last access both have the frequency 3, the key 1 first, and the pass goes over the
key 2 first. -/
theorem holdsPair_reversed : ∃ c d : LfuCache ℕ ℕ, BeforePass 2 2 c ∧
    c.HoldsPair 3 ⟨3, 6, 7⟩ 1 2 0 3 ∧ c.handleOverMaxAverageNum .inOrder = some d ∧
    d.HoldsPair 2 ⟨2, 4, 5⟩ 2 1 3 0 := by
  have hstates : ((new 2 2 : LfuCache ℕ ℕ).calls reversedCalls).any fun c₀ =>
      c₀.capacity_ ≠ 0 ∧ (c₀.access (.get .inOrder 2)).any fun t =>
        t.counted.HoldsPair 3 ⟨3, 6, 7⟩ 1 2 0 3 ∧
          (t.counted.handleOverMaxAverageNum .inOrder).any fun d =>
            d.HoldsPair 2 ⟨2, 4, 5⟩ 2 1 3 0 := by
    decide +kernel
  simp only [Option.any_eq_true, decide_eq_true_eq] at hstates
  obtain ⟨c₀, hcalls, hcap, t, haccess, hbefore, d, hpass, hafter⟩ := hstates
  have hstart : BeforePass 2 2 t.counted :=
    ⟨reversedCalls, c₀, hcalls, by decide, .inr ⟨hcap, .get .inOrder 2, t, haccess, rfl⟩⟩
  exact ⟨t.counted, d, hstart, hbefore, hpass, hafter⟩

theorem evictedBefore_reversed : ∃ c d : LfuCache ℕ ℕ, BeforePass 2 2 c ∧ c.EvictedBefore 1 2 ∧
    c.handleOverMaxAverageNum .inOrder = some d ∧ d.EvictedBefore 2 1 := by
  obtain ⟨c, d, hc, hbefore, hpass, hafter⟩ := holdsPair_reversed
  exact ⟨c, d, hc, hbefore.evictedBefore, hpass, hafter.evictedBefore⟩

/-- The two keys, with the order of the pass. -/
theorem evictedBefore_of_pass_two : ∃ c d : LfuCache ℕ ℕ, c.EvictedBefore 1 2 ∧
    c.handleOverMaxAverageNum .inOrder = some d ∧
    (d.EvictedBefore 2 1 ↔ d.freqOf 2 = d.freqOf 1 ∧
      [2, 1].Sublist (c.nodeMap_.entries.map fun e => e.1)) := by
  obtain ⟨c, _, hc, hbefore, -, -⟩ := holdsPair_reversed
  obtain ⟨d, hpass, -, horder⟩ := evictedBefore_of_pass 2 2 (by decide) hc .inOrder
  exact ⟨c, d, hbefore.evictedBefore, hpass, (horder 1 2 hbefore.evictedBefore).2⟩

end LfuCache

end CkServer
