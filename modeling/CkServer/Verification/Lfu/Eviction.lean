import CkServer.Library.EntryOrder
import CkServer.Verification.Lfu.Runs
import Mathlib.Data.List.Infix

/-! # The order in the lists of the LFU cache

A node goes to the end of the list that it enters, so a list has its nodes in the order of
their entries. With the right `minFreq_` the node that a full cache kicks out is the first
of the nodes with the smallest frequency. -/

namespace CkServer

namespace LfuCache

open EntryOrder

variable {Key Value : Type} {c d t : LfuCache Key Value} {members members' : ℤ → List ℕ} {n : ℕ}
  {f g : ℤ} {log : List Key}

/-! ## The log of entries -/

/-- The keys whose nodes the pass over the nodes puts into a list, in its order. -/
def passOrder (c : LfuCache Key Value) (o : IterationOrders Key) : List Key :=
  if c.Ages then (o.nodes c.nodeMap_.entries).map fun e => e.1 else []

/-- The keys whose nodes a call gives to `addToFreqList`, in its order: first the key of the
call, and then those of the pass. -/
def entered [Inhabited Key] [Inhabited Value] [DecidableEq Key] (c : LfuCache Key Value)
    (op : CacheCall Key Value) : List Key :=
  match op, c.access op with
  | .put o k _, some t => k :: t.passOrder o
  | .get o k, some t => k :: t.passOrder o
  | _, _ => []

/-- What has entered a list during some calls. -/
def entryLog [Inhabited Key] [Inhabited Value] [DecidableEq Key] :
    LfuCache Key Value → List (CacheCall Key Value) → List Key
  | _, [] => []
  | c, op :: ops =>
      c.entered op ++
        match c.call op with
        | some d => d.entryLog ops
        | none => []

/-- Every list has its nodes in the order in which their keys have entered. -/
def InOrder (c : LfuCache Key Value) (members : ℤ → List ℕ) (log : List Key) : Prop :=
  ∀ f, Queued log ((members f).map fun n => (c.heap n).key)

/-- No two nodes in the lists have the same key. -/
def KeysDiffer (c : LfuCache Key Value) (members : ℤ → List ℕ) : Prop :=
  ∀ a b, Listed members a → Listed members b → (c.heap a).key = (c.heap b).key → a = b

theorem Lists.unique (h : c.Lists members) (h' : c.Lists members') : members = members' := by
  funext f
  by_cases hf : f ∈ c.freqToFreqList_
  · obtain ⟨l, hl⟩ := Option.isSome_iff_exists.mp (AList.lookup_isSome.mpr hf)
    exact (h.chain f l hl).unique (h'.chain f l hl)
  · rw [h.absent f hf, h'.absent f hf]

theorem Stored.keysDiffer (s : c.Stored members) (honly : ∀ n, Listed members n → n ∈ c.nodes) :
    c.KeysDiffer members := by
  intro a b ha hb heq
  obtain ⟨k, hk⟩ := mem_nodes.mp (honly a ha)
  obtain ⟨k', hk'⟩ := mem_nodes.mp (honly b hb)
  have hkeys : k = k' := by rw [← s.key k a hk, ← s.key k' b hk', heq]
  subst hkeys
  have hsame := c.nodeMap_.nodupKeys.eq_of_mk_mem hk hk'
  simpa using hsame

/-! ## What keeps the order -/

theorem InOrder.of_keys (h : c.InOrder members log)
    (hkeys : ∀ a, Listed members a → (d.heap a).key = (c.heap a).key) : d.InOrder members log := by
  intro f
  have hmap : (members f).map (fun n => (d.heap n).key) =
      (members f).map fun n => (c.heap n).key :=
    List.map_congr_left fun a ha => hkeys a ⟨f, ha⟩
  rw [hmap]
  exact h f

/-- A node that goes from one list to the end of another enters. -/
theorem InOrder.moved (h : c.InOrder members log) (hl : c.Lists members)
    (hdiffer : c.KeysDiffer members) (hn : n ∈ members f)
    (hkeys : ∀ a < c.allocated, (d.heap a).key = (c.heap a).key) :
    d.InOrder (moved members n f g) (log ++ [(c.heap n).key]) := by
  refine InOrder.of_keys (c := c) ?_ fun a ha => ?_
  · intro i
    let left := Function.update members f ((members f).erase n)
    have hleft (j : ℤ) : (left j).Sublist (members j) := by
      by_cases hj : j = f
      · subst hj
        simp only [left, Function.update_self]
        exact List.erase_sublist
      · simp only [left, Function.update_of_ne hj]
        exact List.Sublist.refl _
    have hqueued (j : ℤ) : Queued log ((left j).map fun n => (c.heap n).key) :=
      (h j).sublist ((hleft j).map _)
    have hnew (j : ℤ) : (c.heap n).key ∉ (left j).map fun n => (c.heap n).key := by
      intro hmem
      obtain ⟨a, ha, heq⟩ := List.mem_map.mp hmem
      obtain ⟨hne, hold⟩ := (hl.mem_erase hn).mp ha
      exact hne (hdiffer a n ⟨j, hold⟩ ⟨f, hn⟩ heq)
    by_cases hi : i = g
    · subst hi
      rw [LfuCache.moved, Function.update_self, List.map_append, List.map_singleton]
      exact (hqueued i).enter (hnew i)
    · rw [LfuCache.moved, Function.update_of_ne hi]
      exact (hqueued i).concat (hnew i)
  · obtain ⟨i, hi⟩ := (hl.listed_moved hn).mp ha
    exact hkeys a (hl.lt_allocated hi)

theorem KeysDiffer.moved (h : c.KeysDiffer members) (hl : c.Lists members) (hn : n ∈ members f)
    (hkeys : ∀ a < c.allocated, (d.heap a).key = (c.heap a).key) :
    d.KeysDiffer (moved members n f g) := by
  intro a b ha hb heq
  have ha' := (hl.listed_moved hn).mp ha
  have hb' := (hl.listed_moved hn).mp hb
  obtain ⟨i, hi⟩ := ha'
  obtain ⟨j, hj⟩ := hb'
  rw [hkeys a (hl.lt_allocated hi), hkeys b (hl.lt_allocated hj)] at heq
  exact h a b ⟨i, hi⟩ ⟨j, hj⟩ heq

section Access

variable [Inhabited Key] [Inhabited Value]

/-- In the pass the nodes enter one after another. -/
theorem InOrder.ageNodes (ns : List ℕ) (h : c.InOrder members log) (hl : c.Lists members)
    (hdiffer : c.KeysDiffer members) (hnodup : ns.Nodup) (hns : ∀ n ∈ ns, Listed members n) :
    ∃ d members', ns.foldlM ageNode c = some d ∧ d.Lists members' ∧
      d.InOrder members' (log ++ ns.map fun n => (c.heap n).key) := by
  induction ns generalizing c members log with
  | nil => exact ⟨c, members, rfl, hl, by simpa using h⟩
  | cons n ns ih =>
      obtain ⟨f, hn⟩ := hns n (by simp)
      obtain ⟨hnew, hnodup⟩ := List.nodup_cons.mp hnodup
      obtain ⟨d, hmove, hmoved⟩ := hl.moveNode hn (agedFreq c.maxAverageNum_ (c.heap n).freq)
      have hlisted : ∀ m ∈ ns, Listed
          (LfuCache.moved members n f (agedFreq c.maxAverageNum_ (c.heap n).freq)) m := by
        intro m hm
        rw [hl.listed_moved hn]
        exact hns m (by simp [hm])
      obtain ⟨e, members', hfold, hlists, horder⟩ := ih (h.moved hl hdiffer hn hmoved.keeps.key)
        hmoved.lists (hdiffer.moved hl hn hmoved.keeps.key) hnodup hlisted
      have hkeys : ns.map (fun n => (d.heap n).key) = ns.map fun n => (c.heap n).key := by
        apply List.map_congr_left
        intro a ha
        obtain ⟨g, hg⟩ := hns a (by simp [ha])
        exact hmoved.keeps.key a (hl.lt_allocated hg)
      refine ⟨e, members', ?_, hlists, ?_⟩
      · rw [List.foldlM_cons, ageNode_eq, hmove]
        exact hfold
      · rw [hkeys, List.append_assoc] at horder
        exact horder

/-- Counting an access, with the entries of the pass if it happens. -/
theorem InOrder.addFreqNum (h : c.InOrder members log) (s : c.Stored members)
    (honly : ∀ n, Listed members n → n ∈ c.nodes) (o : IterationOrders Key) :
    ∃ d members', c.addFreqNum o = some d ∧ d.Lists members' ∧
      d.InOrder members' (log ++ c.passOrder o) := by
  by_cases hages : c.Ages
  · have hperm : (o.nodes c.nodeMap_.entries).Perm c.nodeMap_.entries := o.nodes_perm _
    let ns := (o.nodes c.nodeMap_.entries).map fun e => e.2
    have hns : ns.Perm c.nodes := hperm.map _
    have hlists : c.counted.Lists members := s.lists.of_eq rfl rfl rfl
    obtain ⟨d, members', hfold, hd, horder⟩ := InOrder.ageNodes (c := c.counted) ns h hlists
      (s.keysDiffer honly) (hns.nodup_iff.mpr s.nodup_nodes) (by
        intro n hn
        obtain ⟨k, hk⟩ := mem_nodes.mp (hns.mem_iff.mp hn)
        exact s.listed k n hk)
    have hkeys : ns.map (fun n => (c.heap n).key) = c.passOrder o := by
      rw [passOrder, if_pos hages, List.map_map]
      apply List.map_congr_left
      intro e he
      exact s.key e.1 e.2 (hperm.mem_iff.mp he)
    refine ⟨d.updateMinFreq o, members', addFreqNum_of_fold o hages hfold, hd.of_eq rfl rfl rfl, ?_⟩
    rw [← hkeys]
    exact horder
  · refine ⟨c.counted, members, addFreqNum_of_not_ages o hages, s.lists.of_eq rfl rfl rfl, ?_⟩
    rw [passOrder, if_neg hages, List.append_nil]
    exact h

end Access

section Keys

variable [DecidableEq Key] {k : Key} {v : Value}

omit [DecidableEq Key] in
theorem Stored.key_mem (s : c.Stored members) (hn : n ∈ c.nodes) :
    (c.heap n).key ∈ c.nodeMap_ := by
  obtain ⟨k, hk⟩ := mem_nodes.mp hn
  rw [s.key k n hk, AList.mem_keys]
  exact List.mem_map.mpr ⟨⟨k, n⟩, hk, rfl⟩

theorem InOrder.evicted (h : c.InOrder members log) (n : ℕ) (f : ℤ) :
    (c.evicted n).InOrder (Function.update members f ((members f).erase n)) log := by
  refine InOrder.of_keys (c := c) ?_ fun a _ => (FreqList.sameData_removeNode c.heap n a).2.1
  intro i
  by_cases hi : i = f
  · subst hi
    rw [Function.update_self]
    exact (h i).sublist (List.erase_sublist.map _)
  · rw [Function.update_of_ne hi]
    exact h i

/-- A new node enters the list under 1. -/
theorem InOrder.inserted (h : c.InOrder members log) (s : c.Stored members)
    (honly : ∀ n, Listed members n → n ∈ c.nodes) (hk : k ∉ c.nodeMap_)
    (hi : Inserted c t members k v) :
    t.InOrder (Function.update members 1 (members 1 ++ [c.allocated])) (log ++ [k]) := by
  have hkey : (t.heap c.allocated).key = k := by
    refine hi.stored.key k c.allocated ?_
    rw [hi.nodeMap_, AList.entries_insert_of_notMem hk]
    exact List.mem_cons_self ..
  have hold (i : ℤ) : (members i).map (fun n => (t.heap n).key) =
      (members i).map fun n => (c.heap n).key :=
    List.map_congr_left fun a ha => (hi.old a (s.lists.lt_allocated ha)).2.1
  have hnew (i : ℤ) : k ∉ (members i).map fun n => (c.heap n).key := by
    intro hmem
    obtain ⟨a, ha, rfl⟩ := List.mem_map.mp hmem
    exact hk (s.key_mem (honly a ⟨i, ha⟩))
  intro i
  by_cases hone : i = 1
  · subst hone
    rw [Function.update_self, List.map_append, List.map_singleton, hkey, hold]
    exact (h 1).enter (hnew 1)
  · rw [Function.update_of_ne hone, hold]
    exact (h i).concat (hnew i)

omit [DecidableEq Key] in
theorem InOrder.withValue (h : c.InOrder members log) (n : ℕ) (v : Value) :
    (c.withValue n v).InOrder members log := by
  apply h.of_keys
  intro a _
  by_cases ha : a = n
  · subst ha
    simp [LfuCache.withValue, Heap.setValue]
  · simp [LfuCache.withValue, Heap.setValue, Heap.set_of_ne _ _ ha]

variable [Inhabited Key] [Inhabited Value] {op : CacheCall Key Value}

omit [DecidableEq Key] in
/-- The touched node enters, and those of the pass after it. -/
theorem InOrder.getInternal (h : c.InOrder members log) (s : c.Exact members)
    (o : IterationOrders Key) (hn : n ∈ c.nodes) (hroom : c.curTotalNum_ < 2 ^ 31 - 1) :
    ∃ t d members', c.touch n = some t ∧ c.getInternal o n = some (d, (c.heap n).value) ∧
      d.Lists members' ∧ d.InOrder members' (log ++ (c.heap n).key :: t.passOrder o) := by
  have hf := s.stored.mem_members hn
  have hfreq := s.stored.freq_le_freqSum hn
  have hsum := s.freqSum_le
  obtain ⟨t, htouch, ht⟩ := s.stored.touch hf (by omega)
  have hmoved := h.moved (g := (c.heap n).freq + 1) s.stored.lists (s.stored.keysDiffer s.only) hf
    ht.keeps.key
  have honly : ∀ a, Listed (LfuCache.moved members n (c.heap n).freq ((c.heap n).freq + 1)) a →
      a ∈ t.nodes := by
    intro a ha
    rw [nodes_of_eq ht.keeps.nodeMap_]
    exact s.only a ((s.stored.lists.listed_moved hf).mp ha)
  obtain ⟨d, members', hadd, hd, horder⟩ := hmoved.addFreqNum ht.stored honly o
  refine ⟨t, d, members', htouch, by simp [getInternal_eq, htouch, hadd], hd, ?_⟩
  rw [List.append_assoc] at horder
  exact horder

omit [Inhabited Key] [Inhabited Value] in
theorem InOrder.room (h : c.InOrder members log) (s : c.Exact members) (hcap : c.capacity_ ≠ 0)
    (hroom : c.size ≠ toSize_t c.capacity_ → c.curTotalNum_ < 2 ^ 31 - 1) :
    ∃ e members', (if c.size = toSize_t c.capacity_ then c.kickOut else some c) = some e ∧
      Room c e members' ∧ e.InOrder members' log := by
  by_cases hfull : c.size = toSize_t c.capacity_
  · obtain ⟨n, ms, hms, hkick⟩ := s.kickOut hcap hfull
    exact ⟨_, _, by rw [if_pos hfull, hkick],
      s.room_evicted hfull (f := c.minFreq_) (by simp [hms]), h.evicted n c.minFreq_⟩
  · exact ⟨c, members, if_neg hfull, s.room_of_free hfull (hroom hfull), h⟩

/-- The new node enters, and those of the pass after it. -/
theorem InOrder.putInternal (h : c.InOrder members log) (s : c.Exact members)
    (o : IterationOrders Key) (hcap : c.capacity_ ≠ 0)
    (hroom : c.size ≠ toSize_t c.capacity_ → c.curTotalNum_ < 2 ^ 31 - 1) (hk : k ∉ c.nodeMap_) :
    ∃ t d members',
      ((if c.size = toSize_t c.capacity_ then c.kickOut else some c).bind fun c => c.store k v) =
        some t ∧
      c.putInternal o k v = some d ∧ d.Lists members' ∧
      d.InOrder members' (log ++ k :: t.passOrder o) := by
  obtain ⟨e, members₁, hroom, hr, he⟩ := h.room s hcap hroom
  obtain ⟨t, hstore, hi⟩ := hr.stored.store (v := v) (hr.nodeMap_ k hk)
  have hinserted := he.inserted hr.stored hr.only (hr.nodeMap_ k hk) hi
  obtain ⟨d, members', hadd, hd, horder⟩ :=
    hinserted.addFreqNum hi.stored (hr.only_inserted hi hk) o
  refine ⟨t, _, members', by rw [hroom]; exact hstore, ?_,
    hd.of_eq (d := { d with minFreq_ := min d.minFreq_ 1 }) rfl rfl rfl, ?_⟩
  · rw [putInternal_eq, hroom, Option.bind_some, hstore, Option.bind_some, hadd]
    rfl
  · rw [List.append_assoc] at horder
    exact horder

/-- The step lemma: a call keeps the order, with what it enters added to the log. -/
theorem InOrder.call (h : c.InOrder members log) (s : c.Exact members) (op : CacheCall Key Value)
    (hcap : c.capacity_ ≠ 0) (hroom : c.Raises op → c.curTotalNum_ < 2 ^ 31 - 1) :
    ∃ d members', c.call op = some d ∧ d.Lists members' ∧
      d.InOrder members' (log ++ c.entered op) := by
  cases op with
  | put o k v =>
      simp only [LfuCache.call, LfuCache.put, if_neg hcap]
      cases hk : c.nodeMap_.lookup k with
      | none =>
          obtain ⟨t, d, members', ht, hput, hlists, horder⟩ := h.putInternal (v := v) s o hcap
            (fun hfree => hroom (.inr hfree)) (AList.lookup_eq_none.mp hk)
          have haccess : c.access (.put o k v) = some t := by simp only [access, hk, ht]
          exact ⟨d, members', hput, hlists, by simpa only [entered, haccess] using horder⟩
      | some n =>
          have hin := mem_entries hk
          have hhit : k ∈ c.nodeMap_ := AList.lookup_isSome.mp (by simp [hk])
          obtain ⟨t, d, members', ht, hget, hlists, horder⟩ := (h.withValue n v).getInternal
            (s.withValue n v) o (mem_nodes.mpr ⟨k, hin⟩) (hroom (.inl hhit))
          have hkey : ((c.withValue n v).heap n).key = k :=
            (s.withValue n v).stored.key k n hin
          have haccess : c.access (.put o k v) = some t := by simp only [access, hk, ht]
          rw [hkey] at horder
          refine ⟨d, members', ?_, hlists, by simpa only [entered, haccess] using horder⟩
          change ((c.withValue n v).getInternal o n).map Prod.fst = some d
          rw [hget]
          rfl
  | get o k =>
      simp only [LfuCache.call, LfuCache.get]
      cases hk : c.nodeMap_.lookup k with
      | none =>
          have haccess : c.access (.get o k) = none := by simp [access, hk]
          exact ⟨c, members, rfl, s.stored.lists, by simpa [entered, haccess] using h⟩
      | some n =>
          have hin := mem_entries hk
          have hhit : k ∈ c.nodeMap_ := AList.lookup_isSome.mp (by simp [hk])
          obtain ⟨t, d, members', ht, hget, hlists, horder⟩ :=
            h.getInternal s o (mem_nodes.mpr ⟨k, hin⟩) (hroom hhit)
          have haccess : c.access (.get o k) = some t := by simp [access, hk, ht]
          rw [s.stored.key k n hin] at horder
          exact ⟨d, members', by simp [hget], hlists, by simpa only [entered, haccess] using horder⟩
  | purge =>
      exact ⟨c.purge, _, rfl, s.purge.stored.lists, fun f => by simpa using queued_nil⟩

/-! ## Runs -/

theorem entryLog_concat {ops : List (CacheCall Key Value)} (c : LfuCache Key Value)
    (hd : c.calls ops = some d) (op : CacheCall Key Value) :
    c.entryLog (ops ++ [op]) = c.entryLog ops ++ d.entered op := by
  induction ops generalizing c with
  | nil =>
      obtain rfl : c = d := Option.some.inj hd
      simp only [List.nil_append, entryLog]
      cases c.call op <;> simp
  | cons first ops ih =>
      rw [LfuCache.calls, List.foldlM_cons] at hd
      obtain ⟨e, he, hrest⟩ := Option.bind_eq_some_iff.mp hd
      simp only [List.cons_append, entryLog, he]
      rw [ih e hrest, List.append_assoc]

/-- With the default bound on the average, every run leaves the lists in the order of the
entries. -/
theorem inOrder_of_calls (capacity : Int32) (hcap : 1 ≤ capacity.toInt)
    (ops : List (CacheCall Key Value)) (hlen : ops.length < 2 ^ 31) :
    ∃ c members, Reached capacity 10 ops c members ∧ c.Bounded ops.length ∧
      c.InOrder members ((new capacity : LfuCache Key Value).entryLog ops) := by
  induction ops using List.reverseRecOn with
  | nil =>
      obtain ⟨c, members, hc, hbounded⟩ : ∃ (c : LfuCache Key Value) (members : ℤ → List ℕ),
          Reached capacity 10 [] c members ∧ c.Bounded 0 :=
        reached_of_small_average capacity 10 (by omega) (by decide) (by decide) [] hlen
      obtain rfl : new capacity 10 = c := Option.some.inj hc.calls
      have hnil : members = fun _ => [] :=
        hc.exact.stored.lists.unique (sound_new capacity 10).stored.lists
      refine ⟨_, members, hc, hbounded, fun f => ?_⟩
      rw [hnil]
      exact queued_nil
  | append_singleton ops op ih =>
      have hnext := length_of_concat hlen
      obtain ⟨c, members, hc, hbounded', horder⟩ := ih (Nat.lt_of_succ_lt hnext)
      obtain ⟨d, members', hd, hbounded⟩ := reached_of_small_average capacity 10 (by omega)
        (by decide) (by decide) (ops ++ [op]) hlen
      obtain ⟨d', members'', hcall, hlists, horder'⟩ := horder.call hc.exact op
        (by rw [hc.capacity_]; omega) (fun _ => hbounded'.room hnext)
      have hsame : d' = d := by
        have hcalls := hd.calls
        rw [calls_concat, hc.calls] at hcalls
        exact Option.some.inj (hcall.symm.trans hcalls)
      subst hsame
      refine ⟨d', members', hd, hbounded, ?_⟩
      rw [hd.exact.stored.lists.unique hlists, entryLog_concat _ hc.calls]
      exact horder'

/-! ## The node that is kicked out -/

omit [Inhabited Key] [Inhabited Value] in
theorem Stored.lookup_key (s : c.Stored members) (hn : n ∈ c.nodes) :
    c.nodeMap_.lookup (c.heap n).key = some n := by
  obtain ⟨k, hk⟩ := mem_nodes.mp hn
  rw [s.key k n hk]
  exact AList.mem_lookup_iff.mpr hk

omit [Inhabited Key] [Inhabited Value] in
/-- The first node under `minFreq_` has the smallest frequency, and of the nodes with this
frequency it has entered first. -/
theorem InOrder.first_of_min (h : c.InOrder members log) (s : c.Exact members) {ms : List ℕ}
    (hms : members c.minFreq_ = n :: ms) :
    c.freqOf (c.heap n).key = some c.minFreq_ ∧ ∀ k' f', c.freqOf k' = some f' →
      c.minFreq_ ≤ f' ∧ (f' = c.minFreq_ → k' ≠ (c.heap n).key → Before log (c.heap n).key k') := by
  have hn : n ∈ members c.minFreq_ := by simp [hms]
  have hin := s.only n ⟨_, hn⟩
  constructor
  · rw [freqOf, s.stored.lookup_key hin, Option.map_some, s.stored.lists.freq _ n hn]
  · intro k' f' hf'
    obtain ⟨n', hlookup, rfl⟩ := Option.map_eq_some_iff.mp hf'
    have hin' : n' ∈ c.nodes := mem_nodes.mpr ⟨k', mem_entries hlookup⟩
    have hkey' := s.stored.key k' n' (mem_entries hlookup)
    refine ⟨(s.minTrue (List.ne_nil_of_mem hin)).2 n' hin', ?_⟩
    intro hsame hne
    have hmem' := s.stored.mem_members hin'
    rw [hsame, hms] at hmem'
    have hrest : n' ∈ ms := by
      refine (List.mem_cons.mp hmem').resolve_left ?_
      rintro rfl
      exact hne hkey'.symm
    have hqueued := h c.minFreq_
    rw [hms, List.map_cons] at hqueued
    rw [← hkey']
    exact hqueued.head_before (List.mem_map_of_mem hrest)

/-- The keys and values after a put of a new key into a full cache that kicks out the node `n`. -/
theorem Exact.put_full (s : c.Exact members) (o : IterationOrders Key) (k : Key) (v : Value)
    (hcap : c.capacity_ ≠ 0) (hmax : 0 ≤ c.maxAverageNum_)
    (hfull : c.size = toSize_t c.capacity_) (hk : k ∉ c.nodeMap_) {ms : List ℕ}
    (hms : members c.minFreq_ = n :: ms) :
    ∃ t d members', c.put o k v = some d ∧ d.Exact members' ∧ Accessed c t ∧ Inserts c t ∧
      Settled t d ∧
      d.nodeMap_ = (c.nodeMap_.erase (c.heap n).key).insert k (c.evicted n).allocated ∧
      d.freqOf k = some 1 ∧
      ∀ k', d.valueOf k' = if k' = k then some v else (c.evicted n).valueOf k' := by
  obtain ⟨n', ms', hms', hkick⟩ := s.kickOut hcap hfull
  obtain ⟨rfl, -⟩ : n' = n ∧ ms' = ms := by simpa [hms'] using hms
  have hr := s.room_evicted hfull (n := n') (f := c.minFreq_) (by simp [hms])
  have hk' := hr.nodeMap_ k hk
  obtain ⟨t, hstore, hi⟩ := hr.stored.store (v := v) hk'
  obtain ⟨d, members', hcount, -, hsame, -⟩ := hi.stored.count o hi.mem_lists
    (by rw [hi.minFreq_, hr.minFreq_]; exact s.min_pos)
    (by rw [hi.capacity_, hr.capacity_]; exact s.capacity)
    (by rw [hi.maxAverageNum_, hr.maxAverageNum_]; exact s.max_lt)
  obtain ⟨t', d', members', ht', hput, hd, ha, hshape, hset⟩ :=
    s.putInternal (v := v) o hcap hmax (fun hfree => absurd hfull hfree) hk
  have ht : t' = t := by
    rw [if_pos hfull, hkick, Option.bind_some, hstore] at ht'
    exact (Option.some.inj ht').symm
  subst ht
  have hd' : d' = d := by
    rw [putInternal_eq, if_pos hfull, hkick, Option.bind_some, hstore, Option.bind_some,
      hcount] at hput
    exact (Option.some.inj hput).symm
  subst hd'
  have hnodeMap : d'.nodeMap_ = (c.evicted n').nodeMap_.insert k (c.evicted n').allocated :=
    hsame.nodeMap_.trans hi.nodeMap_
  refine ⟨t', d', members', ?_, hd, ha, hshape, hset, hnodeMap, ?_, ?_⟩
  · rw [LfuCache.put, if_neg hcap, AList.lookup_eq_none.mpr hk]
    exact hput
  · have hnew : (c.evicted n').allocated ∈ t'.nodes := by simp [hi.nodes hk']
    rw [freqOf, hnodeMap, AList.lookup_insert, Option.map_some,
      hset.freq_new (ha.maxAverageNum_ ▸ hmax) hnew hi.new.1]
  · intro k'
    rw [hsame.valueOf, valueOf_of_inserted hi hr.stored]

/-- A put of a new key into a full cache kicks out one key: of those with the smallest frequency
the one that has entered its list first. The other keys keep their values, and the new key
has the frequency 1. -/
theorem put_kicks_out_least (capacity : Int32) (hcap : 1 ≤ capacity.toInt)
    (ops : List (CacheCall Key Value)) (hlen : ops.length < 2 ^ 31)
    (hcalls : (new capacity).calls ops = some c) (hfull : (c.size : ℤ) = capacity.toInt)
    (o : IterationOrders Key) (k : Key) (v : Value) (hk : k ∉ c.nodeMap_) :
    ∃ d least f, c.put o k v = some d ∧ c.freqOf least = some f ∧
      (∀ k' f', c.freqOf k' = some f' → f ≤ f' ∧ (f' = f → k' ≠ least →
        Before ((new capacity : LfuCache Key Value).entryLog ops) least k')) ∧
      (∀ k', k' ∈ d.nodeMap_ ↔ k' = k ∨ k' ∈ c.nodeMap_ ∧ k' ≠ least) ∧
      (∀ k', k' ≠ k → k' ≠ least → d.valueOf k' = c.valueOf k') ∧
      d.valueOf k = some v ∧ d.freqOf k = some 1 ∧ d.InRange := by
  obtain ⟨c', members, hc, hbounded, horder⟩ : ∃ (c : LfuCache Key Value) (members : ℤ → List ℕ),
      Reached capacity 10 ops c members ∧ c.Bounded ops.length ∧
        c.InOrder members ((new capacity : LfuCache Key Value).entryLog ops) :=
    inOrder_of_calls capacity hcap ops hlen
  obtain rfl : c' = c := Option.some.inj (hc.calls.symm.trans hcalls)
  have hcap' : c'.capacity_ ≠ 0 := by rw [hc.capacity_]; omega
  have hmax : 0 ≤ c'.maxAverageNum_ := by rw [hc.maxAverageNum_]; decide
  have hsize : c'.size = toSize_t c'.capacity_ := by
    rw [hc.capacity_, toSize_t, if_pos (by omega)]
    omega
  obtain ⟨n, ms, hms, -⟩ := hc.exact.kickOut hcap' hsize
  obtain ⟨t, d, members', hput, hd, ha, hshape, hset, hnodes, hone, hvalue⟩ :=
    hc.exact.put_full o k v hcap' hmax hsize hk hms
  obtain ⟨hfreq, hleast⟩ := horder.first_of_min hc.exact hms
  refine ⟨d, _, _, hput, hfreq, hleast, ?_, ?_, ?_, hone, ?_⟩
  · intro k'
    rw [hnodes, AList.mem_insert, AList.mem_erase]
    exact or_congr_right and_comm
  · intro k' hne hne'
    rw [hvalue, if_neg hne, valueOf_evicted, if_neg hne']
  · rw [hvalue, if_pos rfl]
  · have htotal : t.curTotalNum_ + 1 ≤ (ops.length : ℤ) := by
      have hle := hbounded.total_le
      have hsurplus := ha.surplus
      rcases hshape with ⟨hfree, -⟩ | ⟨-, hsum, -⟩
      · exact absurd hsize hfree
      · omega
    exact (hset.bounded ha hd htotal).inRange hd hlen

/-- Two keys, each used twice, in a cache for two. -/
def twoUsedTwice : List (CacheCall ℕ ℕ) :=
  [.put .inOrder 1 10, .put .inOrder 2 20, .get .inOrder 2, .get .inOrder 1]

/-- The key 2 has entered the list under 2 first, so it goes when a third key comes. -/
theorem put_kicks_out_least_third :
    ∃ c d : LfuCache ℕ ℕ, (new 2).calls twoUsedTwice = some c ∧ c.put .inOrder 3 30 = some d ∧
      2 ∉ d.nodeMap_ ∧ d.valueOf 1 = some 10 ∧ d.valueOf 3 = some 30 := by
  have hstate : ((new 2 : LfuCache ℕ ℕ).calls twoUsedTwice).map (fun c =>
      (c.size, c.nodeMap_.keys, c.freqOf 1, c.freqOf 2, c.valueOf 1)) =
        some (2, [2, 1], some 2, some 2, some 10) := by
    decide +kernel
  have hlog : (new 2 : LfuCache ℕ ℕ).entryLog twoUsedTwice = [1, 2, 2, 1] := by
    decide +kernel
  obtain ⟨c, hcalls, hc⟩ := Option.map_eq_some_iff.mp hstate
  obtain ⟨hsize, hkeys, hone, htwo, hvalue⟩ : c.size = 2 ∧ c.nodeMap_.keys = [2, 1] ∧
      c.freqOf 1 = some 2 ∧ c.freqOf 2 = some 2 ∧ c.valueOf 1 = some 10 := by simpa using hc
  obtain ⟨d, least, f, hput, hleast, hmin, hmem, hothers, hself, -, -⟩ :=
    put_kicks_out_least 2 (by decide) twoUsedTwice (by decide) hcalls (by simp [hsize])
      .inOrder 3 30 (by simp [AList.mem_keys, hkeys])
  -- the key 2 has not entered after the last entry of the key 1
  have hlast : ∀ late ∈ [1, 2, 2, 1].tails, 1 ∉ late → 2 ∉ late := by decide
  have hcached : least ∈ c.nodeMap_ := by
    rw [← AList.lookup_isSome]
    rw [freqOf, Option.map_eq_some_iff] at hleast
    obtain ⟨n, hn, -⟩ := hleast
    simp [hn]
  have hnot : least ≠ 1 := by
    rintro rfl
    obtain rfl : 2 = f := Option.some.inj (hone.symm.trans hleast)
    obtain ⟨early, late, heq, -, hlate, htwo'⟩ := (hmin 2 2 htwo).2 rfl (by decide)
    rw [hlog] at heq
    exact hlast late ((List.mem_tails _ _).mpr ⟨early, heq.symm⟩) hlate htwo'
  obtain rfl : least = 2 := by
    rw [AList.mem_keys, hkeys] at hcached
    simp only [List.mem_cons, List.not_mem_nil, or_false] at hcached
    exact hcached.resolve_right hnot
  refine ⟨c, d, hcalls, hput, ?_, ?_, hself⟩
  · rw [hmem]
    simp
  · rw [hothers 1 (by decide) (by decide), hvalue]

end Keys

end LfuCache

end CkServer
