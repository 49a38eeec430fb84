import CkServer.Library.LinkedList
import CkServer.Model.LfuCache

/-! # The lists of the LFU cache

The members of the lists, as lists of addresses beside the heap, and what the functions that
take a node out of a list and put it in one do to them. -/

namespace CkServer

variable {Key Value : Type}

/-! ## The links of a heap -/

namespace Heap

def links (heap : Heap Key Value) : Links ℕ := ⟨fun a => (heap a).next, fun a => (heap a).pre⟩

@[simp] theorem next_links (heap : Heap Key Value) (a : ℕ) : heap.links.next a = (heap a).next :=
  rfl

@[simp] theorem pre_links (heap : Heap Key Value) (a : ℕ) : heap.links.pre a = (heap a).pre := rfl

theorem set_apply (heap : Heap Key Value) (a b : ℕ) (n : FreqList.Node Key Value) :
    (heap.set a n) b = if b = a then n else heap b := by
  simp [set, Function.update_apply]

@[simp] theorem set_self (heap : Heap Key Value) (a : ℕ) (n : FreqList.Node Key Value) :
    (heap.set a n) a = n := by
  simp [set_apply]

theorem set_of_ne (heap : Heap Key Value) {a b : ℕ} (n : FreqList.Node Key Value)
    (h : b ≠ a) : (heap.set a n) b = heap b := by
  simp [set_apply, h]

@[simp] theorem links_set (heap : Heap Key Value) (a : ℕ) (n : FreqList.Node Key Value) :
    (heap.set a n).links = (heap.links.setNext a n.next).setPre a n.pre := by
  simp only [links, Links.setNext, Links.setPre, Links.mk.injEq]
  refine ⟨funext fun b => ?_, funext fun b => ?_⟩
  · by_cases h : b = a <;> simp [set_apply, h]
  · by_cases h : b = a <;> simp [set_apply, h]

@[simp] theorem links_setPre (heap : Heap Key Value) (a : ℕ) (pre : Option ℕ) :
    (heap.setPre a pre).links = heap.links.setPre a pre := by
  simp [setPre, Links.setNext, ← next_links]

@[simp] theorem links_setNext (heap : Heap Key Value) (a : ℕ) (next : Option ℕ) :
    (heap.setNext a next).links = heap.links.setNext a next := by
  simp [setNext, Links.setNext, Links.setPre, ← pre_links]

@[simp] theorem links_setFreq (heap : Heap Key Value) (a : ℕ) (freq : ℤ) :
    (heap.setFreq a freq).links = heap.links := by
  simp [setFreq, Links.setNext, Links.setPre, ← pre_links, ← next_links]

@[simp] theorem links_setValue (heap : Heap Key Value) (a : ℕ) (value : Value) :
    (heap.setValue a value).links = heap.links := by
  simp [setValue, Links.setNext, Links.setPre, ← pre_links, ← next_links]

/-- Two nodes have the same frequency, key and value. -/
def SameData (a b : FreqList.Node Key Value) : Prop :=
  a.freq = b.freq ∧ a.key = b.key ∧ a.value = b.value

theorem sameData_setPre (heap : Heap Key Value) (a b : ℕ) (pre : Option ℕ) :
    SameData ((heap.setPre a pre) b) (heap b) := by
  by_cases h : b = a <;> simp [SameData, setPre, set_apply, h]

theorem sameData_setNext (heap : Heap Key Value) (a b : ℕ) (next : Option ℕ) :
    SameData ((heap.setNext a next) b) (heap b) := by
  by_cases h : b = a <;> simp [SameData, setNext, set_apply, h]

theorem SameData.trans {a b c : FreqList.Node Key Value} (h : SameData a b) (k : SameData b c) :
    SameData a c :=
  ⟨h.1.trans k.1, h.2.1.trans k.2.1, h.2.2.trans k.2.2⟩

end Heap

/-! ## One list -/

namespace FreqList

variable {heap : Heap Key Value} {l : FreqList} {ms xs ys : List ℕ} {n : ℕ}

/-- The addresses of the list's nodes, sentinels included. -/
def footprint (l : FreqList) (ms : List ℕ) : List ℕ := l.head_ :: (ms ++ [l.tail_])

theorem isEmpty_iff (h : heap.links.Chain l.head_ ms l.tail_) : l.isEmpty heap ↔ ms = [] := by
  rw [← h.next_head_eq_iff]
  simp [isEmpty]

theorem getFirstNode_eq (h : heap.links.Chain l.head_ ms l.tail_) :
    l.getFirstNode heap = some (ms.headD l.tail_) :=
  h.path.next_eq

theorem addNode_eq {last : ℕ} (hlast : (heap l.tail_).pre = some last) (hn : n ≠ l.tail_) :
    ∃ heap', l.addNode heap n = some heap' ∧
      heap'.links = heap.links.insertBefore last n l.tail_ ∧
      ∀ a, Heap.SameData (heap' a) (heap a) := by
  let first := (heap.setPre n (some last)).setNext n (some l.tail_)
  have hread : (first l.tail_).pre = some last := by
    rw [← Heap.pre_links]
    simp [first, Links.setPre, Links.setNext, hn.symm, hlast]
  refine ⟨(first.setNext last (some n)).setPre l.tail_ (some n), ?_, ?_, ?_⟩
  · simp [addNode, hlast, hread, first]
  · simp [first, Links.insertBefore]
  · intro a
    exact (((Heap.sameData_setPre _ _ _ _).trans (Heap.sameData_setNext _ _ _ _)).trans
      (Heap.sameData_setNext _ _ _ _)).trans (Heap.sameData_setPre _ _ _ _)

theorem removeNode_eq {p q : ℕ} (hp : (heap n).pre = some p) (hq : (heap n).next = some q) :
    (removeNode heap n).links = heap.links.remove p n q := by
  simp [removeNode, hp, hq, Links.remove]

theorem sameData_removeNode (heap : Heap Key Value) (n a : ℕ) :
    Heap.SameData ((removeNode heap n) a) (heap a) := by
  simp only [removeNode]
  cases (heap n).pre with
  | none => exact ⟨rfl, rfl, rfl⟩
  | some p =>
      cases (heap n).next with
      | none => exact ⟨rfl, rfl, rfl⟩
      | some q =>
          exact (((Heap.sameData_setNext _ _ _ _).trans (Heap.sameData_setPre _ _ _ _)).trans
            (Heap.sameData_setPre _ _ _ _)).trans (Heap.sameData_setNext _ _ _ _)

end FreqList

/-! ## All lists -/

namespace LfuCache

/-- The list stored under a frequency links its members between its sentinels; no address
is in two lists, and the members have the frequency of their list. -/
structure Lists (c : LfuCache Key Value) (members : ℤ → List ℕ) : Prop where
  chain : ∀ f l, c.freqToFreqList_.lookup f = some l →
    c.heap.links.Chain l.head_ (members f) l.tail_
  absent : ∀ f, f ∉ c.freqToFreqList_ → members f = []
  disjoint : ∀ f g l m a, c.freqToFreqList_.lookup f = some l →
    c.freqToFreqList_.lookup g = some m → a ∈ l.footprint (members f) →
    a ∈ m.footprint (members g) → f = g
  allocated : ∀ f l a, c.freqToFreqList_.lookup f = some l → a ∈ l.footprint (members f) →
    a < c.allocated
  freq : ∀ f n, n ∈ members f → (c.heap n).freq = f
  sentinel : ∀ f l, c.freqToFreqList_.lookup f = some l → (c.heap l.tail_).freq = 1

/-- The address is in no list. -/
def Detached (c : LfuCache Key Value) (members : ℤ → List ℕ) (n : ℕ) : Prop :=
  ∀ f l, c.freqToFreqList_.lookup f = some l → n ∉ l.footprint (members f)

/-- `d` has the nodes of `c`, maybe with other frequencies, and its lists, maybe with other
members. -/
structure Keeps (c d : LfuCache Key Value) : Prop where
  capacity_ : d.capacity_ = c.capacity_
  maxAverageNum_ : d.maxAverageNum_ = c.maxAverageNum_
  curAverageNum_ : d.curAverageNum_ = c.curAverageNum_
  curTotalNum_ : d.curTotalNum_ = c.curTotalNum_
  nodeMap_ : d.nodeMap_ = c.nodeMap_
  key : ∀ n < c.allocated, (d.heap n).key = (c.heap n).key
  value : ∀ n < c.allocated, (d.heap n).value = (c.heap n).value
  allocated : c.allocated ≤ d.allocated
  lists : ∀ f ∈ c.freqToFreqList_, f ∈ d.freqToFreqList_

variable {c d : LfuCache Key Value} {members : ℤ → List ℕ} {n : ℕ} {f : ℤ} {l : FreqList}

theorem Keeps.trans {e : LfuCache Key Value} (h : Keeps c d) (k : Keeps d e) : Keeps c e where
  capacity_ := k.capacity_.trans h.capacity_
  maxAverageNum_ := k.maxAverageNum_.trans h.maxAverageNum_
  curAverageNum_ := k.curAverageNum_.trans h.curAverageNum_
  curTotalNum_ := k.curTotalNum_.trans h.curTotalNum_
  nodeMap_ := k.nodeMap_.trans h.nodeMap_
  key := fun n hn => (k.key n (Nat.lt_of_lt_of_le hn h.allocated)).trans (h.key n hn)
  value := fun n hn => (k.value n (Nat.lt_of_lt_of_le hn h.allocated)).trans (h.value n hn)
  allocated := Nat.le_trans h.allocated k.allocated
  lists := fun f hf => k.lists f (h.lists f hf)

/-- The members of the lists after a node has gone from one list to the end of another. -/
def moved (members : ℤ → List ℕ) (n : ℕ) (f g : ℤ) : ℤ → List ℕ :=
  let left := Function.update members f ((members f).erase n)
  Function.update left g (left g ++ [n])

/-- What `moveNode` does with a node of the list under `f`. -/
structure Moved (c d : LfuCache Key Value) (members : ℤ → List ℕ) (n : ℕ) (f g : ℤ) : Prop where
  keeps : c.Keeps d
  minFreq_ : d.minFreq_ = c.minFreq_
  lists : d.Lists (moved members n f g)
  mem_lists : g ∈ d.freqToFreqList_
  freq_self : (d.heap n).freq = g
  freq_of_ne : ∀ a < c.allocated, a ≠ n → (d.heap a).freq = (c.heap a).freq

namespace Lists

theorem lookup_of_mem (h : c.Lists members) (hn : n ∈ members f) :
    ∃ l, c.freqToFreqList_.lookup f = some l := by
  by_cases hf : f ∈ c.freqToFreqList_
  · exact Option.isSome_iff_exists.mp (AList.lookup_isSome.mpr hf)
  · rw [h.absent f hf] at hn
    exact absurd hn List.not_mem_nil

theorem nodup (h : c.Lists members) (f : ℤ) : (members f).Nodup := by
  by_cases hf : f ∈ c.freqToFreqList_
  · obtain ⟨l, hl⟩ := Option.isSome_iff_exists.mp (AList.lookup_isSome.mpr hf)
    have hsub : (members f).Sublist (l.head_ :: (members f ++ [l.tail_])) := by simp
    exact hsub.nodup (h.chain f l hl).nodup
  · simp [h.absent f hf]

theorem lt_allocated (h : c.Lists members) (hn : n ∈ members f) : n < c.allocated := by
  obtain ⟨l, hl⟩ := h.lookup_of_mem hn
  exact h.allocated f l n hl (by simp [FreqList.footprint, hn])

/-- A heap that has the same links and frequencies at the lists' addresses does as well. -/
theorem congr (h : c.Lists members) (hlists : d.freqToFreqList_ = c.freqToFreqList_)
    (hallocated : c.allocated ≤ d.allocated)
    (hlinks : ∀ f l a, c.freqToFreqList_.lookup f = some l → a ∈ l.footprint (members f) →
      (d.heap a).next = (c.heap a).next ∧ (d.heap a).pre = (c.heap a).pre ∧
        (d.heap a).freq = (c.heap a).freq) : d.Lists members where
  chain f l hl := by
    rw [hlists] at hl
    refine (h.chain f l hl).congr ?_ ?_
    · intro a ha
      exact (hlinks f l a hl ha).1
    · intro a ha
      exact (hlinks f l a hl ha).2.1
  absent := hlists ▸ h.absent
  disjoint := hlists ▸ h.disjoint
  allocated f l a hl ha := by
    rw [hlists] at hl
    exact Nat.lt_of_lt_of_le (h.allocated f l a hl ha) hallocated
  freq f n hn := by
    obtain ⟨l, hl⟩ := h.lookup_of_mem hn
    rw [(hlinks f l n hl (by simp [FreqList.footprint, hn])).2.2, h.freq f n hn]
  sentinel f l hl := by
    rw [hlists] at hl
    rw [(hlinks f l l.tail_ hl (by simp [FreqList.footprint])).2.2, h.sentinel f l hl]

/-- The counters and the map of the nodes do not matter. -/
theorem of_eq (h : c.Lists members) (hheap : d.heap = c.heap)
    (hlists : d.freqToFreqList_ = c.freqToFreqList_) (hallocated : d.allocated = c.allocated) :
    d.Lists members := by
  refine h.congr hlists (Nat.le_of_eq hallocated.symm) ?_
  intro f l a _ _
  rw [hheap]
  exact ⟨rfl, rfl, rfl⟩

/-! ## Edits of the lists -/

/-- One list gets other members, which come from it or from no list. -/
theorem edit {ms : List ℕ} (h : c.Lists members) (hl : c.freqToFreqList_.lookup f = some l)
    (hlists : d.freqToFreqList_ = c.freqToFreqList_) (hallocated : d.allocated = c.allocated)
    (hchain : d.heap.links.Chain l.head_ ms l.tail_)
    (hms : ∀ a ∈ ms, a ∈ members f ∨
      c.Detached members a ∧ a < c.allocated ∧ (c.heap a).freq = f)
    (hfreq : ∀ a, (d.heap a).freq = (c.heap a).freq)
    (hother : ∀ g m a, g ≠ f → c.freqToFreqList_.lookup g = some m →
      a ∈ m.footprint (members g) →
      (d.heap a).next = (c.heap a).next ∧ (d.heap a).pre = (c.heap a).pre) :
    d.Lists (Function.update members f ms) := by
  have hfoot : ∀ g m a, c.freqToFreqList_.lookup g = some m →
      a ∈ m.footprint (Function.update members f ms g) →
      a ∈ m.footprint (members g) ∨ g = f ∧ c.Detached members a ∧ a < c.allocated := by
    intro g m a hm ha
    by_cases hg : g = f
    · subst hg
      simp only [Function.update_self, FreqList.footprint, List.mem_cons, List.mem_append] at ha ⊢
      rcases ha with ha | ha | ha
      · exact .inl (.inl ha)
      · rcases hms a ha with hold | hnew
        · exact .inl (.inr (.inl hold))
        · exact .inr ⟨trivial, hnew.1, hnew.2.1⟩
      · exact .inl (.inr (.inr ha))
    · rw [Function.update_of_ne hg] at ha
      exact .inl ha
  refine ⟨?_, ?_, ?_, ?_, ?_, ?_⟩
  · intro g m hm
    rw [hlists] at hm
    by_cases hg : g = f
    · subst hg
      rw [hl, Option.some_inj] at hm
      subst hm
      simpa using hchain
    · rw [Function.update_of_ne hg]
      refine (h.chain g m hm).congr ?_ ?_
      · intro a ha
        exact (hother g m a hg hm ha).1
      · intro a ha
        exact (hother g m a hg hm ha).2
  · intro g hg
    rw [hlists] at hg
    have hgf : g ≠ f := by
      rintro rfl
      simp [AList.lookup_eq_none.mpr hg] at hl
    rw [Function.update_of_ne hgf, h.absent g hg]
  · intro g g' m m' a hm hm' ha ha'
    rw [hlists] at hm hm'
    rcases hfoot g m a hm ha with hold | ⟨rfl, hdet, -⟩
    · rcases hfoot g' m' a hm' ha' with hold' | ⟨-, hdet', -⟩
      · exact h.disjoint g g' m m' a hm hm' hold hold'
      · exact absurd hold (hdet' g m hm)
    · rcases hfoot g' m' a hm' ha' with hold' | ⟨hg', -⟩
      · exact absurd hold' (hdet g' m' hm')
      · exact hg'.symm
  · intro g m a hm ha
    rw [hlists] at hm
    rw [hallocated]
    rcases hfoot g m a hm ha with hold | ⟨-, -, hlt⟩
    · exact h.allocated g m a hm hold
    · exact hlt
  · intro g n hn
    rw [hfreq]
    by_cases hg : g = f
    · subst hg
      rw [Function.update_self] at hn
      rcases hms n hn with hold | hnew
      · exact h.freq g n hold
      · exact hnew.2.2
    · rw [Function.update_of_ne hg] at hn
      exact h.freq g n hn
  · intro g m hm
    rw [hlists] at hm
    rw [hfreq, h.sentinel g m hm]

theorem removeNode (h : c.Lists members) (hn : n ∈ members f) :
    Lists { c with heap := FreqList.removeNode c.heap n }
      (Function.update members f ((members f).erase n)) := by
  obtain ⟨l, hl⟩ := h.lookup_of_mem hn
  obtain ⟨xs, ys, hsplit⟩ := List.append_of_mem hn
  have hchain := h.chain f l hl
  have hnodup := h.nodup f
  rw [hsplit] at hchain hnodup
  have hxs : n ∉ xs := fun hx => (List.nodup_append.mp hnodup).2.2 n hx n (by simp) rfl
  have herase : (members f).erase n = xs ++ ys := by
    rw [hsplit, List.erase_append_right _ hxs, List.erase_cons_head]
  obtain ⟨hleft, hright⟩ := (Links.path_append _ _ _ _ _ _).mp hchain.path
  have hlinks := FreqList.removeNode_eq hleft.pre_eq hright.next_eq
  have hp := Links.getLastD_mem_cons l.head_ xs
  have hq := Links.headD_mem_append l.tail_ ys
  refine h.edit hl rfl rfl ?_ ?_ (fun a => (FreqList.sameData_removeNode c.heap n a).1) ?_
  · rw [herase, hlinks]
    exact hchain.remove hleft.pre_eq hright.next_eq
  · intro a ha
    exact .inl (List.mem_of_mem_erase ha)
  · intro g m a hg hm ha
    have hout : a ∉ l.footprint (members f) := fun hin => hg (h.disjoint g f m l a hm hl ha hin)
    have hne {b : ℕ} (hb : b ∈ l.footprint (members f)) : a ≠ b := fun heq => hout (heq ▸ hb)
    have hfoot : l.footprint (members f) = l.head_ :: xs ++ n :: (ys ++ [l.tail_]) := by
      rw [FreqList.footprint, hsplit, List.append_assoc, List.cons_append, List.cons_append]
    rw [hfoot] at hne
    have han : a ≠ n := hne (List.mem_append_right _ List.mem_cons_self)
    have hap : a ≠ xs.getLastD l.head_ := hne (List.mem_append_left _ hp)
    have haq : a ≠ ys.headD l.tail_ :=
      hne (List.mem_append_right _ (List.mem_cons_of_mem _ hq))
    rw [← Heap.next_links, ← Heap.pre_links, hlinks, Links.next_remove, Links.pre_remove,
      if_neg han, if_neg han, if_neg hap, if_neg haq]
    exact ⟨rfl, rfl⟩

theorem addNode (h : c.Lists members) (hl : c.freqToFreqList_.lookup f = some l)
    (hn : c.Detached members n) (hlt : n < c.allocated) (hf : (c.heap n).freq = f) :
    ∃ heap, l.addNode c.heap n = some heap ∧ (∀ a, Heap.SameData (heap a) (c.heap a)) ∧
      Lists { c with heap := heap } (Function.update members f (members f ++ [n])) := by
  have hchain := h.chain f l hl
  have hnl := hn f l hl
  have htail : n ≠ l.tail_ := fun e => hnl (by simp [FreqList.footprint, e])
  obtain ⟨heap, hadd, hlinks, hdata⟩ := FreqList.addNode_eq hchain.path.pre_eq htail
  refine ⟨heap, hadd, hdata, h.edit hl rfl rfl ?_ ?_ (fun a => (hdata a).1) ?_⟩
  · rw [hlinks]
    exact hchain.insertBefore hnl hchain.path.pre_eq
  · intro a ha
    rcases List.mem_append.mp ha with ha | ha
    · exact .inl ha
    · rw [List.mem_singleton.mp ha]
      exact .inr ⟨hn, hlt, hf⟩
  · intro g m a hg hm ha
    have hout : a ∉ l.footprint (members f) := fun hin => hg (h.disjoint g f m l a hm hl ha hin)
    have hlast := Links.getLastD_mem_cons l.head_ (members f)
    have hne {b : ℕ} (hb : b ∈ l.footprint (members f)) : a ≠ b := fun heq => hout (heq ▸ hb)
    have hfoot : l.footprint (members f) = l.head_ :: members f ++ [l.tail_] := rfl
    rw [hfoot] at hne
    have han : a ≠ n := by
      rintro rfl
      exact hn g m hm ha
    have hal : a ≠ (members f).getLastD l.head_ := hne (List.mem_append_left _ hlast)
    have hat : a ≠ l.tail_ := hne (List.mem_append_right _ (List.mem_singleton_self _))
    rw [← Heap.next_links, ← Heap.pre_links, hlinks, Links.next_insertBefore,
      Links.pre_insertBefore, if_neg han, if_neg han, if_neg hal, if_neg hat]
    exact ⟨rfl, rfl⟩

theorem heap_newFreqList_of_lt [Inhabited Key] [Inhabited Value] (c : LfuCache Key Value)
    (f : ℤ) {a : ℕ} (ha : a < c.allocated) : (c.newFreqList f).heap a = c.heap a := by
  simp only [LfuCache.newFreqList]
  rw [Heap.set_of_ne _ _ (by omega), Heap.set_of_ne _ _ (by omega)]

theorem newFreqList [Inhabited Key] [Inhabited Value] (h : c.Lists members)
    (hf : f ∉ c.freqToFreqList_) : (c.newFreqList f).Lists members := by
  let l : FreqList := ⟨f, c.allocated, c.allocated + 1⟩
  have hmap : (c.newFreqList f).freqToFreqList_ = c.freqToFreqList_.insert f l := rfl
  have hempty := h.absent f hf
  have hlookup : ∀ g m, (c.newFreqList f).freqToFreqList_.lookup g = some m →
      g = f ∧ m = l ∨ g ≠ f ∧ c.freqToFreqList_.lookup g = some m := by
    intro g m hm
    rw [hmap] at hm
    by_cases hg : g = f
    · subst hg
      rw [AList.lookup_insert, Option.some_inj] at hm
      exact .inl ⟨rfl, hm.symm⟩
    · rw [AList.lookup_insert_ne hg] at hm
      exact .inr ⟨hg, hm⟩
  have hnew : ∀ a, a ∈ l.footprint (members f) → c.allocated ≤ a ∧ a < c.allocated + 2 := by
    intro a ha
    simp only [FreqList.footprint, hempty, l, List.nil_append, List.mem_cons, List.not_mem_nil,
      or_false] at ha
    omega
  refine ⟨?_, ?_, ?_, ?_, ?_, ?_⟩
  · intro g m hm
    rcases hlookup g m hm with ⟨rfl, rfl⟩ | ⟨-, hm⟩
    · rw [hempty]
      refine ⟨⟨?_, ?_⟩, ?_, ?_, ?_⟩
      all_goals simp [LfuCache.newFreqList, l, Links.setNext, Links.setPre]
    · refine (h.chain g m hm).congr ?_ ?_
      all_goals
        intro a ha
        simp only [Heap.next_links, Heap.pre_links]
        rw [heap_newFreqList_of_lt c f (h.allocated g m a hm ha)]
  · intro g hg
    rw [hmap, AList.mem_insert, not_or] at hg
    exact h.absent g hg.2
  · intro g g' m m' a hm hm' ha ha'
    rcases hlookup g m hm with ⟨rfl, rfl⟩ | ⟨-, hold⟩
    · rcases hlookup g' m' hm' with ⟨rfl, rfl⟩ | ⟨-, hold'⟩
      · rfl
      · have hlt := h.allocated g' m' a hold' ha'
        have hge := hnew a ha
        omega
    · rcases hlookup g' m' hm' with ⟨rfl, rfl⟩ | ⟨-, hold'⟩
      · have hlt := h.allocated g m a hold ha
        have hge := hnew a ha'
        omega
      · exact h.disjoint g g' m m' a hold hold' ha ha'
  · intro g m a hm ha
    have hadd : (c.newFreqList f).allocated = c.allocated + 2 := rfl
    rcases hlookup g m hm with ⟨rfl, rfl⟩ | ⟨-, hold⟩
    · have hge := hnew a ha
      omega
    · have hlt := h.allocated g m a hold ha
      omega
  · intro g n hn
    rw [heap_newFreqList_of_lt c f (h.lt_allocated hn), h.freq g n hn]
  · intro g m hm
    rcases hlookup g m hm with ⟨rfl, rfl⟩ | ⟨-, hold⟩
    · simp [LfuCache.newFreqList, l]
    · rw [heap_newFreqList_of_lt c f
        (h.allocated g m m.tail_ hold (by simp [FreqList.footprint])), h.sentinel g m hold]

/-! ## The functions -/

theorem removeFromFreqList (h : c.Lists members) (hn : n ∈ members f) :
    c.removeFromFreqList n = some { c with heap := FreqList.removeNode c.heap n } := by
  obtain ⟨l, hl⟩ := h.lookup_of_mem hn
  have hf := h.freq f n hn
  subst hf
  simp [LfuCache.removeFromFreqList, hl]

theorem detached_of_removeNode (h : c.Lists members) (hn : n ∈ members f) :
    Detached { c with heap := FreqList.removeNode c.heap n }
      (Function.update members f ((members f).erase n)) n := by
  intro g m hm hin
  obtain ⟨l, hl⟩ := h.lookup_of_mem hn
  have hmem : n ∈ l.footprint (members f) := by simp [FreqList.footprint, hn]
  by_cases hg : g = f
  · subst hg
    rw [hl, Option.some_inj] at hm
    subst hm
    have hnodup := (h.chain g l hl).nodup
    simp only [List.nodup_cons, List.mem_append, List.nodup_append, List.mem_singleton,
      not_or] at hnodup
    rw [Function.update_self, FreqList.footprint] at hin
    simp only [List.mem_cons, List.mem_append, List.not_mem_nil, or_false] at hin
    rcases hin with rfl | hin | rfl
    · exact hnodup.1.1 hn
    · exact (h.nodup g).not_mem_erase hin
    · exact hnodup.2.2.2 l.tail_ hn l.tail_ rfl rfl
  · rw [Function.update_of_ne hg] at hin
    exact hg (h.disjoint g f m l n hm hl hin hmem)

variable [Inhabited Key] [Inhabited Value]

/-- What putting a node that is in no list in its list leaves. -/
theorem addToFreqList (h : c.Lists members) (hn : c.Detached members n) (hlt : n < c.allocated)
    (hf : (c.heap n).freq = f) :
    ∃ d, c.addToFreqList n = some d ∧ c.Keeps d ∧ d.minFreq_ = c.minFreq_ ∧
      d.Lists (Function.update members f (members f ++ [n])) ∧ f ∈ d.freqToFreqList_ ∧
      ∀ a < c.allocated, (d.heap a).freq = (c.heap a).freq := by
  by_cases hmem : f ∈ c.freqToFreqList_
  · obtain ⟨l, hl⟩ := Option.isSome_iff_exists.mp (AList.lookup_isSome.mpr hmem)
    obtain ⟨heap, hadd, hdata, hlists⟩ := h.addNode hl hn hlt hf
    refine ⟨{ c with heap := heap }, ?_, ?_, rfl, hlists, hmem, fun a _ => (hdata a).1⟩
    · subst hf
      simp [LfuCache.addToFreqList, hmem, hl, hadd]
    · exact ⟨rfl, rfl, rfl, rfl, rfl, fun a _ => (hdata a).2.1, fun a _ => (hdata a).2.2,
        Nat.le_refl _, fun g hg => hg⟩
  · have hl : (c.newFreqList f).freqToFreqList_.lookup f =
        some ⟨f, c.allocated, c.allocated + 1⟩ := AList.lookup_insert _
    have hn' : (c.newFreqList f).Detached members n := by
      intro g m hm hin
      by_cases hg : g = f
      · subst hg
        rw [hl, Option.some_inj] at hm
        subst hm
        simp only [FreqList.footprint, h.absent g hmem, List.nil_append, List.mem_cons,
          List.not_mem_nil, or_false] at hin
        omega
      · refine hn g m ?_ hin
        rw [← hm]
        exact (AList.lookup_insert_ne hg).symm
    have hheap := fun a (ha : a < c.allocated) => heap_newFreqList_of_lt c f ha
    have hlt' : n < (c.newFreqList f).allocated := Nat.lt_add_right 2 hlt
    have hf' : ((c.newFreqList f).heap n).freq = f := by rw [hheap n hlt, hf]
    obtain ⟨heap, hadd, hdata, hlists⟩ := (h.newFreqList hmem).addNode hl hn' hlt' hf'
    refine ⟨{ c.newFreqList f with heap := heap }, ?_, ?_, rfl, hlists, ?_, ?_⟩
    · subst hf
      simp [LfuCache.addToFreqList, hmem, hl, hadd]
    · refine ⟨rfl, rfl, rfl, rfl, rfl, ?_, ?_, Nat.le_add_right _ 2, ?_⟩
      · intro a ha
        rw [(hdata a).2.1, hheap a ha]
      · intro a ha
        rw [(hdata a).2.2, hheap a ha]
      · intro g hg
        exact (AList.mem_insert _).mpr (.inr hg)
    · exact (AList.mem_insert _).mpr (.inl rfl)
    · intro a ha
      rw [(hdata a).1, hheap a ha]

theorem moveNode (h : c.Lists members) (hn : n ∈ members f) (g : ℤ) :
    ∃ d, c.moveNode n g = some d ∧ Moved c d members n f g := by
  let c' : LfuCache Key Value := { c with heap := FreqList.removeNode c.heap n }
  let c'' : LfuCache Key Value := { c' with heap := c'.heap.setFreq n g }
  have hlt := h.lt_allocated hn
  have hdet := h.detached_of_removeNode hn
  have hdata := fun a => FreqList.sameData_removeNode c.heap n a
  have hset : ∀ a, a ≠ n → c''.heap a = c'.heap a := fun a ha => Heap.set_of_ne _ _ ha
  have hlists : c''.Lists (Function.update members f ((members f).erase n)) := by
    refine (h.removeNode hn).congr rfl (Nat.le_refl _) ?_
    intro f' l a hl ha
    have hne : a ≠ n := by
      rintro rfl
      exact hdet f' l hl ha
    rw [hset a hne]
    exact ⟨rfl, rfl, rfl⟩
  have hfreq : (c''.heap n).freq = g := by simp [c'', Heap.setFreq]
  have hkeeps' : c.Keeps c'' := by
    refine ⟨rfl, rfl, rfl, rfl, rfl, ?_, ?_, Nat.le_refl _, fun f hf => hf⟩
    · intro a _
      by_cases ha : a = n
      · subst ha
        simp [c'', c', Heap.setFreq, (hdata a).2.1]
      · rw [hset a ha, (hdata a).2.1]
    · intro a _
      by_cases ha : a = n
      · subst ha
        simp [c'', c', Heap.setFreq, (hdata a).2.2]
      · rw [hset a ha, (hdata a).2.2]
  obtain ⟨d, hadd, hkeeps, hmin, hd, hg, hsame⟩ := hlists.addToFreqList hdet hlt hfreq
  refine ⟨d, ?_, hkeeps'.trans hkeeps, hmin, hd, hg, ?_, ?_⟩
  · rw [LfuCache.moveNode, h.removeFromFreqList hn]
    exact hadd
  · rw [hsame n hlt, hfreq]
  · intro a ha hne
    rw [hsame a ha, hset a hne, (hdata a).1]

end Lists

end LfuCache

end CkServer
