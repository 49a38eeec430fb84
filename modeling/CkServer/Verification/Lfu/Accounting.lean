import CkServer.Verification.Lfu.Runs

/-! # The counters of the LFU cache

`purge` and the pass over the nodes change frequencies without the counter. Along a run the
counters are exact as long as neither touches a node. -/

namespace CkServer

namespace LfuCache

variable {Key Value : Type} {c d t : LfuCache Key Value} {members members' : ℤ → List ℕ}

/-- The average is 0 for an empty cache. -/
structure Accounts (c : LfuCache Key Value) : Prop where
  total : c.curTotalNum_ = c.freqSum
  average : c.curAverageNum_ = if c.size = 0 then 0 else c.freqSum / c.size

theorem Settled.freqSum_eq (h : Settled t d) (hages : ¬ t.Ages) : d.freqSum = t.freqSum :=
  freqSum_of_eq h.nodes (h.freq hages)

/-- Where the average is above the bound, the pass lowers a frequency. -/
theorem Settled.freqSum_lt (h : Settled t d) (ha : Accessed c t) (hmax : 2 ≤ t.maxAverageNum_)
    (hages : t.Ages) (hhigh : t.maxAverageNum_ * t.size < t.freqSum) : d.freqSum < t.freqSum := by
  have hhalf : t.maxAverageNum_.tdiv 2 = t.maxAverageNum_ / 2 :=
    Int.tdiv_eq_ediv_of_nonneg (by omega)
  rw [freqSum, h.nodes]
  refine List.sum_lt_sum _ _ ?_ ?_
  · intro n hn
    rw [h.aged hages n hn]
    exact aged_le (by omega) (ha.one_le_freq n hn)
  · by_contra hall
    push Not at hall
    have hle : ∀ n ∈ t.nodes, (t.heap n).freq ≤ t.maxAverageNum_ := by
      intro n hn
      have hge := hall n hn
      rw [h.aged hages n hn, LfuCache.aged, hhalf] at hge
      omega
    have hsum := List.sum_le_card_nsmul (t.nodes.map fun n => (t.heap n).freq) t.maxAverageNum_ (by
      intro f hf
      obtain ⟨n, hn, rfl⟩ := List.mem_map.mp hf
      exact hle n hn)
    rw [List.length_map, length_nodes, nsmul_eq_mul, mul_comm] at hsum
    rw [freqSum] at hhigh
    omega

/-- With an exact counter the pass happens where the true average is above the bound. -/
theorem ages_iff_average (ha : Accessed c t) (h : c.curTotalNum_ = c.freqSum) :
    t.Ages ↔ t.size ≠ 0 ∧ t.maxAverageNum_ < t.freqSum / t.size := by
  have hsurplus := ha.surplus
  have htotal : t.curTotalNum_ + 1 = t.freqSum := by omega
  rw [ages_iff ha.total_nonneg ha.total_lt, htotal]
  apply and_congr_right
  intro hsize
  have hpos : (0 : ℤ) < t.size := by omega
  rw [← Int.add_one_le_iff, Int.le_ediv_iff_mul_le hpos]

theorem Accounts.settled (h : c.Accounts) (ha : Accessed c t) (hd : Settled t d)
    (hages : ¬ t.Ages) : d.Accounts := by
  have hsum := hd.freqSum_eq hages
  have hsurplus := ha.surplus
  have htotal := h.total
  refine ⟨by rw [hd.curTotalNum_, hsum]; omega, ?_⟩
  have htsum : t.curTotalNum_ + 1 = t.freqSum := by omega
  rw [hd.curAverageNum_, counted_average ha.total_nonneg ha.total_lt, hd.size, hsum, htsum]

variable [DecidableEq Key]

/-- What the counters cannot follow is left out: a purge of cached nodes, and an access that
takes the true average above the bound. -/
def Fair (c : LfuCache Key Value) (op : CacheCall Key Value) : Prop :=
  (op = .purge → c.size = 0) ∧ (c.Hits op → (c.freqSum + 1) / c.size ≤ c.maxAverageNum_)

variable [Inhabited Key] [Inhabited Value] {capacity maxAverageNum : Int32}
  {ops : List (CacheCall Key Value)} {op : CacheCall Key Value}

/-- The true average is not above the bound. -/
def Moderate (c : LfuCache Key Value) : Prop :=
  c.freqSum = 0 ∧ c.size = 0 ∨ c.freqSum < (c.maxAverageNum_ + 1) * c.size

theorem not_ages_of_fair (h : c.Accounts) (hmod : c.Moderate) (hmax : 2 ≤ c.maxAverageNum_)
    (hfair : c.Fair op) (hout : Outcome c d op) (ht : c.access op = some t) : ¬ t.Ages := by
  intro hages
  have htotal := h.total
  cases hout with
  | idle hnone => simp [hnone] at ht
  | touches t' ht' hhit ha hsum hsize _ =>
      rw [ht', Option.some_inj] at ht
      subst ht
      obtain ⟨hne, hhigh⟩ := (ages_iff_average ha htotal).mp hages
      have hle := hfair.2 hhit
      rw [hsum, hsize, ha.maxAverageNum_] at hhigh
      omega
  | inserts t' ht' _ ha hshape _ =>
      rw [ht', Option.some_inj] at ht
      subst ht
      obtain ⟨hne, hhigh⟩ := (ages_iff ha.total_nonneg ha.total_lt).mp hages
      have hsurplus := ha.surplus
      rw [ha.maxAverageNum_] at hhigh
      rcases hshape with ⟨-, hsum, hsize⟩ | ⟨-, hsum, hsize⟩
      · -- one frequency of 1 more cannot take the average above the bound
        rw [hsize] at hhigh
        push_cast at hhigh
        rw [mul_add, mul_one] at hhigh
        rcases hmod with ⟨hzero, hempty⟩ | hlt
        · have hcast : (c.size : ℤ) = 0 := by omega
          rw [hcast, mul_zero] at hhigh
          omega
        · omega
      · rw [hsize] at hhigh hne
        rcases hmod with ⟨-, hempty⟩ | hlt
        · exact hne hempty
        · omega

omit [DecidableEq Key] [Inhabited Key] [Inhabited Value] in
theorem Moderate.settled (ha : Accessed c t) (hd : Settled t d) (hmax : 2 ≤ t.maxAverageNum_)
    (hle : t.freqSum ≤ (t.maxAverageNum_ + 1) * t.size) (hsum : t.freqSum ≤ t.curTotalNum_ + 1) :
    d.Moderate := by
  refine .inr ?_
  rw [hd.size, hd.maxAverageNum_]
  have hless := hd.freqSum_le ha (by omega)
  by_cases hages : t.Ages
  · by_cases hhigh : t.maxAverageNum_ * t.size < t.freqSum
    · have hlt := hd.freqSum_lt ha hmax hages hhigh
      omega
    · have hsize := ha.size_ne_zero
      rw [add_mul, one_mul]
      omega
  · have hlt := ha.total_lt_of_not_ages hages
    omega

/-- The pass keeps the true average down, whatever the counter says. -/
theorem Moderate.step (h : c.Moderate) (s : c.Exact members) (hmax : 2 ≤ c.maxAverageNum_)
    (hout : Outcome c d op) : d.Moderate := by
  cases hout with
  | idle _ _ hd =>
      rcases hd with ⟨-, rfl⟩ | ⟨-, rfl⟩
      · exact h
      · exact .inl ⟨rfl, rfl⟩
  | touches t _ _ ha hsum hsize hset =>
      refine Moderate.settled ha hset (by rwa [ha.maxAverageNum_]) ?_ (s.freqSum_le_access ha)
      have hne := ha.size_ne_zero
      rw [hsum, hsize, ha.maxAverageNum_]
      rcases h with ⟨-, hempty⟩ | hlt
      · omega
      · omega
  | inserts t _ _ ha hshape hset =>
      refine Moderate.settled ha hset (by rwa [ha.maxAverageNum_]) ?_ (s.freqSum_le_access ha)
      have hne := ha.size_ne_zero
      rw [ha.maxAverageNum_]
      rcases hshape with ⟨-, hsum, hsize⟩ | ⟨-, hsum, hsize⟩
      · rw [hsum, hsize]
        push_cast
        rw [mul_add, mul_one]
        rcases h with ⟨hzero, hempty⟩ | hlt
        · rw [hempty]
          push_cast
          omega
        · omega
      · rw [hsize]
        rcases h with ⟨-, hempty⟩ | hlt
        · omega
        · omega

theorem Accounts.step (h : c.Accounts) (hmod : c.Moderate)
    (hmax : 2 ≤ c.maxAverageNum_) (hfair : c.Fair op) (hout : Outcome c d op) : d.Accounts := by
  cases haccess : c.access op with
  | none =>
      rcases hout.idle_of_access haccess with ⟨-, rfl⟩ | ⟨hop, rfl⟩
      · exact h
      · have hsize := hfair.1 hop
        have hnodes : c.nodes = [] := List.length_eq_zero_iff.mp ((length_nodes c).trans hsize)
        have hsum : c.freqSum = 0 := by rw [freqSum, hnodes]; rfl
        have htotal : c.curTotalNum_ = 0 := h.total.trans hsum
        have haverage : c.curAverageNum_ = 0 := by rw [h.average, if_pos hsize]
        exact ⟨htotal, haverage⟩
  | some t =>
      obtain ⟨ha, hd⟩ := hout.of_access haccess
      exact h.settled ha hd (not_ages_of_fair h hmod hmax hfair hout haccess)

/-- A call that is not fair leaves a counter that is too large. -/
theorem fair_of_accounts (s : c.Exact members) (h : c.Accounts) (hmax : 2 ≤ c.maxAverageNum_)
    (hout : Outcome c d op) (hd : d.Accounts) : c.Fair op := by
  constructor
  · intro hop
    subst hop
    have hle := s.stored.size_le_freqSum
    have htotal := h.total
    have htotal' := hd.total
    rcases hout.idle_of_access rfl with ⟨hne, -⟩ | ⟨-, rfl⟩
    · exact absurd rfl hne
    · change c.curTotalNum_ = 0 at htotal'
      omega
  · intro hhit
    by_contra hhigh
    cases hout with
    | idle _ hmiss => exact hmiss hhit
    | inserts _ _ hmiss => exact hmiss hhit
    | touches t ht _ ha hsum hsize hset =>
        have hsize' := ha.size_ne_zero
        have hages : t.Ages := by
          rw [ages_iff_average ha h.total, hsum, hsize, ha.maxAverageNum_]
          exact ⟨hsize ▸ hsize', by omega⟩
        have htotal := (ages_iff ha.total_nonneg ha.total_lt).mp hages
        have hsurplus := ha.surplus
        have hc := h.total
        have hlt := hset.freqSum_lt ha (by rwa [ha.maxAverageNum_]) hages (by
          rw [add_mul, one_mul] at htotal
          omega)
        have hdtotal := hd.total
        rw [hset.curTotalNum_] at hdtotal
        omega

/-! ## Runs -/

/-- In every state along the run the counters are exact, and the pass over the nodes happens
exactly where an access takes the true average above the bound. -/
def AccountsAlong (capacity maxAverageNum : Int32) (ops : List (CacheCall Key Value)) : Prop :=
  ∀ before after, ops = before ++ after →
    ∃ c : LfuCache Key Value, (new capacity maxAverageNum).calls before = some c ∧ c.Accounts ∧
      ∀ op t, after.head? = some op → c.access op = some t →
        (t.Ages ↔ t.size ≠ 0 ∧ t.maxAverageNum_ < t.freqSum / t.size)

def FairAlong (capacity maxAverageNum : Int32) (ops : List (CacheCall Key Value)) : Prop :=
  ∀ before op after, ops = before ++ op :: after →
    ∀ c : LfuCache Key Value, (new capacity maxAverageNum).calls before = some c → c.Fair op

theorem FairAlong.of_concat (h : FairAlong capacity maxAverageNum (ops ++ [op])) :
    FairAlong capacity maxAverageNum ops := by
  intro before op' after hops
  exact h before op' (after ++ [op]) (by simp [hops])

theorem reached_of_fair (hcap : 1 ≤ capacity.toInt) (hmax : 2 ≤ maxAverageNum.toInt)
    (ops : List (CacheCall Key Value)) (hlen : ops.length < 2 ^ 31)
    (hfair : FairAlong capacity maxAverageNum ops) :
    ∃ c members, Reached capacity maxAverageNum ops c members ∧ c.Accounts ∧ c.Moderate ∧
      c.Bounded ops.length := by
  refine run_rule capacity maxAverageNum
    (P := fun ops => ops.length < 2 ^ 31 ∧ FairAlong capacity maxAverageNum ops)
    (I := fun ops (c : LfuCache Key Value) => c.Accounts ∧ c.Moderate ∧ c.Bounded ops.length)
    (by omega) (by omega)
    (fun _ _ h => ⟨Nat.lt_of_succ_lt (length_of_concat h.1), h.2.of_concat⟩)
    ⟨⟨rfl, rfl⟩, .inl ⟨rfl, rfl⟩, bounded_new⟩ ?_ ?_ ?_ ops ⟨hlen, hfair⟩
  · intro ops op c d members ⟨_, hfair⟩ hc ⟨haccounts, hmod, _⟩ hout t ht hages
    exact absurd hages (not_ages_of_fair haccounts hmod (by rwa [hc.maxAverageNum_])
      (hfair ops op [] rfl c hc.calls) hout ht)
  · intro ops op c members ⟨hlen, _⟩ _ ⟨_, _, hbounded⟩ _
    exact hbounded.room (length_of_concat hlen)
  · intro ops op c d members members' ⟨_, hfair⟩ hc ⟨haccounts, hmod, hbounded⟩ hout hd
    have hmax' : 2 ≤ c.maxAverageNum_ := by rwa [hc.maxAverageNum_]
    rw [List.length_append, List.length_singleton]
    exact ⟨haccounts.step hmod hmax' (hfair ops op [] rfl c hc.calls) hout,
      hmod.step hc.exact hmax' hout, hbounded.step hd.exact hout⟩

theorem FairAlong.accountsAlong (hcap : 1 ≤ capacity.toInt) (hmax : 2 ≤ maxAverageNum.toInt)
    (hlen : ops.length < 2 ^ 31) (hfair : FairAlong capacity maxAverageNum ops) :
    AccountsAlong capacity maxAverageNum ops := by
  intro before after hops
  have hbefore : FairAlong capacity maxAverageNum before := by
    intro before' op' after' hsplit
    exact hfair before' op' (after' ++ after) (by simp [hops, hsplit])
  have hlength : before.length + after.length < 2 ^ 31 := by
    rwa [hops, List.length_append] at hlen
  obtain ⟨c, members, hc, haccounts, -, hbounded⟩ :=
    reached_of_fair hcap hmax before (by omega) hbefore
  refine ⟨c, hc.calls, haccounts, fun op t hhead ht => ?_⟩
  obtain ⟨rest, rfl⟩ := List.head?_eq_some_iff.mp hhead
  rw [List.length_cons] at hlength
  obtain ⟨d, _, -, hout, -⟩ := hc.exact.call op (by rw [hc.capacity_]; omega)
    (by rw [hc.maxAverageNum_]; omega) (fun _ => hbounded.room (by omega))
  exact ages_iff_average (hout.of_access ht).1 haccounts.total

theorem AccountsAlong.of_concat (h : AccountsAlong capacity maxAverageNum (ops ++ [op])) :
    AccountsAlong capacity maxAverageNum ops := by
  intro before after hops
  obtain ⟨c, hc, haccounts, hpass⟩ := h before (after ++ [op]) (by simp [hops])
  refine ⟨c, hc, haccounts, fun op' t hhead => hpass op' t ?_⟩
  cases after with
  | nil => simp at hhead
  | cons first rest => simpa using hhead

theorem AccountsAlong.fairAlong (hcap : 1 ≤ capacity.toInt) (hmax : 2 ≤ maxAverageNum.toInt)
    (hlen : ops.length < 2 ^ 31) (h : AccountsAlong capacity maxAverageNum ops) :
    FairAlong capacity maxAverageNum ops := by
  induction ops using List.reverseRecOn with
  | nil =>
      intro before op after hops
      simp at hops
  | append_singleton ops op ih =>
      have hlen' := length_of_concat hlen
      have hfair := ih (Nat.lt_of_succ_lt hlen') h.of_concat
      intro before op' after hops c hc
      rcases List.eq_nil_or_concat after with rfl | ⟨after', last, rfl⟩
      · obtain ⟨rfl, hop⟩ := List.append_inj' hops rfl
        rw [List.singleton_inj] at hop
        subst hop
        obtain ⟨c', members, hc', haccounts, -, hbounded⟩ :=
          reached_of_fair hcap hmax ops (Nat.lt_of_succ_lt hlen') hfair
        have hcc : c' = c := Option.some_inj.mp (hc'.calls.symm.trans hc)
        subst hcc
        obtain ⟨d, _, hcall, hout, -⟩ := hc'.exact.call op (by rw [hc'.capacity_]; omega)
          (by rw [hc'.maxAverageNum_]; omega) (fun _ => hbounded.room hlen')
        obtain ⟨d', hd', haccounts', -⟩ := h (ops ++ [op]) [] (by simp)
        rw [calls_concat, hc, Option.bind_some, hcall, Option.some_inj] at hd'
        exact fair_of_accounts hc'.exact haccounts (by rwa [hc'.maxAverageNum_]) hout
          (hd' ▸ haccounts')
      · refine hfair before op' after' ?_ c hc
        have hops' : ops ++ [op] = (before ++ op' :: after') ++ [last] := by simpa using hops
        exact (List.append_inj' hops' rfl).1

/-- The counters are exact along a run exactly if all its calls are fair. With fewer than `2 ^ 31`
calls no `int` overflows. -/
theorem accountsAlong_iff (hcap : 1 ≤ capacity.toInt) (hmax : 2 ≤ maxAverageNum.toInt)
    (ops : List (CacheCall Key Value)) (hlen : ops.length < 2 ^ 31) :
    AccountsAlong capacity maxAverageNum ops ↔ FairAlong capacity maxAverageNum ops :=
  ⟨fun h => h.fairAlong hcap hmax hlen, fun h => h.accountsAlong hcap hmax hlen⟩

/-- A put, and a get of the same key. -/
theorem accountsAlong_iff_two :
    AccountsAlong 4 10 [CacheCall.put .inOrder 1 (7 : ℕ), .get .inOrder 1] ↔
      FairAlong 4 10 [CacheCall.put .inOrder (1 : ℕ) (7 : ℕ), .get .inOrder 1] :=
  accountsAlong_iff (by decide) (by decide) _ (by decide)

/-- After a purge the counter still has the access to the key that is gone. -/
theorem not_accounts_purged : ∃ c : LfuCache ℕ ℕ,
    (new 1).calls [.put .inOrder 1 7, .purge] = some c ∧ ¬ c.Accounts := by
  obtain ⟨c, hc, htotal⟩ : ∃ c : LfuCache ℕ ℕ,
      (new 1).calls [.put .inOrder 1 7, .purge] = some c ∧ c.curTotalNum_ = 1 ∧ c.nodes = [] :=
    ⟨_, rfl, rfl, rfl⟩
  refine ⟨c, hc, fun h => ?_⟩
  have hsum := h.total
  rw [freqSum, htotal.1, htotal.2] at hsum
  simp at hsum

end LfuCache

end CkServer
