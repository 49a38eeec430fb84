import CkServer.Verification.Lfu.Accounting

/-! # What the counter of the LFU cache loses sight of

The counter stays above the sum of the frequencies by what the purges and the passes over the
nodes have taken from them. It keeps to its range exactly as long as there is room for that as
well. -/

namespace CkServer

namespace LfuCache

variable {Key Value : Type} {c d t : LfuCache Key Value} {members members' : ℤ → List ℕ}

/-- The sum of the frequencies after a pass. -/
def agedSum (t : LfuCache Key Value) : ℤ :=
  (t.nodes.map fun n => LfuCache.aged t.maxAverageNum_ (t.heap n).freq).sum

theorem Settled.freqSum_of_ages (h : Settled t d) (hages : t.Ages) : d.freqSum = t.agedSum := by
  rw [freqSum, agedSum, h.nodes, List.map_congr_left (h.aged hages)]

variable [DecidableEq Key] [Inhabited Key] [Inhabited Value] {capacity maxAverageNum : Int32}
  {ops : List (CacheCall Key Value)} {op : CacheCall Key Value}

/-- What a call takes from the frequencies without the counter: a purge all of them, a pass over
the nodes what it lowers them by. -/
def taken (c : LfuCache Key Value) (op : CacheCall Key Value) : ℤ :=
  match c.access op, op with
  | some t, _ => if t.Ages then t.freqSum - t.agedSum else 0
  | none, .purge => c.freqSum
  | none, _ => 0

/-- What the calls of a run take together. -/
def takenAlong (c : LfuCache Key Value) : List (CacheCall Key Value) → ℤ
  | [] => 0
  | op :: ops => c.taken op + match c.call op with
      | some d => d.takenAlong ops
      | none => 0

theorem takenAlong_concat (h : c.calls ops = some d) :
    c.takenAlong (ops ++ [op]) = c.takenAlong ops + d.taken op := by
  induction ops generalizing c with
  | nil =>
      obtain rfl := Option.some_inj.mp h
      cases hcall : c.call op with
      | none => simp [takenAlong, hcall]
      | some e => simp [takenAlong, hcall]
  | cons first ops ih =>
      simp only [calls, List.foldlM_cons, Option.bind_eq_bind, Option.bind_eq_some_iff] at h
      obtain ⟨e, hcall, hrest⟩ := h
      simp only [List.cons_append, takenAlong, hcall]
      rw [ih hrest, Int.add_assoc]

/-! ## A call -/

theorem Outcome.total (h : Outcome c d op) {taken : ℤ}
    (htotal : c.curTotalNum_ = c.freqSum + taken) :
    d.curTotalNum_ = d.freqSum + (taken + c.taken op) := by
  cases haccess : c.access op with
  | none =>
      rcases h.idle_of_access haccess with ⟨hop, rfl⟩ | ⟨rfl, rfl⟩
      · cases op with
        | purge => exact absurd rfl hop
        | put | get => simpa [LfuCache.taken, haccess] using htotal
      · have hzero : c.purge.freqSum = 0 := rfl
        have hsame : c.purge.curTotalNum_ = c.curTotalNum_ := rfl
        simp only [LfuCache.taken, haccess]
        omega
  | some t =>
      obtain ⟨ha, hd⟩ := h.of_access haccess
      have hsurplus := ha.surplus
      have hlast := hd.curTotalNum_
      simp only [LfuCache.taken, haccess]
      by_cases hages : t.Ages
      · rw [if_pos hages, hd.freqSum_of_ages hages]
        omega
      · rw [if_neg hages, hd.freqSum_eq hages]
        omega

/-- A call that does not raise the counter makes room for the access that it counts. -/
theorem Outcome.total_le (h : Outcome c d op) (ht : c.access op = some t) :
    t.curTotalNum_ ≤ c.curTotalNum_ ∧ (c.Raises op ∨ t.curTotalNum_ + 1 ≤ c.curTotalNum_) := by
  cases h with
  | idle hnone => simp [hnone] at ht
  | touches t' ht' hhit ha =>
      obtain rfl := Option.some_inj.mp (ht'.symm.trans ht)
      refine ⟨ha.total_le, .inl ?_⟩
      cases op with
      | put => exact .inl hhit
      | get => exact hhit
      | purge => exact hhit
  | inserts t' ht' hmiss ha hshape =>
      obtain rfl := Option.some_inj.mp (ht'.symm.trans ht)
      refine ⟨ha.total_le, ?_⟩
      rcases hshape with ⟨hfree, -, -⟩ | ⟨-, hsum, -⟩
      · cases op with
        | put => exact .inl (.inr hfree)
        | get o k => simp [access, AList.lookup_eq_none.mpr hmiss] at ht'
        | purge => simp [access] at ht'
      · have hsurplus := ha.surplus
        exact .inr (by omega)

omit [DecidableEq Key] in
theorem Stored.touch_total (s : c.Stored members) {n : ℕ} (hn : n ∈ c.nodes)
    (hlt : (c.heap n).freq < 2 ^ 31 - 1) :
    ∃ t, c.touch n = some t ∧ t.curTotalNum_ = c.curTotalNum_ := by
  obtain ⟨t, ht, htouched⟩ := s.touch (s.mem_members hn) hlt
  exact ⟨t, ht, htouched.keeps.curTotalNum_⟩

theorem Exact.access_of_raises (s : c.Exact members)
    (hlt : ∀ n ∈ c.nodes, (c.heap n).freq < 2 ^ 31 - 1) (h : c.Raises op) :
    ∃ t, c.access op = some t ∧ t.curTotalNum_ = c.curTotalNum_ := by
  cases op with
  | put o k v =>
      cases hk : c.nodeMap_.lookup k with
      | none =>
          have hmiss := AList.lookup_eq_none.mp hk
          have hfree := h.resolve_left hmiss
          obtain ⟨t, ht, hi⟩ := s.stored.store (v := v) hmiss
          exact ⟨t, by simp [access, hk, hfree, ht], hi.curTotalNum_⟩
      | some n =>
          have hn : n ∈ c.nodes := mem_nodes.mpr ⟨k, mem_entries hk⟩
          obtain ⟨t, ht, htotal⟩ := (s.withValue n v).stored.touch_total hn (by
            rw [freq_withValue]
            exact hlt n hn)
          exact ⟨t, by simp [access, hk, ht], htotal⟩
  | get o k =>
      obtain ⟨n, hk⟩ := Option.isSome_iff_exists.mp (AList.lookup_isSome.mpr h)
      have hn : n ∈ c.nodes := mem_nodes.mpr ⟨k, mem_entries hk⟩
      obtain ⟨t, ht, htotal⟩ := s.stored.touch_total hn (hlt n hn)
      exact ⟨t, by simp [access, hk, ht], htotal⟩
  | purge => exact h.elim

/-! ## Runs -/

/-- What the counter is allowed to reach. -/
def totalBound (capacity maxAverageNum : Int32) : ℤ := capacity.toInt * (maxAverageNum.toInt + 1)

/-- The counter is in range in each state along the run, and where an access is counted it is in
range before and after that, so that the increment does not overflow. -/
def TotalInRange (capacity maxAverageNum : Int32) (ops : List (CacheCall Key Value)) : Prop :=
  ∀ before after, ops = before ++ after →
    ∃ c : LfuCache Key Value, (new capacity maxAverageNum).calls before = some c ∧
      0 ≤ c.curTotalNum_ ∧ c.curTotalNum_ ≤ totalBound capacity maxAverageNum ∧
      ∀ op t, after.head? = some op → c.access op = some t →
        0 ≤ t.curTotalNum_ ∧ t.curTotalNum_ + 1 ≤ totalBound capacity maxAverageNum ∧
          t.curTotalNum_ + 1 < 2 ^ 31

/-- Once frequencies have been taken without the counter, a call that raises it finds room in the
range for what has been taken beside the frequencies that are left. -/
def LeavesRoom (capacity maxAverageNum : Int32) (ops : List (CacheCall Key Value)) : Prop :=
  ∀ before op after, ops = before ++ op :: after →
    ∀ c : LfuCache Key Value, (new capacity maxAverageNum).calls before = some c → c.Raises op →
      0 < (new capacity maxAverageNum : LfuCache Key Value).takenAlong before →
        c.freqSum + (new capacity maxAverageNum : LfuCache Key Value).takenAlong before <
          totalBound capacity maxAverageNum

/-- What holds once the calls `ops` have been made. -/
structure Balanced (capacity maxAverageNum : Int32) (ops : List (CacheCall Key Value))
    (c : LfuCache Key Value) : Prop where
  total : c.curTotalNum_ =
    c.freqSum + (new capacity maxAverageNum : LfuCache Key Value).takenAlong ops
  total_le : c.curTotalNum_ ≤ totalBound capacity maxAverageNum
  moderate : c.Moderate
  low : maxAverageNum.toInt ≤ 250 → c.KeepsLow

/-- The true average keeps the frequencies themselves below the bound. -/
theorem Reached.freqSum_lt (h : Reached capacity maxAverageNum ops c members) (hmod : c.Moderate)
    (hcap : 1 ≤ capacity.toInt) (hmax : 2 ≤ maxAverageNum.toInt) :
    c.freqSum < totalBound capacity maxAverageNum := by
  have hpos : 0 < totalBound capacity maxAverageNum := Int.mul_pos (by omega) (by omega)
  rcases hmod with ⟨hzero, -⟩ | hlt
  · rwa [hzero]
  · have hsize := h.exact.size_le
    rw [h.capacity_, toSize_t, if_pos (by omega)] at hsize
    rw [h.maxAverageNum_] at hlt
    calc c.freqSum < (maxAverageNum.toInt + 1) * c.size := hlt
      _ ≤ (maxAverageNum.toInt + 1) * capacity.toInt :=
        Int.mul_le_mul_of_nonneg_left (by omega) (by omega)
      _ = totalBound capacity maxAverageNum := Int.mul_comm _ _

theorem Balanced.step (h : Balanced capacity maxAverageNum ops c)
    (hc : Reached capacity maxAverageNum ops c members) (hmax : 2 ≤ maxAverageNum.toInt)
    (hout : Outcome c d op)
    (hroom : c.Raises op → c.curTotalNum_ < totalBound capacity maxAverageNum) :
    Balanced capacity maxAverageNum (ops ++ [op]) d where
  total := by
    rw [takenAlong_concat hc.calls]
    exact hout.total h.total
  total_le := by
    have hle := h.total_le
    cases haccess : c.access op with
    | none =>
        rcases hout.idle_of_access haccess with ⟨-, rfl⟩ | ⟨-, rfl⟩
        · exact hle
        · exact hle
    | some t =>
        rw [(hout.of_access haccess).2.curTotalNum_]
        obtain ⟨hsame, hraises | hless⟩ := hout.total_le haccess
        · have hlt := hroom hraises
          omega
        · omega
  moderate := h.moderate.step hc.exact (by rwa [hc.maxAverageNum_]) hout
  low hmax' := (h.low hmax').step hc.exact hout (by rwa [hc.maxAverageNum_])

theorem Balanced.room (h : Balanced capacity maxAverageNum ops c)
    (hc : Reached capacity maxAverageNum ops c members) (hcap : 1 ≤ capacity.toInt)
    (hmax : 2 ≤ maxAverageNum.toInt) {after : List (CacheCall Key Value)}
    (hops : LeavesRoom capacity maxAverageNum (ops ++ op :: after)) (hraises : c.Raises op) :
    c.curTotalNum_ < totalBound capacity maxAverageNum := by
  rw [h.total]
  by_cases htaken : 0 < (new capacity maxAverageNum : LfuCache Key Value).takenAlong ops
  · exact hops ops op after rfl c hc.calls hraises htaken
  · have hlt := hc.freqSum_lt h.moderate hcap hmax
    omega

/-- A counted access of a run in range finds the counter below the bound. -/
theorem TotalInRange.room {after : List (CacheCall Key Value)}
    (h : TotalInRange capacity maxAverageNum (ops ++ op :: after))
    (hc : Reached capacity maxAverageNum ops c members)
    (hI : Balanced capacity maxAverageNum ops c) (hcap : 1 ≤ capacity.toInt)
    (hmax : 2 ≤ maxAverageNum.toInt) (hbound : totalBound capacity maxAverageNum ≤ 2 ^ 31 - 1)
    (hraises : c.Raises op) : c.curTotalNum_ < totalBound capacity maxAverageNum := by
  have hsum := hc.freqSum_lt hI.moderate hcap hmax
  obtain ⟨t, ht, htotal⟩ := hc.exact.access_of_raises (fun n hn => by
    have hfreq := hc.exact.stored.freq_le_freqSum hn
    omega) hraises
  obtain ⟨c', hc', -, -, haccess⟩ := h ops (op :: after) rfl
  obtain rfl := Option.some_inj.mp (hc.calls.symm.trans hc')
  obtain ⟨-, hle, -⟩ := haccess op t rfl ht
  omega

end LfuCache

end CkServer
