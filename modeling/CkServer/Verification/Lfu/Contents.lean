import CkServer.Verification.Lfu.Operations
import Mathlib.Data.List.Induction

/-! # The contents of the LFU cache

The values that a run leaves in the cache are the latest ones. -/

namespace CkServer

variable {Key Value : Type} [DecidableEq Key]

/-- The value of the last `put` of the key, if no `purge` came after it. -/
def latest (ops : List (CacheCall Key Value)) (k : Key) : Option Value :=
  ops.foldl (fun v op => match op with
    | .put _ k' v' => if k = k' then some v' else v
    | .get _ _ => v
    | .purge => none) none

@[simp] theorem latest_nil (k : Key) : latest ([] : List (CacheCall Key Value)) k = none := rfl

@[simp] theorem latest_put (ops : List (CacheCall Key Value)) (o : IterationOrders Key) (k k' : Key)
    (v : Value) : latest (ops ++ [.put o k' v]) k = if k = k' then some v else latest ops k := by
  simp [latest]

@[simp] theorem latest_get (ops : List (CacheCall Key Value)) (o : IterationOrders Key)
    (k k' : Key) : latest (ops ++ [.get o k']) k = latest ops k := by
  simp [latest]

@[simp] theorem latest_purge (ops : List (CacheCall Key Value)) (k : Key) :
    latest (ops ++ [.purge]) k = none := by
  simp [latest]

/-- The key of a `put` or a `get`. -/
def CacheCall.key : CacheCall Key Value → Option Key
  | .put _ k _ => some k
  | .get _ k => some k
  | .purge => none

/-- What a cache owes its users in the runs that are promised. A hit is the latest value, a miss
changes nothing, and where the cache stores at all, a `get` directly after a `put` hits. -/
structure ServesLatest {Cache : Type} (calls : List (CacheCall Key Value) → Option Cache)
    (get : Cache → IterationOrders Key → Key → Option (Cache × Option Value))
    (promised : List (CacheCall Key Value) → Prop) (stores : Prop) : Prop where
  serves : ∀ ops, promised ops → ∃ c, calls ops = some c ∧ ∀ o k, promised (ops ++ [.get o k]) →
    ∃ d r, get c o k = some (d, r) ∧
      (∀ v, r = some v → latest ops k = some v) ∧ (r = none → d = c) ∧
      ∀ ops' o' v, ops = ops' ++ [.put o' k v] → stores → r = some v

/-- No access of the run comes to a key whose frequency is the largest `int`. -/
def CountableAlong {Cache : Type} (calls : List (CacheCall Key Value) → Option Cache)
    (freqOf : Cache → Key → Option ℤ) (ops : List (CacheCall Key Value)) : Prop :=
  ∀ before op after, ops = before ++ op :: after → ∀ c k f, calls before = some c →
    op.key = some k → freqOf c k = some f → f < 2 ^ 31 - 1

section Along

variable {Cache : Type} {calls : List (CacheCall Key Value) → Option Cache}
  {freqOf : Cache → Key → Option ℤ} {ops : List (CacheCall Key Value)} {op : CacheCall Key Value}

omit [DecidableEq Key] in
theorem CountableAlong.of_concat (h : CountableAlong calls freqOf (ops ++ [op])) :
    CountableAlong calls freqOf ops := by
  intro before op' after hops
  exact h before op' (after ++ [op]) (by simp [hops])

omit [DecidableEq Key] in
theorem CountableAlong.concat (h : CountableAlong calls freqOf ops)
    (hlast : ∀ c k f, calls ops = some c → op.key = some k → freqOf c k = some f →
      f < 2 ^ 31 - 1) : CountableAlong calls freqOf (ops ++ [op]) := by
  intro before op' after hops
  rcases List.eq_nil_or_concat after with rfl | ⟨after', last, rfl⟩
  · obtain ⟨rfl, hop⟩ := List.append_inj' hops rfl
    rw [List.singleton_inj] at hop
    exact hop ▸ hlast
  · have hops' : ops ++ [op] = (before ++ op' :: after') ++ [last] := by simpa using hops
    exact h before op' after' (List.append_inj' hops' rfl).1

end Along

namespace LfuCache

variable {c d : LfuCache Key Value} {ops : List (CacheCall Key Value)} {op : CacheCall Key Value}

/-- The cache after the calls `ops`. -/
structure Serves (c : LfuCache Key Value) (ops : List (CacheCall Key Value)) : Prop where
  sound : ∃ members, c.Sound members ∧
    (0 ≤ c.maxAverageNum_ → ops.length < 2 ^ 31 → AtMost members ops.length)
  latest : ∀ k v, c.valueOf k = some v → latest ops k = some v
  closed : c.capacity_ = 0 → ∀ k, c.valueOf k = none
  just_put : ∀ ops' o k v, ops = ops' ++ [.put o k v] → c.capacity_ ≠ 0 → c.valueOf k = some v

omit [DecidableEq Key] in
theorem Serves.sound_next {members members' : ℤ → List ℕ} (hd : d.Sound members')
    (hmax : d.maxAverageNum_ = c.maxAverageNum_) (hrises : c.Rises members members')
    (hle : 0 ≤ c.maxAverageNum_ → ops.length < 2 ^ 31 → AtMost members ops.length) :
    ∃ members, d.Sound members ∧ (0 ≤ d.maxAverageNum_ → (ops ++ [op]).length < 2 ^ 31 →
      AtMost members (ops ++ [op]).length) := by
  refine ⟨members', hd, fun hnonneg hlen => ?_⟩
  rw [hmax] at hnonneg
  rw [List.length_append, List.length_singleton] at hlen ⊢
  push_cast
  exact hrises hnonneg _ (by omega) (by omega) (hle hnonneg (by omega))

variable [Inhabited Key] [Inhabited Value]

theorem Serves.put (s : c.Serves ops) (o : IterationOrders Key) {k : Key} (v : Value)
    (hcount : c.Countable k) :
    ∃ d, c.put o k v = some d ∧ d.capacity_ = c.capacity_ ∧
      d.maxAverageNum_ = c.maxAverageNum_ ∧ d.size ≤ c.size + 1 ∧
      d.Serves (ops ++ [.put o k v]) := by
  obtain ⟨members, hsound, hle⟩ := s.sound
  by_cases hcap : c.capacity_ = 0
  · have hnone := s.closed hcap
    have hsame : c.Rises members members := fun _ b _ _ hb => hb.mono (by omega)
    refine ⟨c, by rw [LfuCache.put, if_pos hcap], rfl, rfl, Nat.le_succ _,
      ⟨Serves.sound_next hsound rfl hsame hle, ?_, s.closed, fun _ _ _ _ _ => absurd hcap⟩⟩
    intro k' v' hv
    simp [hnone] at hv
  · obtain ⟨d, members', hput, hd, hcontents, hrises⟩ := hsound.put (v := v) o hcap hcount
    refine ⟨d, hput, hcontents.capacity_, hcontents.maxAverageNum_, hcontents.size_le,
      Serves.sound_next hd hcontents.maxAverageNum_ hrises hle, ?_, ?_, ?_⟩
    · intro k' v' hv
      rw [latest_put]
      by_cases hk : k' = k
      · subst hk
        rw [if_pos rfl, ← hv, hcontents.self]
      · rw [if_neg hk]
        rcases hcontents.other k' hk with hnone | hsame
        · simp [hnone] at hv
        · exact s.latest k' v' (hsame ▸ hv)
    · intro hd
      exact absurd (hcontents.capacity_ ▸ hd) hcap
    · intro ops' o' k' v' hops _
      obtain ⟨-, hop⟩ := List.append_inj' hops rfl
      rw [List.singleton_inj, CacheCall.put.injEq] at hop
      rw [← hop.2.1, ← hop.2.2, hcontents.self]

theorem Serves.get (s : c.Serves ops) (o : IterationOrders Key) {k : Key}
    (hcount : c.Countable k) :
    ∃ d, c.get o k = some (d, c.valueOf k) ∧ d.capacity_ = c.capacity_ ∧
      d.maxAverageNum_ = c.maxAverageNum_ ∧ d.size = c.size ∧ d.Serves (ops ++ [.get o k]) := by
  obtain ⟨members, hsound, hle⟩ := s.sound
  obtain ⟨d, members', hget, hd, hsame, hrises⟩ := hsound.get o hcount
  refine ⟨d, hget, hsame.capacity_, hsame.maxAverageNum_, by rw [size, size, hsame.nodeMap_],
    Serves.sound_next hd hsame.maxAverageNum_ hrises hle, ?_, ?_, ?_⟩
  · intro k' v hv
    rw [latest_get]
    exact s.latest k' v (hsame.valueOf k' ▸ hv)
  · intro hcap k'
    rw [hsame.valueOf]
    exact s.closed (hsame.capacity_ ▸ hcap) k'
  · intro ops' o' k' v' hops
    simp at hops

omit [Inhabited Key] [Inhabited Value] in
theorem Serves.purge (s : c.Serves ops) : c.purge.Serves (ops ++ [.purge]) := by
  obtain ⟨members, hsound, hle⟩ := s.sound
  have hrises : c.Rises members fun _ => [] := by
    intro _ b _ _ _ f n hn
    simp at hn
  refine ⟨Serves.sound_next hsound.purge rfl hrises hle, ?_, ?_, ?_⟩
  all_goals simp [LfuCache.purge, valueOf]

/-- The cache after the calls `ops`, with its configuration. -/
structure After (capacity maxAverageNum : Int32) (ops : List (CacheCall Key Value))
    (c : LfuCache Key Value) : Prop where
  calls : (new capacity maxAverageNum).calls ops = some c
  capacity_ : c.capacity_ = capacity.toInt
  maxAverageNum_ : c.maxAverageNum_ = maxAverageNum.toInt
  serves : c.Serves ops

variable {capacity maxAverageNum : Int32}

theorem after_new :
    After capacity maxAverageNum [] (new capacity maxAverageNum : LfuCache Key Value) := by
  refine ⟨rfl, rfl, rfl, ⟨_, sound_new capacity maxAverageNum, ?_⟩, ?_, ?_, ?_⟩
  · intro _ _ f n hn
    simp at hn
  all_goals simp [valueOf, new]

theorem After.call (h : After capacity maxAverageNum ops c) (op : CacheCall Key Value)
    (hcount : ∀ k, op.key = some k → c.Countable k) :
    ∃ d, c.call op = some d ∧ After capacity maxAverageNum (ops ++ [op]) d ∧
      d.size ≤ c.size + 1 := by
  have hcalls {d : LfuCache Key Value} (hcall : c.call op = some d) :
      (new capacity maxAverageNum).calls (ops ++ [op]) = some d := by
    rw [calls_concat, h.calls]
    exact hcall
  cases op with
  | put o k v =>
      obtain ⟨d, hput, hcap, hmax, hsize, hd⟩ := h.serves.put o v (hcount k rfl)
      exact ⟨d, hput, ⟨hcalls hput, hcap.trans h.capacity_, hmax.trans h.maxAverageNum_, hd⟩, hsize⟩
  | get o k =>
      obtain ⟨d, hget, hcap, hmax, hsize, hd⟩ := h.serves.get o (hcount k rfl)
      have hcall : c.call (.get o k) = some d := by simp [LfuCache.call, hget]
      exact ⟨d, hcall, ⟨hcalls hcall, hcap.trans h.capacity_, hmax.trans h.maxAverageNum_, hd⟩,
        by omega⟩
  | purge =>
      exact ⟨c.purge, rfl, ⟨hcalls rfl, h.capacity_, h.maxAverageNum_, h.serves.purge⟩,
        Nat.zero_le _⟩

/-- The run lemma, for runs whose accesses can be counted for the reason that `P` gives. -/
theorem after_rule (capacity maxAverageNum : Int32) {P : List (CacheCall Key Value) → Prop}
    (hclosed : ∀ ops op, P (ops ++ [op]) → P ops)
    (hcount : ∀ ops op (c : LfuCache Key Value), P (ops ++ [op]) →
      After capacity maxAverageNum ops c → ∀ k, op.key = some k → c.Countable k)
    (ops : List (CacheCall Key Value)) (hops : P ops) :
    ∃ c : LfuCache Key Value, After capacity maxAverageNum ops c := by
  induction ops using List.reverseRecOn with
  | nil => exact ⟨_, after_new⟩
  | append_singleton ops op ih =>
      obtain ⟨c, hc⟩ := ih (hclosed ops op hops)
      obtain ⟨d, -, hd, -⟩ := hc.call op (hcount ops op c hops hc)
      exact ⟨d, hd⟩

theorem exists_after (capacity maxAverageNum : Int32) (ops : List (CacheCall Key Value))
    (hops : CountableAlong (new capacity maxAverageNum : LfuCache Key Value).calls freqOf ops) :
    ∃ c : LfuCache Key Value, After capacity maxAverageNum ops c :=
  after_rule capacity maxAverageNum (fun _ _ => CountableAlong.of_concat)
    (fun ops op c hops hc k hk f => hops ops op [] rfl c k f hc.calls hk) ops hops

omit [Inhabited Key] [Inhabited Value] in
/-- Where the bound on the average is not negative, frequencies only grow by being counted. -/
theorem Serves.countable (s : c.Serves ops) (hmax : 0 ≤ c.maxAverageNum_)
    (hlen : ops.length + 1 < 2 ^ 31) (k : Key) : c.Countable k := by
  obtain ⟨members, hsound, hle⟩ := s.sound
  intro f hf
  obtain ⟨n, hk, rfl⟩ := Option.map_eq_some_iff.mp hf
  obtain ⟨g, hg⟩ := hsound.stored.listed k n (mem_entries hk)
  have hgb := hle hmax (by omega) g n hg
  rw [hsound.stored.lists.freq g n hg]
  omega

theorem exists_after_of_short (capacity maxAverageNum : Int32) (hmax : 0 ≤ maxAverageNum.toInt)
    (ops : List (CacheCall Key Value)) (hlen : ops.length < 2 ^ 31) :
    ∃ c : LfuCache Key Value, After capacity maxAverageNum ops c := by
  refine after_rule capacity maxAverageNum (P := fun ops => ops.length < 2 ^ 31) ?_ ?_ ops hlen
  · intro ops op hlen
    exact Nat.lt_of_succ_lt (length_of_concat hlen)
  · intro ops op c hlen hc k _
    exact hc.serves.countable (hc.maxAverageNum_ ▸ hmax) (length_of_concat hlen) k

end LfuCache

end CkServer
