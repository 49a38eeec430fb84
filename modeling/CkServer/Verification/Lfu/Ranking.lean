import Mathlib.Data.List.Nodup
import Mathlib.Data.List.Perm.Basic
import Mathlib.Data.Nat.Notation
import Mathlib.Data.Int.Notation

/-! # A cache as a ranking

What an LFU cache does, without a heap, maps or lists of nodes: its entries stand in the order in
which they got their numbers of uses, and of those with the smallest number the first one goes
when room is needed. When the numbers are too high on average all of them are lowered, in an order
that is left open. -/

namespace CkServer

/-- A key with its value and its number of uses. -/
structure Ranked (Key Value : Type) where
  key : Key
  value : Value
  freq : ℤ

/-- What a user asks of a cache. -/
inductive Request (Key Value : Type) where
  | put (key : Key) (value : Value)
  | get (key : Key)
  | purge

/-- The entries with the total of uses that has been counted. -/
structure Ranking (Key Value : Type) where
  capacity : ℕ
  maxAverage : ℤ
  total : ℤ := 0
  entries : List (Ranked Key Value) := []

namespace Ranking

variable {Key Value : Type}

def Holds (r : Ranking Key Value) (k : Key) : Prop := ∃ e ∈ r.entries, e.key = k

/-- One more use makes the average too high. -/
def TooHigh (r : Ranking Key Value) : Prop := r.maxAverage < (r.total + 1) / r.entries.length

/-- An entry with a number of uses that is lowered, and not below 1. -/
def lowered (maxAverage : ℤ) (e : Ranked Key Value) : Ranked Key Value :=
  { e with freq := max (e.freq - maxAverage / 2) 1 }

/-- A use is counted. -/
inductive Counts (r : Ranking Key Value) : Ranking Key Value → Prop
  | plain (h : ¬ r.TooHigh) : Counts r { r with total := r.total + 1 }
  | lowering (h : r.TooHigh) (order : List (Ranked Key Value)) (horder : order.Perm r.entries) :
      Counts r { r with total := r.total + 1, entries := order.map (lowered r.maxAverage) }

/-- There is room for an entry, or the first entry with the smallest number of uses goes. -/
inductive MakesRoom (r : Ranking Key Value) : Ranking Key Value → Prop
  | free (h : r.entries.length < r.capacity) : MakesRoom r r
  | full (before : List (Ranked Key Value)) (least : Ranked Key Value)
      (after : List (Ranked Key Value)) (h : r.entries = before ++ least :: after)
      (hfull : r.entries.length = r.capacity) (hbefore : ∀ e ∈ before, least.freq < e.freq)
      (hafter : ∀ e ∈ after, least.freq ≤ e.freq) :
      MakesRoom r { r with total := r.total - least.freq, entries := before ++ after }

def insert (r : Ranking Key Value) (k : Key) (v : Value) : Ranking Key Value :=
  { r with entries := r.entries ++ [⟨k, v, 1⟩] }

variable [DecidableEq Key]

/-- The entries without a key. -/
def without (es : List (Ranked Key Value)) (k : Key) : List (Ranked Key Value) :=
  es.filter fun e => e.key ≠ k

/-- An entry is used once more, and may get another value. -/
def use (r : Ranking Key Value) (e : Ranked Key Value) (v : Value) : Ranking Key Value :=
  { r with entries := without r.entries e.key ++ [⟨e.key, v, e.freq + 1⟩] }

/-- A request and its answer. -/
inductive Step (r : Ranking Key Value) :
    Request Key Value → Option Value → Ranking Key Value → Prop
  | hit {s : Ranking Key Value} (e : Ranked Key Value) (he : e ∈ r.entries)
      (hcount : (r.use e e.value).Counts s) : Step r (.get e.key) (some e.value) s
  | miss (k : Key) (hk : ¬ r.Holds k) : Step r (.get k) none r
  | replace {s : Ranking Key Value} (e : Ranked Key Value) (he : e ∈ r.entries) (v : Value)
      (hcount : (r.use e v).Counts s) : Step r (.put e.key v) none s
  | add {s t : Ranking Key Value} (k : Key) (v : Value) (hk : ¬ r.Holds k) (hroom : r.MakesRoom t)
      (hcount : (t.insert k v).Counts s) : Step r (.put k v) none s
  | purge : Step r .purge none { r with entries := [] }

/-- Requests one after another, with their answers. -/
inductive Runs : Ranking Key Value → List (Request Key Value) → List (Option Value) →
    Ranking Key Value → Prop
  | nil (r : Ranking Key Value) : Runs r [] [] r
  | cons {r s t : Ranking Key Value} {q : Request Key Value} {qs : List (Request Key Value)}
      {a : Option Value} {as : List (Option Value)} (h : r.Step q a s) (hrest : Runs s qs as t) :
      Runs r (q :: qs) (a :: as) t

/-! ## No key is there twice -/

def KeysDiffer (r : Ranking Key Value) : Prop := (r.entries.map (·.key)).Nodup

variable {r s : Ranking Key Value}

omit [DecidableEq Key] in
theorem KeysDiffer.counts (h : r.KeysDiffer) (hcount : r.Counts s) : s.KeysDiffer := by
  cases hcount with
  | plain _ => exact h
  | lowering _ order horder =>
      have hkeys : (order.map (lowered r.maxAverage)).map (·.key) = order.map (·.key) := by
        rw [List.map_map]
        rfl
      simp only [KeysDiffer, hkeys]
      exact (horder.map _).nodup_iff.mpr h

omit [DecidableEq Key] in
theorem KeysDiffer.insert (h : r.KeysDiffer) {k : Key} (hk : ¬ r.Holds k) (v : Value) :
    (r.insert k v).KeysDiffer := by
  simp only [KeysDiffer, Ranking.insert, List.map_append, List.map_singleton]
  refine List.Nodup.append h (List.nodup_singleton k) ?_
  intro k' hold hnew
  obtain ⟨e, he, rfl⟩ := List.mem_map.mp hold
  exact hk ⟨e, he, List.mem_singleton.mp hnew⟩

theorem KeysDiffer.use (h : r.KeysDiffer) (e : Ranked Key Value) (v : Value) :
    (r.use e v).KeysDiffer := by
  simp only [KeysDiffer, Ranking.use, List.map_append, List.map_singleton]
  refine List.Nodup.append (h.sublist (List.filter_sublist.map _)) (List.nodup_singleton _) ?_
  intro k' hold hnew
  obtain ⟨e', he', rfl⟩ := List.mem_map.mp hold
  have hne := (List.mem_filter.mp he').2
  simp only [decide_eq_true_eq] at hne
  exact hne (List.mem_singleton.mp hnew)

omit [DecidableEq Key] in
/-- What makes room takes at most one entry away. -/
theorem MakesRoom.sublist (h : r.MakesRoom s) : s.entries.Sublist r.entries := by
  cases h with
  | free _ => exact List.Sublist.refl _
  | full before least after h =>
      rw [h]
      exact List.Sublist.append (List.Sublist.refl _) (List.sublist_cons_self _ _)

omit [DecidableEq Key] in
theorem MakesRoom.not_holds (h : r.MakesRoom s) {k : Key} (hk : ¬ r.Holds k) : ¬ s.Holds k := by
  rintro ⟨e, he, rfl⟩
  exact hk ⟨e, h.sublist.mem he, rfl⟩

end Ranking

end CkServer
