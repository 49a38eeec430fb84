import Mathlib.Data.List.Infix

/-! # Readers that can be resumed

A reader takes its input one item at a time, where `split` says what the first item is, and
stops when no item is complete, when an item finishes a record or when it rejects one. Input
arrives in pieces. A session reads what it has after every piece, at most one record for
each, and keeps the rest.

The law that makes this safe is about `split` alone: an item that has been completed stays
the first item when more input arrives. -/

universe u v w

/-- What a reader makes of one item. -/
inductive Verdict (σ : Type u) where
  | next (state : σ)
  | finish (state : σ)
  | reject (state : σ)

/-- A rejected item stays in the input, so a reader meets it again: it has to reject it then,
in whatever state the first rejection has left it. -/
structure Resumable (σ : Type u) (β : Type v) where
  split : List β → Option (List β × List β)
  step : σ → List β → Verdict σ
  length_of_split : ∀ {xs item rest}, split xs = some (item, rest) → rest.length < xs.length
  split_more : ∀ {xs item rest}, split xs = some (item, rest) →
    ∀ more, split (xs ++ more) = some (item, rest ++ more)
  reject_again : ∀ {s item s'}, step s item = .reject s' → ∃ s'', step s' item = .reject s''

namespace Resumable

inductive Stop where
  | starved
  | finished
  | rejected
  deriving DecidableEq

/-- Why a reader stopped, in which state and with which input left. -/
structure Outcome (σ : Type u) (β : Type v) where
  stop : Stop
  state : σ
  rest : List β

variable {σ : Type u} {β : Type v} {ρ : Type w} (R : Resumable σ β)

def read (s : σ) (xs : List β) : Outcome σ β :=
  match _h : R.split xs with
  | none => ⟨.starved, s, xs⟩
  | some (item, rest) =>
      match R.step s item with
      | .next s' => read s' rest
      | .finish s' => ⟨.finished, s', rest⟩
      | .reject s' => ⟨.rejected, s', xs⟩
termination_by xs.length
decreasing_by exact R.length_of_split ‹_›

/-! ## The cases of reading -/

theorem read_of_none {s : σ} {xs : List β} (h : R.split xs = none) :
    R.read s xs = ⟨.starved, s, xs⟩ := by
  rw [read]
  split
  · rfl
  · simp_all

theorem read_of_some {s : σ} {xs item rest : List β} (h : R.split xs = some (item, rest)) :
    R.read s xs =
      match R.step s item with
      | .next t => R.read t rest
      | .finish t => ⟨.finished, t, rest⟩
      | .reject t => ⟨.rejected, t, xs⟩ := by
  rw [read]
  split
  · simp_all
  · rename_i heq
    obtain ⟨rfl, rfl⟩ := Prod.mk.inj (Option.some.inj (h.symm.trans heq))
    rfl

theorem read_of_next {s t : σ} {xs item rest : List β} (h : R.split xs = some (item, rest))
    (hstep : R.step s item = .next t) : R.read s xs = R.read t rest := by
  rw [R.read_of_some h, hstep]

theorem read_of_finish {s t : σ} {xs item rest : List β} (h : R.split xs = some (item, rest))
    (hstep : R.step s item = .finish t) : R.read s xs = ⟨.finished, t, rest⟩ := by
  rw [R.read_of_some h, hstep]

theorem read_of_reject {s t : σ} {xs item rest : List β} (h : R.split xs = some (item, rest))
    (hstep : R.step s item = .reject t) : R.read s xs = ⟨.rejected, t, xs⟩ := by
  rw [R.read_of_some h, hstep]

/-- Induction along a reading: what holds wherever a reader stops, and before an item that it
passes if after it, holds everywhere. -/
theorem read_induction {P : σ → List β → Prop}
    (starve : ∀ s xs, R.split xs = none → P s xs)
    (next : ∀ s xs item rest s', R.split xs = some (item, rest) → R.step s item = .next s' →
      P s' rest → P s xs)
    (finish : ∀ s xs item rest s', R.split xs = some (item, rest) → R.step s item = .finish s' →
      P s xs)
    (reject : ∀ s xs item rest s', R.split xs = some (item, rest) → R.step s item = .reject s' →
      P s xs) :
    ∀ s xs, P s xs := by
  intro s xs
  induction h : xs.length using Nat.strongRecOn generalizing s xs with
  | _ n ih =>
      cases hs : R.split xs with
      | none => exact starve s xs hs
      | some pair =>
          obtain ⟨item, rest⟩ := pair
          cases hv : R.step s item with
          | next s' =>
              exact next s xs item rest s' hs hv
                (ih rest.length (h ▸ R.length_of_split hs) s' rest rfl)
          | finish s' => exact finish s xs item rest s' hs hv
          | reject s' => exact reject s xs item rest s' hs hv

/-! ## More input -/

/-- A reader that starved goes on with what it had left. -/
theorem read_more_of_starved (s : σ) (xs more : List β) (h : (R.read s xs).stop = .starved) :
    R.read s (xs ++ more) = R.read (R.read s xs).state ((R.read s xs).rest ++ more) := by
  induction s, xs using R.read_induction with
  | starve s xs hs => rw [R.read_of_none hs]
  | next s xs item rest s' hs hv ih =>
      rw [R.read_of_next hs hv] at h ⊢
      rw [R.read_of_next (R.split_more hs more) hv, ih h]
  | finish s xs item rest s' hs hv => simp [R.read_of_finish hs hv] at h
  | reject s xs item rest s' hs hv => simp [R.read_of_reject hs hv] at h

/-- A record or a rejection does not depend on what arrives after it. -/
theorem read_more_of_stopped (s : σ) (xs more : List β) (h : (R.read s xs).stop ≠ .starved) :
    R.read s (xs ++ more) =
      ⟨(R.read s xs).stop, (R.read s xs).state, (R.read s xs).rest ++ more⟩ := by
  induction s, xs using R.read_induction with
  | starve s xs hs => simp [R.read_of_none hs] at h
  | next s xs item rest s' hs hv ih =>
      rw [R.read_of_next hs hv] at h ⊢
      rw [R.read_of_next (R.split_more hs more) hv, ih h]
  | finish s xs item rest s' hs hv =>
      rw [R.read_of_finish hs hv, R.read_of_finish (R.split_more hs more) hv]
  | reject s xs item rest s' hs hv =>
      rw [R.read_of_reject hs hv, R.read_of_reject (R.split_more hs more) hv]

theorem length_rest_of_finished {s : σ} {xs : List β} (h : (R.read s xs).stop = .finished) :
    (R.read s xs).rest.length < xs.length := by
  induction s, xs using R.read_induction with
  | starve s xs hs => simp [R.read_of_none hs] at h
  | next s xs item rest s' hs hv ih =>
      rw [R.read_of_next hs hv] at h ⊢
      exact (ih h).trans (R.length_of_split hs)
  | finish s xs item rest s' hs hv =>
      rw [R.read_of_finish hs hv]
      exact R.length_of_split hs
  | reject s xs item rest s' hs hv => simp [R.read_of_reject hs hv] at h

theorem length_rest_le (s : σ) (xs : List β) : (R.read s xs).rest.length ≤ xs.length := by
  induction s, xs using R.read_induction with
  | starve s xs hs => rw [R.read_of_none hs]
  | next s xs item rest s' hs hv ih =>
      rw [R.read_of_next hs hv]
      exact ih.trans (R.length_of_split hs).le
  | finish s xs item rest s' hs hv =>
      rw [R.read_of_finish hs hv]
      exact (R.length_of_split hs).le
  | reject s xs item rest s' hs hv => rw [R.read_of_reject hs hv]

/-- A reader that is not rejected passes its first item. -/
theorem length_rest_le_of_split {s : σ} {xs item rest : List β} (h : R.split xs = some (item, rest))
    (hstop : (R.read s xs).stop ≠ .rejected) : (R.read s xs).rest.length ≤ rest.length := by
  cases hv : R.step s item with
  | next s' =>
      rw [R.read_of_next h hv]
      exact R.length_rest_le s' rest
  | finish s' => rw [R.read_of_finish h hv]
  | reject s' => simp [R.read_of_reject h hv] at hstop

/-- Reading a rejected item once more rejects it once more. -/
theorem read_again_of_rejected (s : σ) (xs more : List β) (h : (R.read s xs).stop = .rejected) :
    (R.read (R.read s xs).state ((R.read s xs).rest ++ more)).stop = .rejected := by
  induction s, xs using R.read_induction with
  | starve s xs hs => simp [R.read_of_none hs] at h
  | next s xs item rest s' hs hv ih =>
      rw [R.read_of_next hs hv] at h ⊢
      exact ih h
  | finish s xs item rest s' hs hv => simp [R.read_of_finish hs hv] at h
  | reject s xs item rest s' hs hv =>
      obtain ⟨s'', hagain⟩ := R.reject_again hv
      rw [R.read_of_reject hs hv, R.read_of_reject (R.split_more hs more) hagain]

/-! ## Whole streams -/

/-- The records of a stream: each is read from the initial state where the one before it
ended, up to the first that is incomplete or rejected. -/
def records (init : σ) (out : σ → ρ) (s : σ) (xs : List β) : List ρ :=
  if _h : (R.read s xs).stop = .finished then
    out (R.read s xs).state :: records init out init (R.read s xs).rest
  else
    []
termination_by xs.length
decreasing_by exact R.length_rest_of_finished ‹_›

theorem records_of_finished {init s : σ} {out : σ → ρ} {xs : List β}
    (h : (R.read s xs).stop = .finished) :
    R.records init out s xs =
      out (R.read s xs).state :: R.records init out init (R.read s xs).rest := by
  rw [records, dif_pos h]

theorem records_of_not_finished {init s : σ} {out : σ → ρ} {xs : List β}
    (h : (R.read s xs).stop ≠ .finished) : R.records init out s xs = [] := by
  rw [records, dif_neg h]

theorem records_congr {init s s' : σ} {out : σ → ρ} {xs ys : List β}
    (h : R.read s xs = R.read s' ys) : R.records init out s xs = R.records init out s' ys := by
  by_cases hf : (R.read s' ys).stop = .finished
  · rw [R.records_of_finished hf, R.records_of_finished (by rw [h, hf]), h]
  · rw [R.records_of_not_finished hf, R.records_of_not_finished (by rwa [h])]

/-! ## Sessions -/

/-- A session between two pieces of input. -/
structure Session (σ : Type u) (β : Type v) (ρ : Type w) where
  state : σ
  pending : List β
  emitted : List ρ

variable (init : σ) (out : σ → ρ)

/-- One piece arrives: at most one record is read. -/
def deliver (c : Session σ β ρ) (piece : List β) : Session σ β ρ :=
  let o := R.read c.state (c.pending ++ piece)
  if o.stop = .finished then
    ⟨init, o.rest, c.emitted ++ [out o.state]⟩
  else
    ⟨o.state, o.rest, c.emitted⟩

def start : Session σ β ρ := ⟨init, [], []⟩

def session (pieces : List (List β)) : Session σ β ρ :=
  pieces.foldl (R.deliver init out) (start init)

theorem session_snoc (pieces : List (List β)) (piece : List β) :
    R.session init out (pieces ++ [piece]) =
      R.deliver init out (R.session init out pieces) piece := by
  simp [session]

theorem pending_deliver (c : Session σ β ρ) (piece : List β) :
    (R.deliver init out c piece).pending = (R.read c.state (c.pending ++ piece)).rest := by
  simp only [deliver]
  split <;> rfl

theorem length_pending_session (pieces : List (List β)) :
    (R.session init out pieces).pending.length ≤ pieces.flatten.length := by
  induction pieces using List.reverseRecOn with
  | nil => exact le_rfl
  | append_singleton pieces piece ih =>
      have hrest := R.length_rest_le (R.session init out pieces).state
        ((R.session init out pieces).pending ++ piece)
      rw [List.length_append] at hrest
      rw [session_snoc, pending_deliver, List.flatten_append, List.length_append,
        List.flatten_singleton]
      omega

/-- A session that has not read a whole record is where its reader is. -/
theorem session_of_starved {pieces : List (List β)}
    (h : (R.read init pieces.flatten).stop = .starved) :
    R.session init out pieces =
      ⟨(R.read init pieces.flatten).state, (R.read init pieces.flatten).rest, []⟩ := by
  induction pieces using List.reverseRecOn with
  | nil =>
      cases hs : R.split [] with
      | none =>
          rw [List.flatten_nil, R.read_of_none hs]
          rfl
      | some pair =>
          obtain ⟨item, rest⟩ := pair
          exact absurd (R.length_of_split hs) (Nat.not_lt_zero _)
  | append_singleton pieces piece ih =>
      rw [List.flatten_append, List.flatten_singleton] at h ⊢
      have hbefore : (R.read init pieces.flatten).stop = .starved := by
        by_contra hstop
        rw [R.read_more_of_stopped init _ piece hstop] at h
        exact hstop h
      rw [R.read_more_of_starved init _ piece hbefore] at h ⊢
      rw [session_snoc, ih hbefore]
      simp [deliver, h]

/-- Whatever arrives later, what a delivery has emitted and will emit is what the session
would have emitted without it from the same input. -/
theorem records_deliver (c : Session σ β ρ) (piece more : List β) :
    (R.deliver init out c piece).emitted ++
        R.records init out (R.deliver init out c piece).state
          ((R.deliver init out c piece).pending ++ more) =
      c.emitted ++ R.records init out c.state (c.pending ++ piece ++ more) := by
  cases h : (R.read c.state (c.pending ++ piece)).stop with
  | finished =>
      have hmore := R.read_more_of_stopped c.state (c.pending ++ piece) more (by simp [h])
      have hstop : (R.read c.state (c.pending ++ piece ++ more)).stop = .finished := by
        rw [hmore, h]
      rw [R.records_of_finished hstop, hmore]
      simp [deliver, h]
  | starved =>
      have hmore := R.read_more_of_starved c.state (c.pending ++ piece) more h
      rw [R.records_congr hmore]
      simp [deliver, h]
  | rejected =>
      have hmore := R.read_more_of_stopped c.state (c.pending ++ piece) more (by simp [h])
      have hagain := R.read_again_of_rejected c.state (c.pending ++ piece) more h
      have hstop : (R.read c.state (c.pending ++ piece ++ more)).stop ≠ .finished := by
        rw [hmore, h]
        decide
      rw [R.records_of_not_finished hstop]
      rw [R.records_of_not_finished (by simp [deliver, h, hagain])]
      simp [deliver, h]

/-- The records of everything that arrived are those emitted and those that can still be
read from what is kept. -/
theorem records_session (pieces : List (List β)) (more : List β) :
    R.records init out init (pieces.flatten ++ more) =
      (R.session init out pieces).emitted ++
        R.records init out (R.session init out pieces).state
          ((R.session init out pieces).pending ++ more) := by
  induction pieces using List.reverseRecOn generalizing more with
  | nil => simp [session, start]
  | append_singleton pieces piece ih =>
      rw [session_snoc, R.records_deliver, List.flatten_append, List.append_assoc, ih]
      simp [List.append_assoc]

/-- What has been emitted is always an initial part of the records of the whole stream. -/
theorem emitted_prefix (pieces : List (List β)) :
    (R.session init out pieces).emitted <+: R.records init out init pieces.flatten := by
  have h := R.records_session init out pieces []
  rw [List.append_nil] at h
  exact ⟨_, h.symm⟩

/-- A session whose input begins with a rejected item emits nothing any more. -/
theorem deliver_of_rejected {c : Session σ β ρ} (h : (R.read c.state c.pending).stop = .rejected)
    (piece : List β) :
    (R.deliver init out c piece).emitted = c.emitted ∧
      (R.read (R.deliver init out c piece).state (R.deliver init out c piece).pending).stop =
        .rejected := by
  have hmore := R.read_more_of_stopped c.state c.pending piece (by simp [h])
  have hstop : (R.read c.state (c.pending ++ piece)).stop = .rejected := by rw [hmore, h]
  have hagain := R.read_again_of_rejected c.state (c.pending ++ piece) [] hstop
  rw [List.append_nil] at hagain
  simp [deliver, hstop, hagain]

theorem emitted_session_of_rejected {pieces : List (List β)}
    (h : (R.read (R.session init out pieces).state (R.session init out pieces).pending).stop =
      .rejected) (more : List (List β)) :
    (R.session init out (pieces ++ more)).emitted = (R.session init out pieces).emitted ∧
      (R.read (R.session init out (pieces ++ more)).state
        (R.session init out (pieces ++ more)).pending).stop = .rejected := by
  induction more using List.reverseRecOn with
  | nil => simp [h]
  | append_singleton more piece ih =>
      rw [← List.append_assoc, session_snoc]
      obtain ⟨hemitted, hstop⟩ := R.deliver_of_rejected init out ih.2 piece
      exact ⟨hemitted.trans ih.1, hstop⟩

/-! ## Keeping up -/

theorem length_emitted_deliver (c : Session σ β ρ) (piece : List β) :
    (R.deliver init out c piece).emitted.length ≤ c.emitted.length + 1 := by
  simp only [deliver]
  split <;> simp

/-- A session emits at most one record for each piece. -/
theorem length_emitted_session (pieces : List (List β)) :
    (R.session init out pieces).emitted.length ≤ pieces.length := by
  induction pieces using List.reverseRecOn with
  | nil => simp [session, start]
  | append_singleton pieces piece ih =>
      rw [session_snoc, List.length_append, List.length_singleton]
      exact (R.length_emitted_deliver init out _ piece).trans (Nat.succ_le_succ ih)

/-- A session that is up to date stays so exactly when a piece completes at most one more
record. -/
theorem emitted_deliver_iff {pieces : List (List β)} (piece : List β)
    (h : (R.session init out pieces).emitted = R.records init out init pieces.flatten) :
    (R.session init out (pieces ++ [piece])).emitted =
        R.records init out init (pieces ++ [piece]).flatten ↔
      (R.records init out init (pieces ++ [piece]).flatten).length ≤
        (R.records init out init pieces.flatten).length + 1 := by
  constructor
  · intro hnew
    rw [← hnew, ← h, session_snoc]
    exact R.length_emitted_deliver init out _ piece
  · intro hle
    have hall := R.records_session init out pieces piece
    rw [List.flatten_append, List.flatten_singleton] at hle ⊢
    rw [hall, List.length_append, h] at hle
    rw [hall, session_snoc, deliver]
    by_cases hf : (R.read (R.session init out pieces).state
        ((R.session init out pieces).pending ++ piece)).stop = .finished
    · rw [R.records_of_finished hf] at hle ⊢
      simp only [List.length_cons] at hle
      have hnil : R.records init out init (R.read (R.session init out pieces).state
          ((R.session init out pieces).pending ++ piece)).rest = [] :=
        List.length_eq_zero_iff.mp (by omega)
      simp [hf, hnil]
    · rw [R.records_of_not_finished hf]
      simp [hf]

/-- A session emits every record as soon as it is complete exactly when no piece completes
two. -/
theorem emitted_eq_records_iff (pieces : List (List β)) :
    (∀ before, before <+: pieces →
        (R.session init out before).emitted = R.records init out init before.flatten) ↔
      ∀ before piece, before ++ [piece] <+: pieces →
        (R.records init out init (before ++ [piece]).flatten).length ≤
          (R.records init out init before.flatten).length + 1 := by
  constructor
  · intro h before piece hpre
    have hbefore := h before ((List.prefix_append before [piece]).trans hpre)
    exact (R.emitted_deliver_iff init out piece hbefore).mp (h _ hpre)
  · intro h before
    induction before using List.reverseRecOn with
    | nil =>
        intro _
        have hempty := R.records_session init out [] []
        simp only [session, List.foldl_nil, start, List.flatten_nil, List.append_nil] at hempty ⊢
        by_cases hf : (R.read init []).stop = .finished
        · exact absurd (R.length_rest_of_finished hf) (by simp)
        · rw [R.records_of_not_finished hf]
    | append_singleton before piece ih =>
        intro hpre
        have hbefore := ih ((List.prefix_append before [piece]).trans hpre)
        exact (R.emitted_deliver_iff init out piece hbefore).mpr (h before piece hpre)

end Resumable
