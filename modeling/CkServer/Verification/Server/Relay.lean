import CkServer.Model.TcpServer
import CkServer.Verification.Tcp.Output
import Mathlib.Data.List.Basic

/-! # The life of one connection

Seen from one connection, the threads of a server pass on a few tasks: `connectEstablished`
goes to the connection's loop, the removal of the entry to the server's, and `connectDestroyed`
back to the connection's. The tasks, the stages reached and the entry are one record, with an
invariant of its own. -/

namespace CkServer

namespace ServerTask

/-- A task of the event handlers, which come before the functors. -/
def isEvent : ServerTask → Bool
  | .functor _ => false
  | _ => true

def isAbout (k : ℕ) : ServerTask → Bool
  | .acceptorRead => false
  | .handle j _ => j = k
  | .closeCallback j => j = k
  | .functor f => f.conn = k

abbrev establish (k : ℕ) : ServerTask := .functor (.connection k .connectEstablished)

abbrev destroy (k : ℕ) : ServerTask := .functor (.connection k .connectDestroyed)

abbrev remove (k : ℕ) : ServerTask := .functor (.removeConnectionInLoop k)

/-- A task about the connection `k` that the loop `l` may have, when `home` is the connection's
loop. -/
def Expected (k home l : ℕ) : ServerTask → Prop
  | .acceptorRead => False
  | .handle j _ => j = k ∧ l = home
  | .closeCallback j => j = k ∧ l = home
  | .functor (.connection j f) =>
      j = k ∧ l = home ∧
        (f = .connectEstablished ∨ f = .connectDestroyed ∨ f.isUserCallback = true)
  | .functor (.removeConnectionInLoop j) => j = k ∧ l = 0 ∧ home ≠ 0

/-- A task that leaves the connection's stages as they are, apart from its event handlers. -/
def isPlain : ServerTask → Bool
  | .acceptorRead => false
  | .handle _ _ => true
  | .closeCallback _ => false
  | .functor (.connection _ f) => f.isUserCallback
  | .functor (.removeConnectionInLoop _) => false

end ServerTask

/-- What the state of a server says about one connection: the object, the tasks about it in
every loop, in the order in which they will be done, its stages so far, and its entries in
`connections_`. -/
structure Life where
  obj : ServerConnection
  work : ℕ → List ServerTask
  stages : List Stage
  entries : List (List UInt8 × ℕ)

/-- A stage may come after the stages `before`. -/
def Stage.Follows (before : List Stage) : Stage → Prop
  | .handler _ => .connectEstablished ∈ before
  | .connectDestroyed => .connectEstablished ∈ before ∧ .removeConnectionInLoop ∈ before
  | _ => True

/-- Every stage comes after those that it needs. -/
def Ordered (stages : List Stage) : Prop :=
  ∀ before st after, stages = before ++ st :: after → st.Follows before

theorem Stage.Follows.append {before : List Stage} {st : Stage} (h : st.Follows before)
    (more : List Stage) : st.Follows (before ++ more) := by
  cases st with
  | handler cb => exact List.mem_append_left more h
  | connectDestroyed =>
      exact ⟨List.mem_append_left more h.1, List.mem_append_left more h.2⟩
  | _ => trivial

theorem Ordered.append {stages new : List Stage} (h : Ordered stages)
    (hnew : ∀ st ∈ new, st.Follows stages) : Ordered (stages ++ new) := by
  intro before st after heq
  rcases List.append_eq_append_iff.mp heq with ⟨mid, rfl, hmid⟩ | ⟨mid, hstages, hmid⟩
  · have hst : st ∈ new := by
      rw [hmid]
      simp
    exact (hnew st hst).append mid
  · cases mid with
    | nil =>
        rw [List.append_nil] at hstages
        have hst : st ∈ new := by
          rw [List.nil_append] at hmid
          rw [← hmid]
          simp
        rw [← hstages]
        exact hnew st hst
    | cons st' mid =>
        obtain ⟨rfl, -⟩ := List.cons.inj hmid
        exact h before st mid hstages

/-- The invariant of the connection `k`. -/
structure Relay (k : ℕ) (v : Life) : Prop where
  place : ∀ l, ∀ t ∈ v.work l, t.Expected k v.obj.loop_ l
  start : (v.work v.obj.loop_).count (.establish k) =
    if Stage.connectEstablished ∈ v.stages then 0 else 1
  begun : ∀ l, ∀ t ∈ v.work l, t ≠ .establish k → Stage.connectEstablished ∈ v.stages
  fresh : Stage.connectEstablished ∉ v.stages →
    v.obj.conn.state_ = .kconnecting ∧ v.obj.conn.channel_.index_ = .kNew
  removing : .remove k ∈ v.work 0 → Stage.handleClose ∈ v.stages
  closed : Stage.handleClose ∈ v.stages →
    Stage.removeConnectionInLoop ∈ v.stages ∨ .remove k ∈ v.work 0
  down : Stage.handleClose ∈ v.stages ∨ .closeCallback k ∈ v.work v.obj.loop_ →
    v.obj.conn.state_ = .kDisconnected
  destroying : .destroy k ∈ v.work v.obj.loop_ → Stage.removeConnectionInLoop ∈ v.stages
  erased : Stage.removeConnectionInLoop ∈ v.stages →
    Stage.handleClose ∈ v.stages ∧
      (Stage.connectDestroyed ∈ v.stages ∨ .destroy k ∈ v.work v.obj.loop_)
  destroyed : Stage.connectDestroyed ∈ v.stages →
    Stage.removeConnectionInLoop ∈ v.stages ∧ v.obj.conn.channel_.index_ = .kNew ∧
      ∀ t ∈ v.work v.obj.loop_, t.isEvent = false
  phase : (v.work v.obj.loop_).Pairwise (fun a b => a = .destroy k → b.isEvent = false)
  entry : v.entries =
    if Stage.removeConnectionInLoop ∈ v.stages then [] else [(v.obj.name_, k)]
  gone : v.obj.alive = false → Stage.connectDestroyed ∈ v.stages ∧ ∀ l, v.work l = []
  ordered : Ordered v.stages

namespace Life

/-- The connection, the tasks of its loop and its stages change. -/
def act (v : Life) (conn : TcpConnection) (work : List ServerTask) (stages : List Stage) : Life :=
  { v with
    obj := { v.obj with conn := conn }
    work := Function.update v.work v.obj.loop_ work
    stages := v.stages ++ stages }

/-- A task is put at the end of the work of a loop. -/
def queue (v : Life) (l : ℕ) (t : ServerTask) : Life :=
  { v with work := Function.update v.work l (v.work l ++ [t]) }

/-- A task of the loop `l` is done, with the tasks `rest` left, and removes the entry. -/
def erase (v : Life) (conn : TcpConnection) (l : ℕ) (rest : List ServerTask)
    (stages : List Stage) : Life :=
  { obj := { v.obj with conn := conn }
    work := Function.update v.work l rest
    stages := v.stages ++ stages ++ [.removeConnectionInLoop]
    entries := [] }

end Life

/-! ## The tasks of the connection's loop -/

/-- The tasks `old` are done at the head of `rest`, `new` come in their place, and `users` are
queued. No functor of the connection or of the server is among them. -/
structure Replaces (k home : ℕ) (old new users : List ServerTask) : Prop where
  old : ∀ t ∈ old, t.isPlain = true
  new : ∀ t ∈ new, t.isEvent = true ∧ t.Expected k home home
  users : ∀ t ∈ users, t.isEvent = false ∧ t.isPlain = true ∧ t.Expected k home home

namespace Replaces

variable {k home : ℕ} {old new users rest : List ServerTask}

theorem notMem (h : Replaces k home old new users) {t : ServerTask} (hplain : t.isPlain = false)
    (hevent : t.isEvent = false) : t ∉ old ∧ t ∉ new ∧ t ∉ users := by
  refine ⟨?_, ?_, ?_⟩
  · intro ht
    rw [h.old t ht] at hplain
    cases hplain
  · intro ht
    rw [(h.new t ht).1] at hevent
    cases hevent
  · intro ht
    rw [(h.users t ht).2.1] at hplain
    cases hplain

/-- A functor that is not the user's stays where it is. -/
theorem mem_iff (h : Replaces k home old new users) {t : ServerTask} (hplain : t.isPlain = false)
    (hevent : t.isEvent = false) : t ∈ new ++ rest ++ users ↔ t ∈ old ++ rest := by
  obtain ⟨hold, hnew, husers⟩ := h.notMem hplain hevent
  simp [hold, hnew, husers]

theorem count_eq (h : Replaces k home old new users) {t : ServerTask} (hplain : t.isPlain = false)
    (hevent : t.isEvent = false) : (new ++ rest ++ users).count t = (old ++ rest).count t := by
  obtain ⟨hold, hnew, husers⟩ := h.notMem hplain hevent
  simp [List.count_append, List.count_eq_zero_of_not_mem, hold, hnew, husers]

theorem pairwise (h : Replaces k home old new users)
    (hp : (old ++ rest).Pairwise (fun a b => a = .destroy k → b.isEvent = false)) :
    (new ++ rest ++ users).Pairwise (fun a b => a = .destroy k → b.isEvent = false) := by
  have hrest := (List.pairwise_append.mp hp).2.1
  have hnew : ∀ a ∈ new, a ≠ .destroy k := by
    intro a ha heq
    have hevent := (h.new a ha).1
    rw [heq] at hevent
    cases hevent
  refine List.pairwise_append.mpr ⟨List.pairwise_append.mpr ⟨?_, hrest, ?_⟩, ?_, ?_⟩
  · exact List.Pairwise.imp_of_mem (R := fun _ _ => True) (fun ha _ _ heq => absurd heq (hnew _ ha))
      (List.pairwise_of_forall (fun _ _ => trivial))
  · exact fun a ha _ _ heq => absurd heq (hnew a ha)
  · exact List.Pairwise.imp_of_mem (R := fun _ _ => True) (fun _ hb _ _ => (h.users _ hb).1)
      (List.pairwise_of_forall (fun _ _ => trivial))
  · exact fun _ _ b hb _ => (h.users b hb).1

end Replaces

namespace Relay

variable {k : ℕ} {v : Life}

/-- Event handlers, user callbacks, and calls of `send` and `shutdown`. -/
theorem act (h : Relay k v) (conn : TcpConnection) {old new users rest : List ServerTask}
    {stages : List Stage} (hwork : v.work v.obj.loop_ = old ++ rest)
    (hh : Replaces k v.obj.loop_ old new users) (hstages : ∀ st ∈ stages, ∃ cb, st = .handler cb)
    (hbegun : Stage.connectEstablished ∈ v.stages ∨ new = [] ∧ users = [] ∧ stages = [] ∧
      conn.state_ = v.obj.conn.state_ ∧ conn.channel_.index_ = v.obj.conn.channel_.index_)
    (hdown : Stage.handleClose ∈ v.stages ∨ .closeCallback k ∈ v.work v.obj.loop_ ∨
      .closeCallback k ∈ new → conn.state_ = .kDisconnected)
    (hdestroyed : Stage.connectDestroyed ∈ v.stages →
      new = [] ∧ conn.channel_.index_ = .kNew)
    (halive : v.obj.alive = true) : Relay k (v.act conn (new ++ rest ++ users) stages) := by
  have hstage {st : Stage} (hst : ∀ cb, st ≠ .handler cb) :
      st ∈ (v.act conn (new ++ rest ++ users) stages).stages ↔ st ∈ v.stages := by
    have hnot : st ∉ stages := by
      intro hmem
      obtain ⟨cb, rfl⟩ := hstages st hmem
      exact hst cb rfl
    simp [Life.act, hnot]
  have hhome : (v.act conn (new ++ rest ++ users) stages).work v.obj.loop_ =
      new ++ rest ++ users := by
    simp [Life.act]
  have hother {l : ℕ} (hl : l ≠ v.obj.loop_) :
      (v.act conn (new ++ rest ++ users) stages).work l = v.work l := by
    simp [Life.act, hl]
  have hkey {t : ServerTask} (hplain : t.isPlain = false) (hevent : t.isEvent = false) (l : ℕ) :
      t ∈ (v.act conn (new ++ rest ++ users) stages).work l ↔ t ∈ v.work l := by
    by_cases hl : l = v.obj.loop_
    · rw [hl, hhome, hwork]
      exact hh.mem_iff hplain hevent
    · rw [hother hl]
  have hmem {l : ℕ} {t : ServerTask}
      (ht : t ∈ (v.act conn (new ++ rest ++ users) stages).work l) :
      t ∈ v.work l ∨ l = v.obj.loop_ ∧ (t ∈ new ∨ t ∈ users) := by
    by_cases hl : l = v.obj.loop_
    · rw [hl, hhome] at ht
      rw [hl, hwork]
      rcases List.mem_append.mp ht with ht | ht
      · rcases List.mem_append.mp ht with ht | ht
        · exact .inr ⟨rfl, .inl ht⟩
        · exact .inl (List.mem_append_right _ ht)
      · exact .inr ⟨rfl, .inr ht⟩
    · rw [hother hl] at ht
      exact .inl ht
  refine
    { place := ?_, start := ?_, begun := ?_, fresh := ?_, removing := ?_, closed := ?_, down := ?_,
      destroying := ?_, erased := ?_, destroyed := ?_, phase := ?_, entry := ?_, gone := ?_,
      ordered := ?_ }
  · intro l t ht
    rcases hmem ht with ht | ⟨rfl, ht | ht⟩
    · exact h.place l t ht
    · exact (hh.new t ht).2
    · exact (hh.users t ht).2.2
  · have hcount := h.start
    rw [hwork] at hcount
    rw [if_congr (hstage (by simp)) rfl rfl, ← hcount]
    show ((v.act conn (new ++ rest ++ users) stages).work v.obj.loop_).count _ = _
    rw [hhome]
    exact hh.count_eq rfl rfl
  · intro l t ht hne
    rw [hstage (by simp)]
    rcases hmem ht with ht | ⟨-, ht⟩
    · exact h.begun l t ht hne
    · rcases hbegun with hbegun | ⟨rfl, rfl, -, -⟩
      · exact hbegun
      · simp at ht
  · intro hno
    rw [hstage (by simp)] at hno
    rcases hbegun with hbegun | ⟨-, -, -, hstate, hindex⟩
    · exact absurd hbegun hno
    · exact ⟨hstate.trans (h.fresh hno).1, hindex.trans (h.fresh hno).2⟩
  · rw [hkey rfl rfl, hstage (by simp)]
    exact h.removing
  · rw [hkey rfl rfl, hstage (by simp), hstage (by simp)]
    exact h.closed
  · intro hd
    apply hdown
    rcases hd with hd | hd
    · rw [hstage (by simp)] at hd
      exact .inl hd
    · rcases hmem hd with hd | ⟨-, hd | hd⟩
      · exact .inr (.inl hd)
      · exact .inr (.inr hd)
      · cases (hh.users _ hd).1
  · rw [hstage (by simp)]
    intro hd
    exact h.destroying ((hkey rfl rfl _).mp hd)
  · intro he
    rw [hstage (by simp)] at he
    rw [hstage (by simp), hstage (by simp)]
    exact ⟨(h.erased he).1, (h.erased he).2.imp_right (hkey rfl rfl _).mpr⟩
  · intro hd
    rw [hstage (by simp)] at hd
    obtain ⟨rfl, hindex⟩ := hdestroyed hd
    obtain ⟨herased, -, hevents⟩ := h.destroyed hd
    rw [hstage (by simp)]
    refine ⟨herased, hindex, fun t ht => ?_⟩
    rcases hmem ht with ht | ⟨-, ht | ht⟩
    · exact hevents t ht
    · simp at ht
    · exact (hh.users t ht).1
  · show ((v.act conn (new ++ rest ++ users) stages).work v.obj.loop_).Pairwise _
    rw [hhome]
    exact hh.pairwise (by rw [← hwork]; exact h.phase)
  · rw [if_congr (hstage (by simp)) rfl rfl]
    exact h.entry
  · intro hgone
    rw [show v.obj.alive = false from hgone] at halive
    cases halive
  · refine h.ordered.append (fun st hst => ?_)
    obtain ⟨cb, rfl⟩ := hstages st hst
    rcases hbegun with hbegun | ⟨-, -, rfl, -⟩
    · exact hbegun
    · simp at hst

/-- Before `connectEstablished` nothing else has happened, and nothing else is to be done. -/
theorem stages_of_fresh (h : Relay k v) (hno : Stage.connectEstablished ∉ v.stages) :
    Stage.handleClose ∉ v.stages ∧ Stage.removeConnectionInLoop ∉ v.stages ∧
      Stage.connectDestroyed ∉ v.stages := by
  have hclose : Stage.handleClose ∉ v.stages := by
    intro hclose
    have hdown := h.down (.inl hclose)
    rw [(h.fresh hno).1] at hdown
    cases hdown
  have herased : Stage.removeConnectionInLoop ∉ v.stages := fun he => hclose (h.erased he).1
  exact ⟨hclose, herased, fun hd => herased (h.destroyed hd).1⟩

theorem born (obj : ServerConnection) (hstate : obj.conn.state_ = .kconnecting)
    (hindex : obj.conn.channel_.index_ = .kNew) (halive : obj.alive = true) :
    Relay k
      { obj := obj
        work := Function.update (fun _ => []) obj.loop_ [.establish k]
        stages := []
        entries := [(obj.name_, k)] } := by
  have hmem {l : ℕ} {t : ServerTask}
      (ht : t ∈ Function.update (fun _ => []) obj.loop_ [ServerTask.establish k] l) :
      l = obj.loop_ ∧ t = .establish k := by
    by_cases hl : l = obj.loop_
    · rw [hl, Function.update_self, List.mem_singleton] at ht
      exact ⟨hl, ht⟩
    · rw [Function.update_of_ne hl] at ht
      cases ht
  exact
    { place := fun l t ht => by
        obtain ⟨rfl, rfl⟩ := hmem ht
        exact ⟨rfl, rfl, .inl rfl⟩
      start := by simp
      begun := fun l t ht hne => absurd (hmem ht).2 hne
      fresh := fun _ => ⟨hstate, hindex⟩
      removing := fun ht => by cases (hmem ht).2
      closed := fun h => by cases h
      down := fun h => by
        rcases h with h | h
        · cases h
        · cases (hmem h).2
      destroying := fun ht => by cases (hmem ht).2
      erased := fun h => by cases h
      destroyed := fun h => by cases h
      phase := by simp
      entry := by simp
      gone := fun h => by
        rw [show obj.alive = false from h] at halive
        cases halive
      ordered := fun before st after h => by simp at h }

theorem establish (h : Relay k v) (conn : TcpConnection) {rest : List ServerTask}
    (hwork : v.work v.obj.loop_ = .establish k :: rest) (halive : v.obj.alive = true) :
    Relay k (v.act conn rest [.connectEstablished]) := by
  have hno : Stage.connectEstablished ∉ v.stages := by
    intro hest
    have hcount := h.start
    rw [hwork, if_pos hest] at hcount
    simp at hcount
  obtain ⟨hclose, herased, hdestroyed⟩ := h.stages_of_fresh hno
  have hall (l : ℕ) (t : ServerTask) (ht : t ∈ v.work l) : t = .establish k := by
    by_contra hne
    exact hno (h.begun l t ht hne)
  have hrest : rest = [] := by
    have hcount := h.start
    rw [hwork, if_neg hno, List.count_cons_self, Nat.add_eq_right, List.count_eq_zero] at hcount
    cases rest with
    | nil => rfl
    | cons t rest =>
        have ht := hall v.obj.loop_ t (by simp [hwork])
        simp [ht] at hcount
  have hnone (l : ℕ) (t : ServerTask) : t ∉ (v.act conn rest [.connectEstablished]).work l := by
    intro ht
    by_cases hl : l = v.obj.loop_
    · simp [Life.act, hl, hrest] at ht
    · have ht : t ∈ v.work l := by simpa [Life.act, hl] using ht
      have hplace := h.place l t ht
      rw [hall l t ht] at hplace
      exact hl hplace.2.1
  have hstages {st : Stage} (hst : st ≠ .connectEstablished) :
      st ∈ (v.act conn rest [.connectEstablished]).stages ↔ st ∈ v.stages := by
    simp [Life.act, hst]
  refine
    { place := fun l t ht => absurd ht (hnone l t), start := ?_,
      begun := fun l t ht => absurd ht (hnone l t), fresh := ?_,
      removing := fun ht => absurd ht (hnone _ _), closed := ?_, down := ?_,
      destroying := fun ht => absurd ht (hnone _ _), erased := ?_, destroyed := ?_, phase := ?_,
      entry := ?_, gone := ?_, ordered := ?_ }
  · simp [Life.act, hrest]
  · intro hn
    simp [Life.act] at hn
  · rw [hstages (by simp)]
    exact fun h => absurd h hclose
  · intro hd
    rcases hd with hd | hd
    · rw [hstages (by simp)] at hd
      exact absurd hd hclose
    · exact absurd hd (hnone _ _)
  · rw [hstages (by simp)]
    exact fun h => absurd h herased
  · rw [hstages (by simp)]
    exact fun h => absurd h hdestroyed
  · simp [Life.act, hrest]
  · rw [if_congr (hstages (by simp)) rfl rfl]
    exact h.entry
  · intro hgone
    rw [show v.obj.alive = false from hgone] at halive
    cases halive
  · exact h.ordered.append (by simp [Stage.Follows])

/-- After another task of the connection's loop no `connectEstablished` is left. -/
theorem count_rest (h : Relay k v) {t : ServerTask} {rest : List ServerTask}
    (hwork : v.work v.obj.loop_ = t :: rest) (hne : t ≠ .establish k) :
    rest.count (.establish k) = 0 := by
  have hbegun := h.begun v.obj.loop_ t (by simp [hwork]) hne
  have hcount := h.start
  rw [hwork, if_pos hbegun, List.count_cons_of_ne hne] at hcount
  exact hcount

/-- The end of `handleClose` in a loop of the pool. -/
theorem close (h : Relay k v) (conn : TcpConnection) {rest : List ServerTask}
    (hhome : v.obj.loop_ ≠ 0) (hwork : v.work v.obj.loop_ = .closeCallback k :: rest)
    (hstate : conn.state_ = .kDisconnected) (halive : v.obj.alive = true) :
    Relay k ((v.act conn rest [.handleClose]).queue 0 (.remove k)) := by
  have hbegun := h.begun v.obj.loop_ (.closeCallback k) (by simp [hwork]) (by simp)
  have hwork' {l : ℕ} {t : ServerTask}
      (ht : t ∈ ((v.act conn rest [.handleClose]).queue 0 (.remove k)).work l) :
      t ∈ v.work l ∨ l = 0 ∧ t = .remove k := by
    by_cases hl : l = v.obj.loop_
    · rw [hl, hwork]
      simp only [Life.act, Life.queue, hl, ne_eq, hhome, not_false_eq_true, Function.update_of_ne,
        Function.update_self] at ht
      exact .inl (List.mem_cons_of_mem _ ht)
    · by_cases hzero : l = 0
      · simpa [Life.act, Life.queue, hzero, Ne.symm hhome] using ht
      · simpa [Life.act, Life.queue, hzero, hl] using ht
  have hrest : ((v.act conn rest [.handleClose]).queue 0 (.remove k)).work v.obj.loop_ = rest := by
    simp [Life.act, Life.queue, hhome]
  have hstages {st : Stage} (hst : st ≠ .handleClose) :
      st ∈ ((v.act conn rest [.handleClose]).queue 0 (.remove k)).stages ↔ st ∈ v.stages := by
    simp [Life.act, Life.queue, hst]
  have hclose : Stage.handleClose ∈
      ((v.act conn rest [.handleClose]).queue 0 (.remove k)).stages := by
    simp [Life.act, Life.queue]
  refine
    { place := ?_, start := ?_, begun := fun _ _ _ _ => (hstages (by simp)).mpr hbegun, fresh := ?_,
      removing := fun _ => hclose, closed := ?_, down := fun _ => hstate, destroying := ?_,
      erased := ?_, destroyed := ?_, phase := ?_, entry := ?_, gone := ?_, ordered := ?_ }
  · intro l t ht
    rcases hwork' ht with ht | ⟨rfl, rfl⟩
    · exact h.place l t ht
    · exact ⟨rfl, rfl, hhome⟩
  · rw [if_pos ((hstages (by simp)).mpr hbegun)]
    change (((v.act conn rest [.handleClose]).queue 0 (.remove k)).work v.obj.loop_).count _ = 0
    rw [hrest]
    exact h.count_rest hwork (by simp)
  · exact fun hno => absurd ((hstages (by simp)).mpr hbegun) hno
  · intro _
    right
    simp [Life.queue]
  · rw [hstages (by simp)]
    intro ht
    rcases hwork' ht with ht | ⟨-, ht⟩
    · exact h.destroying ht
    · cases ht
  · intro he
    have he : Stage.removeConnectionInLoop ∈ v.stages := (hstages (by simp)).mp he
    refine ⟨hclose, (h.erased he).2.imp (hstages (by simp)).mpr (fun hd => ?_)⟩
    rw [hwork] at hd
    change _ ∈ ((v.act conn rest [.handleClose]).queue 0 (.remove k)).work v.obj.loop_
    rw [hrest]
    exact (List.mem_cons.mp hd).resolve_left (by simp)
  · rw [hstages (by simp)]
    intro hd
    cases (h.destroyed hd).2.2 (.closeCallback k) (by simp [hwork])
  · have hphase := h.phase
    rw [hwork, List.pairwise_cons] at hphase
    change (((v.act conn rest [.handleClose]).queue 0 (.remove k)).work v.obj.loop_).Pairwise _
    rw [hrest]
    exact hphase.2
  · rw [if_congr (hstages (by simp)) rfl rfl]
    exact h.entry
  · intro hgone
    rw [show v.obj.alive = false from hgone] at halive
    cases halive
  · exact h.ordered.append (by simp [Stage.Follows])

/-- The removal of the entry, by a task that is neither `connectEstablished` nor
`connectDestroyed`. -/
theorem erase (h : Relay k v) (conn : TcpConnection) {l : ℕ} {t : ServerTask}
    {rest : List ServerTask} {stages : List Stage} (hwork : v.work l = t :: rest)
    (hne : t ≠ .establish k ∧ t ≠ .destroy k)
    (hclose : Stage.handleClose ∈ v.stages ++ stages) (hstages : ∀ st ∈ stages, st = .handleClose)
    (hstate : conn.state_ = .kDisconnected)
    (hindex : conn.channel_.index_ = v.obj.conn.channel_.index_) (halive : v.obj.alive = true) :
    Relay k ((v.erase conn l rest stages).queue v.obj.loop_ (.destroy k)) := by
  have hbegun := h.begun l t (by simp [hwork]) hne.1
  have hbegun' : Stage.connectEstablished ∈
      ((v.erase conn l rest stages).queue v.obj.loop_ (.destroy k)).stages := by
    simp [Life.erase, Life.queue, hbegun]
  have herased : Stage.removeConnectionInLoop ∈
      ((v.erase conn l rest stages).queue v.obj.loop_ (.destroy k)).stages := by
    simp [Life.erase, Life.queue]
  have hclose' : Stage.handleClose ∈
      ((v.erase conn l rest stages).queue v.obj.loop_ (.destroy k)).stages := by
    simpa [Life.erase, Life.queue] using hclose
  have hsub (l' : ℕ) : (v.erase conn l rest stages).work l' <:+ v.work l' := by
    by_cases hl : l' = l
    · simp [Life.erase, hl, hwork]
    · simp [Life.erase, hl]
  have hmem {l' : ℕ} {t' : ServerTask}
      (ht : t' ∈ ((v.erase conn l rest stages).queue v.obj.loop_ (.destroy k)).work l') :
      t' ∈ v.work l' ∨ l' = v.obj.loop_ ∧ t' = .destroy k := by
    by_cases hl : l' = v.obj.loop_
    · rw [hl] at ht
      simp only [Life.queue, Function.update_self, List.mem_append, List.mem_singleton] at ht
      rcases ht with ht | ht
      · exact .inl (hl ▸ (hsub _).subset ht)
      · exact .inr ⟨hl, ht⟩
    · simp only [Life.queue, ne_eq, hl, not_false_eq_true, Function.update_of_ne] at ht
      exact .inl ((hsub _).subset ht)
  have hhome : ((v.erase conn l rest stages).queue v.obj.loop_ (.destroy k)).work v.obj.loop_ =
      (v.erase conn l rest stages).work v.obj.loop_ ++ [.destroy k] := by
    simp [Life.queue]
  refine
    { place := ?_, start := ?_, begun := fun _ _ _ _ => hbegun',
      fresh := fun hno => absurd hbegun' hno, removing := fun _ => hclose',
      closed := fun _ => .inl herased, down := fun _ => hstate,
      destroying := fun _ => herased, erased := ?_, destroyed := ?_, phase := ?_, entry := ?_,
      gone := ?_, ordered := ?_ }
  · intro l' t' ht
    rcases hmem ht with ht | ⟨rfl, rfl⟩
    · exact h.place l' t' ht
    · exact ⟨rfl, rfl, .inr (.inl rfl)⟩
  · have hcount := h.start
    rw [if_pos hbegun] at hcount
    rw [if_pos hbegun', List.count_eq_zero]
    intro ht
    rcases hmem ht with ht | ⟨-, ht⟩
    · exact List.count_eq_zero.mp hcount ht
    · cases ht
  · refine fun _ => ⟨hclose', .inr ?_⟩
    simp [Life.queue, Life.erase]
  · intro hd
    have hd : Stage.connectDestroyed ∈ v.stages := by
      simp only [Life.queue, Life.erase, List.mem_append, List.mem_singleton] at hd
      rcases hd with (hd | hd) | hd
      · exact hd
      · cases hstages _ hd
      · cases hd
    obtain ⟨-, hnew, hevents⟩ := h.destroyed hd
    refine ⟨herased, hindex.trans hnew, fun t' ht => ?_⟩
    rcases hmem ht with ht | ⟨-, rfl⟩
    · exact hevents t' ht
    · rfl
  · show (((v.erase conn l rest stages).queue v.obj.loop_ (.destroy k)).work
      v.obj.loop_).Pairwise _
    rw [hhome, List.pairwise_append]
    refine ⟨h.phase.sublist (hsub _).sublist, List.pairwise_singleton _ _, ?_⟩
    intro a _ b hb _
    rw [List.mem_singleton.mp hb]
    rfl
  · rw [if_pos herased]
    rfl
  · intro hgone
    rw [show v.obj.alive = false from hgone] at halive
    cases halive
  · have hnew : ∀ st ∈ stages ++ [Stage.removeConnectionInLoop], st.Follows v.stages := by
      intro st hst
      rcases List.mem_append.mp hst with hst | hst
      · rw [hstages st hst]
        trivial
      · rw [List.mem_singleton.mp hst]
        trivial
    have hordered := h.ordered.append hnew
    rw [← List.append_assoc] at hordered
    exact hordered

/-- `connectDestroyed`, in the loop of the connection. -/
theorem destroy (h : Relay k v) (conn : TcpConnection) {rest : List ServerTask}
    (hwork : v.work v.obj.loop_ = .destroy k :: rest)
    (hstate : v.obj.conn.state_ = .kDisconnected → conn.state_ = .kDisconnected)
    (hindex : conn.channel_.index_ = .kNew) (halive : v.obj.alive = true) :
    Relay k (v.act conn rest [.connectDestroyed]) := by
  have hbegun := h.begun v.obj.loop_ (.destroy k) (by simp [hwork]) (by simp)
  have herased := h.destroying (by simp [hwork])
  have hclose := (h.erased herased).1
  have hstages {st : Stage} (hst : st ≠ .connectDestroyed) :
      st ∈ (v.act conn rest [.connectDestroyed]).stages ↔ st ∈ v.stages := by
    simp [Life.act, hst]
  have hsub (l : ℕ) : (v.act conn rest [.connectDestroyed]).work l <:+ v.work l := by
    by_cases hl : l = v.obj.loop_
    · simp [Life.act, hl, hwork]
    · simp [Life.act, hl]
  have hrest : (v.act conn rest [.connectDestroyed]).work v.obj.loop_ = rest := by
    simp [Life.act]
  have hphase := h.phase
  rw [hwork, List.pairwise_cons] at hphase
  refine
    { place := fun l t ht => h.place l t ((hsub l).subset ht), start := ?_,
      begun := fun _ _ _ _ => (hstages (by simp)).mpr hbegun, fresh := ?_,
      removing := fun _ => (hstages (by simp)).mpr hclose, closed := ?_,
      down := fun _ => hstate (h.down (.inl hclose)),
      destroying := fun _ => (hstages (by simp)).mpr herased, erased := ?_, destroyed := ?_,
      phase := ?_, entry := ?_, gone := ?_, ordered := ?_ }
  · rw [if_pos ((hstages (by simp)).mpr hbegun)]
    change ((v.act conn rest [.connectDestroyed]).work v.obj.loop_).count _ = 0
    rw [hrest]
    exact h.count_rest hwork (by simp)
  · exact fun hno => absurd ((hstages (by simp)).mpr hbegun) hno
  · exact fun _ => .inl ((hstages (by simp)).mpr herased)
  · refine fun _ => ⟨(hstages (by simp)).mpr hclose, .inl ?_⟩
    simp [Life.act]
  · -- the functors come after the event handlers
    refine fun _ => ⟨(hstages (by simp)).mpr herased, hindex, fun t ht => ?_⟩
    change t ∈ (v.act conn rest [.connectDestroyed]).work v.obj.loop_ at ht
    rw [hrest] at ht
    exact hphase.1 t ht rfl
  · change ((v.act conn rest [.connectDestroyed]).work v.obj.loop_).Pairwise _
    rw [hrest]
    exact hphase.2
  · rw [if_congr (hstages (by simp)) rfl rfl]
    exact h.entry
  · intro hgone
    rw [show v.obj.alive = false from hgone] at halive
    cases halive
  · exact h.ordered.append (by simp [Stage.Follows, hbegun, herased])

/-- The object is destroyed when nothing refers to it. -/
theorem dead (h : Relay k v) (hentries : v.entries = [])
    (hholds : ∀ l, ∀ t ∈ v.work l, t.holds k = false) :
    Relay k { v with obj := { v.obj with alive := false } } := by
  have herased : Stage.removeConnectionInLoop ∈ v.stages := by
    by_contra hno
    have hentry := h.entry
    rw [if_neg hno, hentries] at hentry
    cases hentry
  have hnot : .destroy k ∉ v.work v.obj.loop_ := by
    intro ht
    have hh := hholds _ _ ht
    simp [ServerTask.holds, ServerFunctor.conn] at hh
  have hdestroyed := (h.erased herased).2.resolve_right hnot
  have hnone (l : ℕ) : v.work l = [] := by
    rw [List.eq_nil_iff_forall_not_mem]
    intro t ht
    have hplace := h.place l t ht
    have hh := hholds l t ht
    cases t with
    | acceptorRead => exact hplace
    | handle j cb =>
        have hevent := (h.destroyed hdestroyed).2.2 (.handle j cb) (by rw [← hplace.2]; exact ht)
        cases hevent
    | closeCallback j =>
        have hevent :=
          (h.destroyed hdestroyed).2.2 (.closeCallback j) (by rw [← hplace.2]; exact ht)
        cases hevent
    | functor f =>
        cases f with
        | connection j f => simp [ServerTask.holds, ServerFunctor.conn, hplace.1] at hh
        | removeConnectionInLoop j => simp [ServerTask.holds, ServerFunctor.conn, hplace.1] at hh
  exact
    { h with gone := fun _ => ⟨hdestroyed, hnone⟩ }

end Relay

end CkServer
