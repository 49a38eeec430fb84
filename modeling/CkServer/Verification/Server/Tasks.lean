import CkServer.Verification.Server.Lives

/-! # The tasks of a loop

What each task does in the life of its connection. The names of other connections must differ
where an entry is erased. -/

namespace CkServer

namespace ServerTask

theorem Expected.isAbout {t : ServerTask} {k home l : ℕ} (h : t.Expected k home l) :
    t.isAbout k = true := by
  cases t with
  | acceptorRead => cases h
  | handle j cb => exact decide_eq_true h.1
  | closeCallback j => exact decide_eq_true h.1
  | functor f =>
      cases f with
      | connection j f => exact decide_eq_true h.1
      | removeConnectionInLoop j => exact decide_eq_true h.1

end ServerTask

theorem Relay.alive_of_mem {k l : ℕ} {v : Life} (h : Relay k v) {t : ServerTask}
    (ht : t ∈ v.work l) : v.obj.alive = true := by
  by_contra hdead
  have hnil := (h.gone (by simpa using hdead)).2 l
  rw [hnil] at ht
  cases ht

namespace TcpServer

/-- A step in the life of the connection `k`. -/
structure StepOf (s t : TcpServer) (k : ℕ) : Prop where
  others : ∀ j, j ≠ k → t.life j = s.life j
  relay : Relay k (t.life k)
  name_ : (t.conns k).name_ = (s.conns k).name_
  loop_ : (t.conns k).loop_ = (s.conns k).loop_
  accepted : t.accepted = s.accepted
  nextConnId_ : t.nextConnId_ = s.nextConnId_
  next_ : t.next_ = s.next_

variable {s : TcpServer} {k : ℕ}

theorem mem_work_of_todo {l : ℕ} {t : ServerTask} {rest : List ServerTask}
    (htodo : s.todo l = t :: rest) (ht : t.isAbout k = true) : t ∈ (s.life k).work l := by
  simp [life, work, htodo, ht]

/-- The first task of a loop is one that the loop may have. -/
theorem expected_of_todo (h : Relay k (s.life k)) {l : ℕ} {t : ServerTask} {rest : List ServerTask}
    (htodo : s.todo l = t :: rest) (ht : t.isAbout k = true) :
    t.Expected k (s.conns k).loop_ l ∧ (s.conns k).alive = true :=
  ⟨h.place l t (mem_work_of_todo htodo ht), h.alive_of_mem (mem_work_of_todo htodo ht)⟩

theorem left_eq (l : ℕ) {t : ServerTask} {rest : List ServerTask} (htodo : s.todo l = t :: rest)
    (ht : t.isAbout k = true) : (s.life k).work l = t :: s.left k l rest := by
  have hold : [t].filter (·.isAbout k) = [t] := by simp [ht]
  have htodo' : s.todo l = [t] ++ rest := htodo
  rw [work_life_of_todo htodo', hold, List.singleton_append]

theorem filter_expected {home l : ℕ} {new : List ServerTask}
    (hnew : ∀ t ∈ new, t.Expected k home l) : new.filter (·.isAbout k) = new :=
  List.filter_eq_self.mpr (fun t ht => (hnew t ht).isAbout)

theorem life_others {l j : ℕ} {t : ServerTask} {new rest : List ServerTask}
    (htodo : s.todo l = t :: rest) (ht : t.isAbout j = false)
    (hnew : ∀ t ∈ new, t.isAbout j = false) : (s.setTodo l (new ++ rest)).life j = s.life j := by
  have htodo' : s.todo l = [t] ++ rest := htodo
  exact life_setTodo_of_notAbout htodo' (by simpa using ht) hnew

theorem life_others_rest {l j : ℕ} {t : ServerTask} {rest : List ServerTask}
    (htodo : s.todo l = t :: rest) (ht : t.isAbout j = false) :
    (s.setTodo l rest).life j = s.life j := by
  have hlife := life_others htodo ht (List.forall_mem_nil _)
  rwa [List.nil_append] at hlife

/-! ## Event handlers and user callbacks -/

theorem isAbout_of_ne {t : ServerTask} {home l j : ℕ} (h : t.Expected k home l) (hj : j ≠ k) :
    t.isAbout j = false := by
  cases t with
  | acceptorRead => rfl
  | handle i cb => simp [ServerTask.isAbout, h.1, hj.symm]
  | closeCallback i => simp [ServerTask.isAbout, h.1, hj.symm]
  | functor f =>
      cases f with
      | connection i f => simp [ServerTask.isAbout, ServerFunctor.conn, h.1, hj.symm]
      | removeConnectionInLoop i => simp [ServerTask.isAbout, ServerFunctor.conn, h.1, hj.symm]

/-- An event handler runs an operation of the connection, and may call `handleClose`. -/
theorem stepOf_handler (h : Relay k (s.life k)) {l : ℕ} {cb : EventCallback}
    {rest : List ServerTask} (htodo : s.todo l = .handle k cb :: rest) (new : List ServerTask)
    (op : TcpConnection → TcpConnection) (hop : (s.seen k).Confined (op (s.seen k)))
    (hnew : ∀ t ∈ new, t.isEvent = true ∧ t.Expected k l l)
    (hstate : (op (s.seen k)).state_ = .kDisconnected ∨
      (op (s.seen k)).state_ = (s.conns k).conn.state_ ∧ .closeCallback k ∉ new) :
    StepOf s (((s.setTodo l (new ++ rest)).onConnection k op).mark k (.handler cb)) k := by
  have habout : (ServerTask.handle k cb).isAbout k = true := by simp [ServerTask.isAbout]
  obtain ⟨⟨-, hl⟩, halive⟩ := expected_of_todo h htodo habout
  rw [hl] at htodo hnew ⊢
  have hwork : (s.life k).work (s.life k).obj.loop_ =
      [.handle k cb] ++ s.left k (s.conns k).loop_ rest := left_eq _ htodo habout
  have hmem : ServerTask.handle k cb ∈ (s.life k).work (s.life k).obj.loop_ := by
    simp [hwork]
  refine
    { others := fun j hj => ?_, relay := ?_, name_ := by simp [mark, onConnection, setTodo],
      loop_ := by simp [mark, onConnection, setTodo], accepted := rfl, nextConnId_ := rfl,
      next_ := rfl }
  · rw [life_mark_of_ne hj.symm, life_onConnection_of_ne hj.symm]
    exact life_others htodo (by simp [ServerTask.isAbout, hj.symm])
      (fun t ht => isAbout_of_ne (hnew t ht).2 hj)
  · rw [life_mark_self, life_setTodo_onConnection, act_mark,
      filter_expected (fun t ht => (hnew t ht).2)]
    have hreplaces : Replaces k (s.conns k).loop_ [.handle k cb] new (users k (op (s.seen k))) :=
      ⟨by simp [ServerTask.isPlain], hnew, fun t ht => mem_users hop ht⟩
    refine h.act (op (s.seen k)) hwork hreplaces (by simp) (.inl ?_) ?_ ?_ halive
    · exact h.begun _ _ hmem (by simp)
    · intro hd
      rcases hstate with hstate | ⟨hstate, hnot⟩
      · exact hstate
      · rw [hstate]
        rcases hd with hd | hd | hd
        · exact h.down (.inl hd)
        · exact h.down (.inr hd)
        · exact absurd hd hnot
    · intro hd
      cases (h.destroyed hd).2.2 _ hmem

theorem act_self (v : Life) (work : List ServerTask) :
    v.act v.obj.conn work [] = { v with work := Function.update v.work v.obj.loop_ work } := by
  simp [Life.act]

/-- A task that does nothing to the connection. -/
theorem relay_plain (h : Relay k (s.life k)) {l : ℕ} {t : ServerTask} {rest : List ServerTask}
    (htodo : s.todo l = t :: rest) (ht : t.isAbout k = true) (hplain : t.isPlain = true)
    {stages : List Stage} (hstages : ∀ st ∈ stages, ∃ cb, st = .handler cb)
    (hl : l = (s.conns k).loop_) :
    Relay k ((s.life k).act (s.conns k).conn (s.left k l rest) stages) := by
  obtain ⟨-, halive⟩ := expected_of_todo h htodo ht
  rw [hl] at htodo ⊢
  have hwork : (s.life k).work (s.life k).obj.loop_ = [t] ++ s.left k (s.conns k).loop_ rest :=
    left_eq _ htodo ht
  have hmem : t ∈ (s.life k).work (s.life k).obj.loop_ := by simp [hwork]
  have hne : t ≠ .establish k := by
    intro heq
    rw [heq] at hplain
    cases hplain
  have hreplaces : Replaces k (s.conns k).loop_ [t] [] [] :=
    ⟨by simpa using hplain, by simp, by simp⟩
  have hact := h.act (s.conns k).conn hwork hreplaces hstages (.inl (h.begun _ _ hmem hne)) ?_
    (fun hd => ⟨rfl, (h.destroyed hd).2.1⟩) halive
  · rwa [List.nil_append, List.append_nil] at hact
  · intro hd
    rcases hd with hd | hd | hd
    · exact h.down (.inl hd)
    · exact h.down (.inr hd)
    · cases hd

theorem life_setTodo_rest {l : ℕ} (rest : List ServerTask) (hl : l = (s.conns k).loop_) :
    (s.setTodo l rest).life k = (s.life k).act (s.conns k).conn (s.left k l rest) [] := by
  have hrest := life_setTodo_self (s := s) (k := k) l [] rest
  rw [List.nil_append, List.filter_nil, List.nil_append] at hrest
  rw [hrest, hl]
  exact (act_self (s.life k) _).symm

theorem stepOf_error (h : Relay k (s.life k)) {l : ℕ} {rest : List ServerTask}
    (htodo : s.todo l = .handle k .errorCallback_ :: rest) :
    StepOf s ((s.setTodo l rest).mark k (.handler .errorCallback_)) k := by
  have habout : (ServerTask.handle k .errorCallback_).isAbout k = true := by
    simp [ServerTask.isAbout]
  obtain ⟨hexp, -⟩ := expected_of_todo h htodo habout
  have hl := hexp.2
  refine
    { others := fun j hj => ?_, relay := ?_, name_ := rfl, loop_ := rfl, accepted := rfl,
      nextConnId_ := rfl, next_ := rfl }
  · rw [life_mark_of_ne hj.symm]
    exact life_others_rest htodo (isAbout_of_ne hexp hj)
  · rw [life_mark_self, life_setTodo_rest rest hl, act_mark]
    exact relay_plain h htodo habout rfl (by simp) hl

theorem stepOf_user (h : Relay k (s.life k)) {l : ℕ} {f : Functor} {rest : List ServerTask}
    (htodo : s.todo l = .functor (.connection k f) :: rest) (hf : f.isUserCallback = true) :
    StepOf s (s.setTodo l rest) k := by
  have habout : (ServerTask.functor (.connection k f)).isAbout k = true := by
    simp [ServerTask.isAbout, ServerFunctor.conn]
  obtain ⟨hexp, -⟩ := expected_of_todo h htodo habout
  have hl := hexp.2.1
  refine
    { others := fun j hj => ?_, relay := ?_, name_ := rfl, loop_ := rfl, accepted := rfl,
      nextConnId_ := rfl, next_ := rfl }
  · exact life_others_rest htodo (isAbout_of_ne hexp hj)
  · rw [life_setTodo_rest rest hl]
    exact relay_plain h htodo habout hf (by simp) hl

/-! ## The functors of the connection -/

/-- A functor of the connection that queues no user callback, in the connection's loop. -/
theorem stepOf_onConnection {t : ServerTask} {rest : List ServerTask}
    (htodo : s.todo (s.conns k).loop_ = t :: rest)
    (hexp : t.Expected k (s.conns k).loop_ (s.conns k).loop_) {op : TcpConnection → TcpConnection}
    {st : Stage} (husers : users k (op (s.seen k)) = [])
    (hrelay : Relay k ((s.life k).act (op (s.seen k)) (s.left k (s.conns k).loop_ rest) [st])) :
    StepOf s (((s.setTodo (s.conns k).loop_ rest).onConnection k op).mark k st) k := by
  refine
    { others := fun j hj => ?_, relay := ?_, name_ := by simp [mark, onConnection, setTodo],
      loop_ := by simp [mark, onConnection, setTodo], accepted := rfl, nextConnId_ := rfl,
      next_ := rfl }
  · rw [life_mark_of_ne hj.symm, life_onConnection_of_ne hj.symm]
    exact life_others_rest htodo (isAbout_of_ne hexp hj)
  · have hlife := life_setTodo_onConnection (s := s) (k := k) [] rest op
    rw [husers, List.filter_nil, List.nil_append, List.append_nil, List.nil_append] at hlife
    rwa [life_mark_self, hlife, act_mark]

theorem stepOf_connectEstablished (h : Relay k (s.life k)) {l : ℕ} {rest : List ServerTask}
    (htodo : s.todo l = .establish k :: rest) :
    StepOf s (((s.setTodo l rest).onConnection k .connectEstablished).mark k .connectEstablished)
      k := by
  have habout : (ServerTask.establish k).isAbout k = true := by
    simp [ServerTask.isAbout, ServerFunctor.conn]
  obtain ⟨hexp, halive⟩ := expected_of_todo h htodo habout
  obtain rfl := hexp.2.1
  have husers : users k (s.seen k).connectEstablished = [] := by simp [users, seen]
  exact stepOf_onConnection htodo hexp husers
    (h.establish _ (left_eq _ htodo habout) halive)

theorem connectDestroyed_of_disconnected {c : TcpConnection} (h : c.state_ = .kDisconnected) :
    c.connectDestroyed = c.remove := by
  simp [TcpConnection.connectDestroyed, h]

theorem stepOf_connectDestroyed (h : Relay k (s.life k)) {l : ℕ} {rest : List ServerTask}
    (htodo : s.todo l = .destroy k :: rest) :
    StepOf s (((s.setTodo l rest).onConnection k .connectDestroyed).mark k .connectDestroyed)
      k := by
  have habout : (ServerTask.destroy k).isAbout k = true := by
    simp [ServerTask.isAbout, ServerFunctor.conn]
  obtain ⟨hexp, halive⟩ := expected_of_todo h htodo habout
  obtain rfl := hexp.2.1
  have hwork := left_eq _ htodo habout
  have hmem : .destroy k ∈ (s.life k).work (s.life k).obj.loop_ := mem_work_of_todo htodo habout
  have hdown : (s.seen k).state_ = .kDisconnected := h.down (.inl (h.erased (h.destroying hmem)).1)
  have hremove := connectDestroyed_of_disconnected hdown
  have husers : users k (s.seen k).connectDestroyed = [] := by
    rw [hremove]
    rfl
  apply stepOf_onConnection htodo hexp husers
  rw [hremove]
  exact h.destroy _ hwork (fun hstate => hstate) rfl halive

/-! ## The removal of the entry -/

theorem life_erase (s : TcpServer) (j : ℕ) (name : List UInt8) :
    (s.erase name).life j =
      { s.life j with entries := (s.life j).entries.filter (fun e => e.1 ≠ name) } := by
  simp [life, erase, work, List.filter_filter, Bool.and_comm]

theorem mem_entries (h : Relay k (s.life k)) {e : List UInt8 × ℕ} (he : e ∈ (s.life k).entries) :
    e = ((s.conns k).name_, k) := by
  rw [h.entry] at he
  by_cases hst : Stage.removeConnectionInLoop ∈ (s.life k).stages
  · rw [if_pos hst] at he
    cases he
  · rw [if_neg hst] at he
    exact List.mem_singleton.mp he

theorem life_erase_of_ne {j : ℕ} {name : List UInt8}
    (h : ∀ e ∈ (s.life j).entries, e.1 ≠ name) : (s.erase name).life j = s.life j := by
  have hentries : (s.life j).entries.filter (fun e => e.1 ≠ name) = (s.life j).entries := by
    rw [List.filter_eq_self]
    exact fun e he => decide_eq_true (h e he)
  rw [life_erase, hentries]

/-- The removal of the entry, for the connection itself. -/
theorem life_removeConnectionInLoop {t : TcpServer}
    (hentries : ∀ e ∈ (t.life k).entries, e.1 = (t.conns k).name_) :
    (t.removeConnectionInLoop k).life k =
      Life.queue { t.life k with
        stages := (t.life k).stages ++ [.removeConnectionInLoop]
        entries := [] } (t.conns k).loop_ (.destroy k) := by
  have hnil : (t.life k).entries.filter (fun e => e.1 ≠ (t.conns k).name_) = [] := by
    rw [List.filter_eq_nil_iff]
    intro e he
    simp [hentries e he]
  have hconn : (ServerFunctor.connection k .connectDestroyed).conn = k := rfl
  rw [removeConnectionInLoop, life_queueInLoop_self _ hconn, life_mark_self, life_erase, hnil]

/-- The removal of the entry, for another connection. -/
theorem life_removeConnectionInLoop_of_ne {t : TcpServer} {j : ℕ} (hj : j ≠ k)
    (h : ∀ e ∈ (t.life j).entries, e.1 ≠ (t.conns k).name_) :
    (t.removeConnectionInLoop k).life j = t.life j := by
  have hconn : (ServerFunctor.connection k .connectDestroyed).conn ≠ j := hj.symm
  rw [removeConnectionInLoop, life_queueInLoop_of_ne _ hconn, life_mark_of_ne hj.symm,
    life_erase_of_ne h]

/-- The entries of other connections have other names. -/
def NamesApart (s : TcpServer) (k : ℕ) : Prop :=
  ∀ j, j ≠ k → ∀ e ∈ (s.life j).entries, e.1 ≠ (s.conns k).name_

theorem stepOf_removeConnectionInLoop (h : Relay k (s.life k)) (hnames : s.NamesApart k) {l : ℕ}
    {rest : List ServerTask} (htodo : s.todo l = .remove k :: rest) :
    StepOf s ((s.setTodo l rest).removeConnectionInLoop k) k := by
  have habout : (ServerTask.remove k).isAbout k = true := by
    simp [ServerTask.isAbout, ServerFunctor.conn]
  obtain ⟨hexp, halive⟩ := expected_of_todo h htodo habout
  have hwork := left_eq l htodo habout
  have hmem : .remove k ∈ (s.life k).work l := mem_work_of_todo htodo habout
  rw [hexp.2.1] at hmem
  refine
    { others := fun j hj => ?_, relay := ?_, name_ := rfl, loop_ := rfl, accepted := rfl,
      nextConnId_ := rfl, next_ := rfl }
  · have hlife : (s.setTodo l rest).life j = s.life j :=
      life_others_rest htodo (isAbout_of_ne hexp hj)
    rw [life_removeConnectionInLoop_of_ne hj (by rw [hlife]; exact hnames j hj), hlife]
  · have hlife := life_setTodo_self (s := s) (k := k) l [] rest
    rw [List.nil_append, List.filter_nil, List.nil_append] at hlife
    have hentries : ∀ e ∈ ((s.setTodo l rest).life k).entries, e.1 = (s.conns k).name_ := by
      intro e he
      rw [hlife] at he
      rw [mem_entries h he]
    rw [life_removeConnectionInLoop hentries, hlife]
    have herase : Relay k (((s.life k).erase (s.conns k).conn l (s.left k l rest) []).queue
        (s.conns k).loop_ (.destroy k)) :=
      h.erase _ hwork ⟨by simp, by simp⟩ (by simpa using h.removing hmem) (by simp)
        (h.down (.inl (h.removing hmem))) rfl halive
    simp only [Life.erase, List.append_nil] at herase
    exact herase

/-- The end of `handleClose`: the server's loop erases the entry, at once or by a functor. -/
theorem stepOf_closeCallback (h : Relay k (s.life k)) (hnames : s.NamesApart k) {l : ℕ}
    {rest : List ServerTask} (htodo : s.todo l = .closeCallback k :: rest) :
    StepOf s ((((s.setTodo l rest).onConnection k (fun c => c.invoke .closeCallback_)).mark k
      .handleClose).removeConnection l k) k := by
  have habout : (ServerTask.closeCallback k).isAbout k = true := by simp [ServerTask.isAbout]
  obtain ⟨hexp, halive⟩ := expected_of_todo h htodo habout
  obtain rfl := hexp.2
  have hwork := left_eq _ htodo habout
  have hmem : .closeCallback k ∈ (s.life k).work (s.life k).obj.loop_ :=
    mem_work_of_todo htodo habout
  have hstate : ((s.seen k).invoke .closeCallback_).state_ = .kDisconnected := h.down (.inr hmem)
  -- the state when `closeCallback_` is called
  obtain ⟨t, ht⟩ : ∃ t, t = ((s.setTodo (s.conns k).loop_ rest).onConnection k
      (fun c => c.invoke .closeCallback_)).mark k .handleClose := ⟨_, rfl⟩
  have hother (j : ℕ) (hj : j ≠ k) : t.life j = s.life j := by
    rw [ht, life_mark_of_ne hj.symm, life_onConnection_of_ne hj.symm]
    exact life_others_rest htodo (isAbout_of_ne hexp hj)
  have hself : t.life k = (s.life k).act ((s.seen k).invoke .closeCallback_)
      (s.left k (s.conns k).loop_ rest) [.handleClose] := by
    have hlife := life_setTodo_onConnection (s := s) (k := k) [] rest
      (fun c => c.invoke .closeCallback_)
    have husers : users k ((s.seen k).invoke .closeCallback_) = [] := rfl
    rw [husers, List.filter_nil, List.nil_append, List.append_nil, List.nil_append] at hlife
    rw [ht, life_mark_self, hlife, act_mark]
    rfl
  have hname : (t.conns k).name_ = (s.conns k).name_ := by
    simp [ht, mark, onConnection, setTodo]
  have hloop : (t.conns k).loop_ = (s.conns k).loop_ := by
    simp [ht, mark, onConnection, setTodo]
  have hcounters : t.accepted = s.accepted ∧ t.nextConnId_ = s.nextConnId_ ∧ t.next_ = s.next_ := by
    simp [ht, mark, onConnection, setTodo]
  rw [← ht]
  by_cases hzero : (s.conns k).loop_ = 0
  · rw [removeConnection, if_pos hzero]
    refine
      { others := fun j hj => ?_, relay := ?_, name_ := hname, loop_ := hloop,
        accepted := hcounters.1, nextConnId_ := hcounters.2.1, next_ := hcounters.2.2 }
    · rw [life_removeConnectionInLoop_of_ne hj (by rw [hother j hj, hname]; exact hnames j hj),
        hother j hj]
    · have hentries : ∀ e ∈ (t.life k).entries, e.1 = (t.conns k).name_ := by
        intro e he
        rw [hself] at he
        rw [hname, mem_entries h he]
      have herase : Relay k (((s.life k).erase ((s.seen k).invoke .closeCallback_)
          (s.conns k).loop_ (s.left k (s.conns k).loop_ rest) [.handleClose]).queue
          (s.conns k).loop_ (.destroy k)) :=
        h.erase _ hwork ⟨by simp, by simp⟩ (by simp) (by simp) hstate rfl halive
      rw [life_removeConnectionInLoop hentries, hself, hloop]
      exact herase
  · rw [removeConnection, if_neg hzero]
    have hconn : (ServerFunctor.removeConnectionInLoop k).conn = k := rfl
    refine
      { others := fun j hj => ?_, relay := ?_, name_ := hname, loop_ := hloop,
        accepted := hcounters.1, nextConnId_ := hcounters.2.1, next_ := hcounters.2.2 }
    · rw [life_queueInLoop_of_ne 0 (by rw [hconn]; exact hj.symm), hother j hj]
    · rw [life_queueInLoop_self 0 hconn, hself]
      exact h.close _ hzero hwork hstate halive

end TcpServer

end CkServer
