import CkServer.Verification.Server.Lifecycle
import Mathlib.Data.Int.CardIntervalMod

/-! # How the connections are shared among the loops

The pool gives out its loops in turn, and a connection keeps the loop it was given. From this
follow the loop of every connection, by its number, and how many connections each loop has had. -/

namespace CkServer

/-- The loop whose turn it is when the connection `k` is accepted. -/
def ServerConfig.turn (cfg : ServerConfig) (k : ℕ) : ℕ :=
  if cfg.numThreads = 0 then 0 else k % cfg.numThreads + 1

namespace TcpServer

variable {s t : TcpServer} {cfg : ServerConfig}

/-- The pool is where the number of accepted connections says, and so is every connection. -/
structure InTurn (s : TcpServer) (cfg : ServerConfig) : Prop where
  next_ : cfg.numThreads = 0 ∨ s.next_ = s.accepted % cfg.numThreads
  loop_ : ∀ k < s.accepted, (s.conns k).loop_ = cfg.turn k

/-- The loops have been given out as before. -/
structure SameLoops (s t : TcpServer) : Prop where
  next_ : t.next_ = s.next_
  accepted : t.accepted = s.accepted
  loop_ : ∀ k, (t.conns k).loop_ = (s.conns k).loop_

theorem SameLoops.trans {u : TcpServer} (h : SameLoops s t) (h' : SameLoops t u) :
    SameLoops s u where
  next_ := h'.next_.trans h.next_
  accepted := h'.accepted.trans h.accepted
  loop_ k := (h'.loop_ k).trans (h.loop_ k)

theorem SameLoops.of_eq (hnext : t.next_ = s.next_) (haccepted : t.accepted = s.accepted)
    (hconns : t.conns = s.conns) : SameLoops s t :=
  ⟨hnext, haccepted, fun k => by rw [hconns]⟩

theorem InTurn.of_sameLoops (h : s.InTurn cfg) (hsame : SameLoops s t) : t.InTurn cfg where
  next_ := by
    rw [hsame.next_, hsame.accepted]
    exact h.next_
  loop_ k hk := by
    rw [hsame.loop_]
    exact h.loop_ k (hsame.accepted ▸ hk)

/-! ## Steps that give out no loop -/

theorem sameLoops_onConnection (s : TcpServer) (k : ℕ) (op : TcpConnection → TcpConnection) :
    SameLoops s (s.onConnection k op) where
  next_ := rfl
  accepted := rfl
  loop_ j := by
    by_cases hj : j = k
    · simp [onConnection, hj]
    · simp [onConnection, hj]

theorem sameLoops_destroy (s : TcpServer) (k : ℕ) : SameLoops s (s.destroy k) where
  next_ := rfl
  accepted := rfl
  loop_ j := by
    by_cases hj : j = k
    · simp [destroy, hj]
    · simp [destroy, hj]

theorem sameLoops_mark (s : TcpServer) (k : ℕ) (stage : Stage) : SameLoops s (s.mark k stage) :=
  .of_eq rfl rfl rfl

theorem sameLoops_setTodo (s : TcpServer) (l : ℕ) (tasks : List ServerTask) :
    SameLoops s (s.setTodo l tasks) :=
  .of_eq rfl rfl rfl

theorem sameLoops_removeConnection (s : TcpServer) (l k : ℕ) :
    SameLoops s (s.removeConnection l k) := by
  unfold removeConnection
  split
  · exact .of_eq rfl rfl rfl
  · exact .of_eq rfl rfl rfl

theorem sameLoops_runFunctor (s : TcpServer) (k : ℕ) (o : ServerInput) (f : Functor) :
    SameLoops s (s.runFunctor k o f) := by
  cases f with
  | connectEstablished => exact (s.sameLoops_onConnection k _).trans (sameLoops_mark _ k _)
  | connectDestroyed => exact (s.sameLoops_onConnection k _).trans (sameLoops_mark _ k _)
  | sendInLoop data len call =>
      exact s.sameLoops_onConnection k (fun c => c.sendInLoop o.data o.written)
  | shutdownInLoop => exact s.sameLoops_onConnection k .shutdownInLoop
  | writeCompleteCallback_ => exact .of_eq rfl rfl rfl
  | highWaterMarkCallback_ bytes => exact .of_eq rfl rfl rfl

/-- The pool is asked for a loop by the acceptor only. -/
theorem sameLoops_runTask (s : TcpServer) (cfg : ServerConfig) (l : ℕ) (o : ServerInput)
    (rest : List ServerTask) {task : ServerTask} (h : task = .acceptorRead → o.accepted = none) :
    SameLoops s (s.runTask cfg l o rest task) := by
  have hhandler (k : ℕ) (tasks : List ServerTask) (op : TcpConnection → TcpConnection)
      (stage : Stage) : SameLoops s (((s.setTodo l tasks).onConnection k op).mark k stage) :=
    ((s.sameLoops_setTodo l tasks).trans (sameLoops_onConnection _ k op)).trans
      (sameLoops_mark _ k stage)
  cases task with
  | acceptorRead =>
      simp only [runTask, h rfl]
      exact s.sameLoops_setTodo l rest
  | handle k cb =>
      cases cb with
      | readCallback_ => exact hhandler k _ _ _
      | writeCallback_ => exact hhandler k _ _ _
      | closeCallback_ => exact hhandler k _ _ _
      | errorCallback_ => exact (s.sameLoops_setTodo l rest).trans (sameLoops_mark _ k _)
  | closeCallback k => exact (hhandler k _ _ _).trans (sameLoops_removeConnection _ l k)
  | functor f =>
      cases f with
      | connection k f => exact (s.sameLoops_setTodo l rest).trans (sameLoops_runFunctor _ k o f)
      | removeConnectionInLoop k => exact .of_eq rfl rfl rfl

/-! ## A new connection -/

theorem getNextLoop_of_inTurn (h : s.InTurn cfg) :
    (s.getNextLoop cfg).1 = cfg.turn s.accepted ∧
      (cfg.numThreads = 0 ∨ (s.getNextLoop cfg).2 = (s.accepted + 1) % cfg.numThreads) := by
  simp only [getNextLoop, ServerConfig.turn]
  by_cases hzero : cfg.numThreads = 0
  · rw [if_pos hzero, if_pos hzero]
    exact ⟨rfl, .inl hzero⟩
  · have hnext := h.next_.resolve_left hzero
    have hlt := Nat.mod_lt s.accepted (Nat.pos_of_ne_zero hzero)
    rw [if_neg hzero, if_neg hzero, hnext]
    refine ⟨rfl, .inr ?_⟩
    have hmod := Nat.mod_add_mod s.accepted cfg.numThreads 1
    by_cases hlast : s.accepted % cfg.numThreads + 1 ≥ cfg.numThreads
    · have hfull : s.accepted % cfg.numThreads + 1 = cfg.numThreads := by omega
      rw [if_pos hlast, ← hmod, hfull, Nat.mod_self]
    · rw [if_neg hlast, ← hmod]
      exact (Nat.mod_eq_of_lt (by omega)).symm

theorem InTurn.addConnection (h : s.InTurn cfg) (sockfd : ℕ) :
    (s.addConnection cfg sockfd).InTurn cfg := by
  obtain ⟨hloop, hnext⟩ := getNextLoop_of_inTurn h
  refine ⟨hnext, fun k hk => ?_⟩
  by_cases hnew : k = s.accepted
  · simp only [TcpServer.addConnection, hnew, Function.update_self]
    exact hloop
  · have hold : k < s.accepted := by
      simp only [TcpServer.addConnection] at hk
      omega
    simp only [TcpServer.addConnection, Function.update_of_ne hnew]
    exact h.loop_ k hold

theorem InTurn.newConnection (h : s.InTurn cfg) (sockfd : ℕ) :
    (s.newConnection cfg sockfd).InTurn cfg := by
  simp only [TcpServer.newConnection]
  split
  · exact (h.addConnection sockfd).of_sameLoops (sameLoops_setTodo _ _ _)
  · exact (h.addConnection sockfd).of_sameLoops (.of_eq rfl rfl rfl)

/-! ## Runs -/

theorem InTurn.runTask (h : s.InTurn cfg) (l : ℕ) (o : ServerInput) (rest : List ServerTask)
    (task : ServerTask) : (s.runTask cfg l o rest task).InTurn cfg := by
  by_cases hgives : task = .acceptorRead → o.accepted = none
  · exact h.of_sameLoops (s.sameLoops_runTask cfg l o rest hgives)
  · obtain ⟨rfl, hsome⟩ := Classical.not_imp.mp hgives
    obtain ⟨sockfd, hfd⟩ := Option.ne_none_iff_exists'.mp hsome
    simp only [TcpServer.runTask, hfd]
    exact (h.of_sameLoops (s.sameLoops_setTodo l rest)).newConnection sockfd

theorem InTurn.next (h : s.InTurn cfg) (a : ServerAction) : (s.next cfg a).InTurn cfg := by
  cases a with
  | poll l active => exact h.of_sameLoops (s.sameLoops_setTodo l _)
  | doPendingFunctors l => exact h.of_sameLoops (.of_eq rfl rfl rfl)
  | execute l o =>
      cases htodo : s.todo l with
      | nil =>
          simp only [TcpServer.next, htodo]
          exact h
      | cons task rest =>
          simp only [TcpServer.next, htodo]
          exact h.runTask l o rest task
  | send k data written => exact h.of_sameLoops (s.sameLoops_onConnection k _)
  | shutdown k => exact h.of_sameLoops (s.sameLoops_onConnection k _)
  | destroy k => exact h.of_sameLoops (s.sameLoops_destroy k)

theorem inTurn_of_runs {as : List ServerAction} (hruns : (tcpServer cfg).Runs {} as) :
    ((tcpServer cfg).run {} as).InTurn cfg := by
  have hinitial : ({} : TcpServer).InTurn cfg :=
    ⟨.inr (Nat.zero_mod _).symm, fun k hk => absurd hk (Nat.not_lt_zero k)⟩
  have hstep (s : TcpServer) (a : ServerAction) (h : s.InTurn cfg)
      (_ : (tcpServer cfg).enabled s a) : ((tcpServer cfg).next s a).InTurn cfg := h.next a
  exact (tcpServer cfg).invariant_of_runs hstep hinitial hruns

/-! ## Shares -/

/-- The number of connections that the loop `l` has been given so far. -/
def share (s : TcpServer) (l : ℕ) : ℕ := s.accepted.count (fun k => (s.conns k).loop_ = l)

theorem share_eq_of_iff {l : ℕ} {p : ℕ → Prop} [DecidablePred p]
    (h : ∀ k < s.accepted, (s.conns k).loop_ = l ↔ p k) : s.share l = s.accepted.count p :=
  le_antisymm (Nat.count_mono_left fun k hk => (h k hk).mp)
    (Nat.count_mono_left fun k hk => (h k hk).mpr)

/-- Each loop of the pool has had its share, and the first ones have had one more when the last
round is not complete. -/
theorem InTurn.share_eq (h : s.InTurn cfg) {i : ℕ} (hi : i < cfg.numThreads) :
    s.share (i + 1) =
      s.accepted / cfg.numThreads + if i < s.accepted % cfg.numThreads then 1 else 0 := by
  have hpos : 0 < cfg.numThreads := by omega
  have hturn (k : ℕ) (hk : k < s.accepted) :
      (s.conns k).loop_ = i + 1 ↔ k ≡ i [MOD cfg.numThreads] := by
    rw [h.loop_ k hk, ServerConfig.turn, if_neg (by omega), Nat.ModEq, Nat.mod_eq_of_lt hi]
    omega
  rw [share_eq_of_iff hturn, Nat.count_modEq_card _ hpos, Nat.mod_eq_of_lt hi]

/-- The server's own loop serves all connections, or none. -/
theorem InTurn.share_zero (h : s.InTurn cfg) :
    s.share 0 = if cfg.numThreads = 0 then s.accepted else 0 := by
  have hturn (k : ℕ) (hk : k < s.accepted) : (s.conns k).loop_ = 0 ↔ cfg.numThreads = 0 := by
    rw [h.loop_ k hk, ServerConfig.turn]
    by_cases hzero : cfg.numThreads = 0
    · simp [hzero]
    · simp [hzero]
  rw [share_eq_of_iff hturn]
  by_cases hzero : cfg.numThreads = 0
  · rw [if_pos hzero, Nat.count_of_forall (fun _ _ => hzero)]
  · rw [if_neg hzero, Nat.count_of_forall_not (fun _ _ => hzero)]

/-! ## One thread for a connection -/

/-- What is to be done about a connection is to be done by its loop, apart from the removal of its
entry, which is for the server's loop. -/
theorem InOrder.home (h : s.InOrder cfg) (hturn : s.InTurn cfg) {k l : ℕ} {t : ServerTask}
    (ht : t ∈ s.work l) (hk : t.isAbout k = true) :
    l = cfg.turn k ∨ l = 0 ∧ t = .remove k := by
  have hmem : t ∈ (s.life k).work l := List.mem_filter.mpr ⟨ht, hk⟩
  have hlt : k < s.accepted := by
    by_contra hge
    rw [(h.lives.unborn k (by omega)).1 l] at hmem
    cases hmem
  have hplace := (h.lives.relay k hlt).place l t hmem
  have hhome : (s.life k).obj.loop_ = cfg.turn k := hturn.loop_ k hlt
  rw [hhome] at hplace
  cases t with
  | acceptorRead => cases hplace
  | handle j cb => exact .inl hplace.2
  | closeCallback j => exact .inl hplace.2
  | functor f =>
      cases f with
      | connection j f => exact .inl hplace.2.1
      | removeConnectionInLoop j =>
          obtain ⟨rfl, hl, -⟩ := hplace
          exact .inr ⟨hl, rfl⟩

/-- In every run of the loops of a server the connections are given to the loops in turn, so that
the numbers of connections any two loops of the pool have had differ by one at most. As long as
fewer than `2 ^ 31` have been accepted, what is to be done about a connection is in its loop, apart
from the removal of its entry. -/
theorem shared_of_runs {as : List ServerAction} (hruns : (tcpServer cfg).Runs {} as) :
    (∀ k < ((tcpServer cfg).run {} as).accepted,
      (((tcpServer cfg).run {} as).conns k).loop_ = cfg.turn k) ∧
      ((tcpServer cfg).run {} as).share 0 =
        (if cfg.numThreads = 0 then ((tcpServer cfg).run {} as).accepted else 0) ∧
      (∀ i < cfg.numThreads, ((tcpServer cfg).run {} as).share (i + 1) =
        ((tcpServer cfg).run {} as).accepted / cfg.numThreads +
          if i < ((tcpServer cfg).run {} as).accepted % cfg.numThreads then 1 else 0) ∧
      (((tcpServer cfg).run {} as).accepted < 2 ^ 31 →
        ∀ k l t, t ∈ ((tcpServer cfg).run {} as).work l → t.isAbout k = true →
          l = cfg.turn k ∨ l = 0 ∧ t = .remove k) := by
  have hturn := inTurn_of_runs hruns
  refine ⟨hturn.loop_, hturn.share_zero, fun i hi => hturn.share_eq hi, fun hfew => ?_⟩
  exact fun k l t ht hk => (inOrder_of_runs hruns hfew).home hturn ht hk

/-- A server with two io loops. -/
def twoIoLoops : ServerConfig := ⟨[115], ⟨(127, 0, 0, 1), 8000⟩, 2, {}⟩

/-- Three connections are accepted, and the first one is hung up before the third. -/
def acceptedThree : List ServerAction :=
  [.poll 0 [.acceptChannel_], .execute 0 { accepted := some 7 }, .doPendingFunctors 1,
    .execute 1 {}, .poll 0 [.acceptChannel_], .execute 0 { accepted := some 8 },
    .poll 1 [.connection 0 EPOLLHUP], .execute 1 {}, .execute 1 {},
    .poll 0 [.acceptChannel_], .execute 0 { accepted := some 9 }]

theorem shared_acceptedThree :
    ((tcpServer twoIoLoops).run {} acceptedThree).share 1 = 2 ∧
      ((tcpServer twoIoLoops).run {} acceptedThree).share 2 = 1 := by
  have hruns : (tcpServer twoIoLoops).Runs {} acceptedThree := by decide +kernel
  have h := shared_of_runs hruns
  have haccepted : ((tcpServer twoIoLoops).run {} acceptedThree).accepted = 3 := by decide +kernel
  have hshare := h.2.2.1
  rw [haccepted] at hshare
  exact ⟨hshare 0 (by decide), hshare 1 (by decide)⟩

end TcpServer

end CkServer
