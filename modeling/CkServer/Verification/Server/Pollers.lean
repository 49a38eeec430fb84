import CkServer.Verification.Server.Lives

/-! # The pollers of a server

Each poller keeps the channels of living connections of its own loop, each under a descriptor
that no other living connection has. -/

namespace CkServer

namespace TcpServer

/-- The poller of the loop `l`. -/
def poller (s : TcpServer) (l : ℕ) : EPollPoller := (s.loops l).poller_

/-- The connection `k` exists. -/
def Living (s : TcpServer) (k : ℕ) : Prop := k < s.accepted ∧ (s.conns k).alive = true

def fd (s : TcpServer) (k : ℕ) : ℕ := (s.conns k).conn.channel_.fd_

structure Pollers (s : TcpServer) : Prop where
  running : ∀ l, (s.poller l).aborted = false
  address : ∀ k < s.accepted, (s.conns k).conn.channel_.address = k
  tracked : ∀ k, s.Living k →
    (s.conns k).conn.channel_.Tracked (s.poller (s.conns k).loop_)
  distinct : ∀ j k, s.Living j → s.Living k → s.fd j = s.fd k → j = k
  channels : ∀ l f k, (s.poller l).channels_ f = some k →
    s.Living k ∧ (s.conns k).loop_ = l ∧ s.fd k = f
  epoll : ∀ l f, (s.poller l).epoll f ≠ none →
    ∃ k, s.Living k ∧ (s.conns k).loop_ = l ∧ s.fd k = f

variable {s : TcpServer}

/-- A step that changes no connection and no poller. -/
theorem Pollers.of_eq {t : TcpServer} (h : s.Pollers) (hconns : t.conns = s.conns)
    (haccepted : t.accepted = s.accepted) (hpoller : ∀ l, t.poller l = s.poller l) :
    t.Pollers := by
  have hliving (k : ℕ) : t.Living k ↔ s.Living k := by simp [Living, hconns, haccepted]
  have hfd (k : ℕ) : t.fd k = s.fd k := by simp [fd, hconns]
  exact
    { running := fun l => by rw [hpoller, h.running]
      address := fun k hk => by rw [hconns]; exact h.address k (haccepted ▸ hk)
      tracked := fun k hk => by rw [hconns, hpoller]; exact h.tracked k ((hliving k).mp hk)
      distinct := fun j k hj hk hjk => by
        rw [hfd, hfd] at hjk
        exact h.distinct j k ((hliving j).mp hj) ((hliving k).mp hk) hjk
      channels := fun l f k hk => by
        rw [hpoller] at hk
        rw [hliving, hconns, hfd]
        exact h.channels l f k hk
      epoll := fun l f hf => by
        rw [hpoller] at hf
        obtain ⟨k, hk⟩ := h.epoll l f hf
        exact ⟨k, by rw [hliving, hconns, hfd]; exact hk⟩ }

theorem Pollers.setTodo (h : s.Pollers) (l : ℕ) (tasks : List ServerTask) :
    (s.setTodo l tasks).Pollers :=
  h.of_eq rfl rfl (fun _ => rfl)

theorem Pollers.mark (h : s.Pollers) (k : ℕ) (stage : Stage) : (s.mark k stage).Pollers :=
  h.of_eq rfl rfl (fun _ => rfl)

theorem Pollers.queueInLoop (h : s.Pollers) (l : ℕ) (f : ServerFunctor) :
    (s.queueInLoop l f).Pollers := by
  refine h.of_eq rfl rfl (fun l' => ?_)
  by_cases hl : l' = l
  · simp [poller, TcpServer.queueInLoop, EventLoop.queueInLoop, hl]
  · simp [poller, TcpServer.queueInLoop, hl]

theorem Pollers.removeConnectionInLoop (h : s.Pollers) (k : ℕ) :
    (s.removeConnectionInLoop k).Pollers := by
  have herase : (s.erase (s.conns k).name_).Pollers := h.of_eq rfl rfl (fun _ => rfl)
  exact (herase.mark k .removeConnectionInLoop).queueInLoop _ _

theorem Pollers.removeConnection (h : s.Pollers) (l k : ℕ) : (s.removeConnection l k).Pollers := by
  by_cases hl : l = 0
  · rw [TcpServer.removeConnection, if_pos hl]
    exact h.removeConnectionInLoop k
  · rw [TcpServer.removeConnection, if_neg hl]
    exact h.queueInLoop 0 _

theorem pollers_initial : ({} : TcpServer).Pollers where
  running _ := rfl
  address k hk := by simp at hk
  tracked k hk := by simp [Living] at hk
  distinct j k hj := by simp [Living] at hj
  channels l f k hk := by simp [poller] at hk
  epoll l f hf := by simp [poller] at hf

/-! ## Operations of a connection -/

/-- A descriptor is registered by its own connection only. -/
theorem Pollers.fd_ne (h : s.Pollers) {j k : ℕ} (hj : s.Living j) (hk : s.Living k)
    (hne : j ≠ k) : s.fd j ≠ s.fd k :=
  fun heq => hne (h.distinct j k hj hk heq)

/-- The poller has changed at other descriptors only. -/
theorem tracked_of_eq {ch : Channel} {p p' : EPollPoller} (h : ch.Tracked p)
    (hchannels : p'.channels_ ch.fd_ = p.channels_ ch.fd_)
    (hepoll : p'.epoll ch.fd_ = p.epoll ch.fd_) (hrunning : p'.aborted = false) :
    ch.Tracked p' where
  channels := by rw [hchannels, h.channels]
  epoll := by rw [hepoll, h.epoll]
  running := hrunning

section OnConnection

variable (s) (op : TcpConnection → TcpConnection) {k : ℕ}

theorem conns_onConnection_self :
    (s.onConnection k op).conns k = { s.conns k with conn := op (s.seen k) } := by
  simp [TcpServer.onConnection, seen]

theorem conns_onConnection_of_ne {j : ℕ} (hj : j ≠ k) :
    (s.onConnection k op).conns j = s.conns j := by
  simp [TcpServer.onConnection, hj]

theorem poller_onConnection_self :
    (s.onConnection k op).poller (s.conns k).loop_ = (op (s.seen k)).loop_.poller_ := by
  simp [poller, TcpServer.onConnection, seen]

theorem poller_onConnection_of_ne {l : ℕ} (hl : l ≠ (s.conns k).loop_) :
    (s.onConnection k op).poller l = s.poller l := by
  simp [poller, TcpServer.onConnection, hl]

/-- All connections stay alive, and in their loops. -/
theorem living_onConnection (j : ℕ) :
    ((s.onConnection k op).Living j ↔ s.Living j) ∧
      ((s.onConnection k op).conns j).loop_ = (s.conns j).loop_ := by
  by_cases hj : j = k
  · rw [Living, hj, conns_onConnection_self]
    exact ⟨Iff.rfl, rfl⟩
  · rw [Living, conns_onConnection_of_ne s op hj]
    exact ⟨Iff.rfl, rfl⟩

theorem fd_onConnection (hop : (s.seen k).Confined (op (s.seen k))) (j : ℕ) :
    (s.onConnection k op).fd j = s.fd j := by
  by_cases hj : j = k
  · rw [fd, hj, conns_onConnection_self]
    exact hop.fd_
  · rw [fd, conns_onConnection_of_ne s op hj]
    rfl

end OnConnection

theorem Pollers.onConnection (h : s.Pollers) {k : ℕ} (hk : s.Living k)
    (op : TcpConnection → TcpConnection) (hop : (s.seen k).Confined (op (s.seen k))) :
    (s.onConnection k op).Pollers := by
  have hseen : (s.seen k).Tracked := h.tracked k hk
  have htracked : (op (s.seen k)).Tracked := hop.tracked hseen
  have hself := s.conns_onConnection_self op (k := k)
  have hother {j : ℕ} (hj : j ≠ k) := s.conns_onConnection_of_ne op hj
  have hpoller := s.poller_onConnection_self op (k := k)
  have hpollers {l : ℕ} (hl : l ≠ (s.conns k).loop_) := s.poller_onConnection_of_ne op hl
  have hliving (j : ℕ) := (s.living_onConnection op (k := k) j).1
  have hloop (j : ℕ) := (s.living_onConnection op (k := k) j).2
  have hfd := s.fd_onConnection op hop
  have hfdk : (op (s.seen k)).channel_.fd_ = s.fd k := hop.fd_
  have haddress : (op (s.seen k)).channel_.address = k := hop.address.trans (h.address k hk.1)
  refine
    { running := ?_, address := ?_, tracked := ?_, distinct := ?_, channels := ?_, epoll := ?_ }
  · intro l
    by_cases hl : l = (s.conns k).loop_
    · rw [hl, hpoller]
      exact htracked.running
    · rw [hpollers hl]
      exact h.running l
  · intro j hj
    by_cases hjk : j = k
    · rw [hjk, hself]
      exact haddress
    · rw [hother hjk]
      exact h.address j hj
  · intro j hj
    rw [hliving] at hj
    rw [hloop]
    by_cases hjk : j = k
    · rw [hjk, hself, hpoller]
      exact htracked
    · rw [hother hjk]
      by_cases hl : (s.conns j).loop_ = (s.conns k).loop_
      · have hne := h.fd_ne hj hk hjk
        have ht := h.tracked j hj
        rw [hl] at ht ⊢
        rw [hpoller]
        exact tracked_of_eq ht (hop.channels _ hne) (hop.epoll _ hne) htracked.running
      · rw [hpollers hl]
        exact h.tracked j hj
  · intro i j hi hj hij
    rw [hliving] at hi hj
    rw [hfd, hfd] at hij
    exact h.distinct i j hi hj hij
  · intro l f j hj
    rw [hliving, hloop, hfd]
    by_cases hl : l = (s.conns k).loop_
    · rw [hl, hpoller] at hj
      rw [hl]
      by_cases hf : f = s.fd k
      · -- the entry for the descriptor is the connection's own
        have hchannels := htracked.channels
        rw [hfdk, ← hf, hj, haddress] at hchannels
        by_cases hnew : (op (s.seen k)).channel_.index_ = .kNew
        · rw [if_pos hnew] at hchannels
          cases hchannels
        · rw [if_neg hnew, Option.some.injEq] at hchannels
          rw [hchannels, hf]
          exact ⟨hk, rfl, rfl⟩
      · rw [hop.channels f hf] at hj
        exact h.channels _ f j hj
    · rw [hpollers hl] at hj
      exact h.channels l f j hj
  · intro l f hf
    have howner : ∃ j, s.Living j ∧ (s.conns j).loop_ = l ∧ s.fd j = f := by
      by_cases hl : l = (s.conns k).loop_
      · rw [hl, hpoller] at hf
        rw [hl]
        by_cases hfk : f = s.fd k
        · exact ⟨k, hk, rfl, hfk.symm⟩
        · rw [hop.epoll f hfk] at hf
          exact h.epoll _ f hf
      · rw [hpollers hl] at hf
        exact h.epoll l f hf
    obtain ⟨j, hj⟩ := howner
    exact ⟨j, by rw [hliving, hloop, hfd]; exact hj⟩

/-! ## The beginning and the end of a connection -/

section AddConnection

variable (s) (cfg : ServerConfig) (sockfd : ℕ)

theorem conns_addConnection_self :
    (s.addConnection cfg sockfd).conns s.accepted =
      { conn := .new s.accepted sockfd cfg.callbacks, name_ := cfg.connName s.nextConnId_,
        loop_ := (s.getNextLoop cfg).1, alive := true } := by
  simp [TcpServer.addConnection]

theorem conns_addConnection_of_lt {j : ℕ} (hj : j < s.accepted) :
    (s.addConnection cfg sockfd).conns j = s.conns j := by
  simp [TcpServer.addConnection, hj.ne]

theorem fd_addConnection_self : (s.addConnection cfg sockfd).fd s.accepted = sockfd := by
  rw [fd, conns_addConnection_self]
  rfl

variable {s}

theorem Living.addConnection {j : ℕ} (hj : s.Living j) :
    (s.addConnection cfg sockfd).Living j ∧
      ((s.addConnection cfg sockfd).conns j).loop_ = (s.conns j).loop_ ∧
      (s.addConnection cfg sockfd).fd j = s.fd j := by
  have hsame := s.conns_addConnection_of_lt cfg sockfd hj.1
  refine ⟨⟨Nat.lt_succ_of_lt hj.1, ?_⟩, ?_, ?_⟩
  · rw [hsame]
    exact hj.2
  · rw [hsame]
  · rw [fd, hsame]
    rfl

theorem living_or_eq_of_addConnection {j : ℕ} (hj : (s.addConnection cfg sockfd).Living j) :
    s.Living j ∨ j = s.accepted := by
  have hlt : j < s.accepted + 1 := hj.1
  by_cases heq : j = s.accepted
  · exact .inr heq
  · have hold : j < s.accepted := by omega
    have halive := hj.2
    rw [s.conns_addConnection_of_lt cfg sockfd hold] at halive
    exact .inl ⟨hold, halive⟩

end AddConnection

theorem Pollers.addConnection (h : s.Pollers) (cfg : ServerConfig) {sockfd : ℕ}
    (hfresh : ∀ k < s.accepted, (s.conns k).alive = true → s.fd k ≠ sockfd) :
    (s.addConnection cfg sockfd).Pollers := by
  have hself := s.conns_addConnection_self cfg sockfd
  have hother {j : ℕ} (hj : j < s.accepted) := s.conns_addConnection_of_lt cfg sockfd hj
  have hliving {j : ℕ} (hj : s.Living j) := hj.addConnection cfg sockfd
  have hlives {j : ℕ} (hj : (s.addConnection cfg sockfd).Living j) :=
    living_or_eq_of_addConnection cfg sockfd hj
  have hnew := s.fd_addConnection_self cfg sockfd
  have hnochannel (l : ℕ) : (s.poller l).channels_ sockfd = none := by
    by_contra hne
    obtain ⟨j, hj⟩ := Option.ne_none_iff_exists'.mp hne
    obtain ⟨hl, -, hf⟩ := h.channels l sockfd j hj
    exact hfresh j hl.1 hl.2 hf
  have hnoepoll (l : ℕ) : (s.poller l).epoll sockfd = none := by
    by_contra hne
    obtain ⟨j, hl, -, hf⟩ := h.epoll l sockfd hne
    exact hfresh j hl.1 hl.2 hf
  refine
    { running := h.running, address := ?_, tracked := ?_, distinct := ?_, channels := ?_,
      epoll := ?_ }
  · intro j hj
    have hlt : j < s.accepted + 1 := hj
    by_cases heq : j = s.accepted
    · rw [heq, hself]
      rfl
    · have hold : j < s.accepted := by omega
      rw [hother hold]
      exact h.address j hold
  · intro j hj
    rcases hlives hj with hj | rfl
    · rw [hother hj.1]
      exact h.tracked j hj
    · rw [hself]
      exact ⟨hnochannel _, hnoepoll _, h.running _⟩
  · intro i j hi hj hij
    rcases hlives hi with hi | rfl
    · rw [(hliving hi).2.2] at hij
      rcases hlives hj with hj | rfl
      · rw [(hliving hj).2.2] at hij
        exact h.distinct i j hi hj hij
      · rw [hnew] at hij
        exact absurd hij (hfresh i hi.1 hi.2)
    · rw [hnew] at hij
      rcases hlives hj with hj | rfl
      · rw [(hliving hj).2.2] at hij
        exact absurd hij.symm (hfresh j hj.1 hj.2)
      · rfl
  · intro l f j hj
    obtain ⟨hl, hloop, hf⟩ := h.channels l f j hj
    obtain ⟨hl', hloop', hf'⟩ := hliving hl
    exact ⟨hl', hloop'.trans hloop, hf'.trans hf⟩
  · intro l f hf
    obtain ⟨j, hl, hloop, hfd⟩ := h.epoll l f hf
    obtain ⟨hl', hloop', hf'⟩ := hliving hl
    exact ⟨j, hl', hloop'.trans hloop, hf'.trans hfd⟩

theorem Pollers.newConnection (h : s.Pollers) (cfg : ServerConfig) {sockfd : ℕ}
    (hfresh : ∀ k < s.accepted, (s.conns k).alive = true → s.fd k ≠ sockfd) :
    (s.newConnection cfg sockfd).Pollers := by
  have hadd := h.addConnection cfg hfresh
  simp only [TcpServer.newConnection]
  by_cases hzero : (s.getNextLoop cfg).1 = 0
  · rw [if_pos hzero]
    exact hadd.setTodo 0 _
  · rw [if_neg hzero]
    exact hadd.queueInLoop _ _

/-- A connection whose channel is not registered is destroyed. -/
theorem Pollers.destroy (h : s.Pollers) {k : ℕ} (hk : s.Living k)
    (hindex : (s.conns k).conn.channel_.index_ = .kNew) : (s.destroy k).Pollers := by
  have htracked := h.tracked k hk
  have hepollk : (s.poller (s.conns k).loop_).epoll (s.fd k) = none := by
    have hepoll := htracked.epoll
    rwa [hindex, if_neg (by simp)] at hepoll
  have hchannelsk (l f : ℕ) : (s.poller l).channels_ f ≠ some k := by
    intro hf
    obtain ⟨-, rfl, rfl⟩ := h.channels l f k hf
    have hchannels := htracked.channels
    rw [if_pos hindex, ← fd, hf] at hchannels
    cases hchannels
  have hconn (j : ℕ) : ((s.destroy k).conns j).conn = (s.conns j).conn ∧
      ((s.destroy k).conns j).loop_ = (s.conns j).loop_ := by
    by_cases hj : j = k
    · simp [TcpServer.destroy, hj]
    · simp [TcpServer.destroy, hj]
  have hfd (j : ℕ) : (s.destroy k).fd j = s.fd j := by rw [fd, (hconn j).1, fd]
  have hliving (j : ℕ) : (s.destroy k).Living j ↔ s.Living j ∧ j ≠ k := by
    by_cases hj : j = k
    · simp [Living, TcpServer.destroy, hj]
    · simp [Living, TcpServer.destroy, hj]
  -- the kernel has already forgotten the descriptor
  have hpoller (l : ℕ) : (s.destroy k).poller l = s.poller l := by
    by_cases hl : l = (s.conns k).loop_
    · have hepoll : Function.update (s.poller (s.conns k).loop_).epoll (s.fd k) none =
          (s.poller (s.conns k).loop_).epoll := by
        rw [← hepollk, Function.update_eq_self]
      simp only [poller, fd] at hepoll
      simp [poller, TcpServer.destroy, hl, hepoll]
    · simp [poller, TcpServer.destroy, hl]
  refine
    { running := fun l => by rw [hpoller, h.running]
      address := fun j hj => by rw [(hconn j).1]; exact h.address j hj
      tracked := fun j hj => ?_
      distinct := fun i j hi hj hij => ?_
      channels := fun l f j hj => ?_
      epoll := fun l f hf => ?_ }
  · rw [(hconn j).1, (hconn j).2, hpoller]
    exact h.tracked j ((hliving j).mp hj).1
  · rw [hfd, hfd] at hij
    exact h.distinct i j ((hliving i).mp hi).1 ((hliving j).mp hj).1 hij
  · rw [hpoller] at hj
    rw [hliving, (hconn j).2, hfd]
    obtain ⟨hl, hrest⟩ := h.channels l f j hj
    refine ⟨⟨hl, ?_⟩, hrest⟩
    intro heq
    rw [heq] at hj
    exact hchannelsk l f hj
  · rw [hpoller] at hf
    obtain ⟨j, hl, hloop, hfj⟩ := h.epoll l f hf
    refine ⟨j, (hliving j).mpr ⟨hl, ?_⟩, by rw [(hconn j).2, hloop], by rw [hfd, hfj]⟩
    intro heq
    rw [heq] at hloop hfj
    rw [← hloop, ← hfj] at hf
    exact hf hepollk

end TcpServer

end CkServer
