import CkServer.Verification.Server.Names
import CkServer.Verification.Server.Pollers
import CkServer.Verification.Server.Tasks

/-! # The lifecycle of the connections

Every step of the loops keeps the life of every connection in order, and the pollers with
them. -/

namespace CkServer

namespace TcpServer

/-- The lives of all connections. The connections that are still to come have none. -/
structure Lives (s : TcpServer) (cfg : ServerConfig) : Prop where
  pool : cfg.numThreads = 0 ∨ s.next_ < cfg.numThreads
  ids : s.accepted < 2 ^ 31 - 1 → s.nextConnId_ = ((s.accepted + 1 : ℕ) : ℤ)
  named : ∀ k < s.accepted, (s.conns k).name_ = cfg.connName ((k + 1 : ℕ) : ℤ)
  placed : ∀ k < s.accepted, (s.conns k).loop_ ≤ cfg.numThreads
  relay : ∀ k < s.accepted, Relay k (s.life k)
  unborn : ∀ k, s.accepted ≤ k →
    (∀ l, (s.life k).work l = []) ∧ (s.life k).stages = [] ∧ (s.life k).entries = []

variable {s t : TcpServer} {cfg : ServerConfig}

theorem lives_initial (cfg : ServerConfig) : ({} : TcpServer).Lives cfg where
  pool := by
    by_cases h : cfg.numThreads = 0
    · exact .inl h
    · exact .inr (Nat.pos_of_ne_zero h)
  ids _ := rfl
  named k hk := by simp at hk
  placed k hk := by simp at hk
  relay k hk := by simp at hk
  unborn k _ := by simp [life, work]

theorem Lives.of_same (h : s.Lives cfg) (hlife : ∀ k, t.life k = s.life k)
    (haccepted : t.accepted = s.accepted) (hid : t.nextConnId_ = s.nextConnId_)
    (hnext : t.next_ = s.next_) : t.Lives cfg := by
  have hobj (k : ℕ) : t.conns k = s.conns k := congrArg Life.obj (hlife k)
  exact
    { pool := by rw [hnext]; exact h.pool
      ids := by rw [haccepted, hid]; exact h.ids
      named := fun k hk => by rw [hobj]; exact h.named k (haccepted ▸ hk)
      placed := fun k hk => by rw [hobj]; exact h.placed k (haccepted ▸ hk)
      relay := fun k hk => by rw [hlife]; exact h.relay k (haccepted ▸ hk)
      unborn := fun k hk => by rw [hlife]; exact h.unborn k (haccepted ▸ hk) }

theorem Lives.of_stepOf (h : s.Lives cfg) {k : ℕ} (hk : k < s.accepted) (hs : StepOf s t k) :
    t.Lives cfg := by
  have hobj {j : ℕ} (hj : j ≠ k) : t.conns j = s.conns j := congrArg Life.obj (hs.others j hj)
  have hname (j : ℕ) : (t.conns j).name_ = (s.conns j).name_ := by
    by_cases hj : j = k
    · rw [hj, hs.name_]
    · rw [hobj hj]
  have hloop (j : ℕ) : (t.conns j).loop_ = (s.conns j).loop_ := by
    by_cases hj : j = k
    · rw [hj, hs.loop_]
    · rw [hobj hj]
  refine
    { pool := by rw [hs.next_]; exact h.pool
      ids := by rw [hs.accepted, hs.nextConnId_]; exact h.ids
      named := fun j hj => by rw [hname]; exact h.named j (hs.accepted ▸ hj)
      placed := fun j hj => by rw [hloop]; exact h.placed j (hs.accepted ▸ hj)
      relay := fun j hj => ?_
      unborn := fun j hj => ?_ }
  · by_cases hjk : j = k
    · rw [hjk]
      exact hs.relay
    · rw [hs.others j hjk]
      exact h.relay j (hs.accepted ▸ hj)
  · rw [hs.accepted] at hj
    rw [hs.others j (by omega)]
    exact h.unborn j hj

theorem Lives.name_ne (h : s.Lives cfg) (hfew : s.accepted < 2 ^ 31) {j k : ℕ}
    (hj : j < s.accepted) (hk : k < s.accepted) (hne : j ≠ k) :
    (s.conns j).name_ ≠ (s.conns k).name_ := by
  rw [h.named j hj, h.named k hk]
  intro heq
  have hnumbers := connName_injective cfg (by omega) (by omega) heq
  omega

theorem Lives.namesApart (h : s.Lives cfg) (hfew : s.accepted < 2 ^ 31) {k : ℕ}
    (hk : k < s.accepted) : s.NamesApart k := by
  intro j hj e he
  by_cases hlt : j < s.accepted
  · rw [mem_entries (h.relay j hlt) he]
    exact h.name_ne hfew hlt hk hj
  · rw [(h.unborn j (by omega)).2.2] at he
    cases he

/-- A task is about a connection that has been accepted. -/
theorem Lives.lt_of_todo (h : s.Lives cfg) {l k : ℕ} {t : ServerTask} {rest : List ServerTask}
    (htodo : s.todo l = t :: rest) (ht : t.isAbout k = true) : k < s.accepted := by
  by_contra hge
  have hmem : t ∈ (s.life k).work l := mem_work_of_todo htodo ht
  rw [(h.unborn k (by omega)).1 l] at hmem
  cases hmem

/-! ## A new connection -/

theorem Lives.addConnection_others (h : s.Lives cfg) (hfew : s.accepted + 1 < 2 ^ 31)
    (sockfd : ℕ) {j : ℕ} (hj : j ≠ s.accepted) :
    (s.addConnection cfg sockfd).life j = s.life j := by
  have hid := h.ids (by omega)
  have hentries : ((s.erase (cfg.connName s.nextConnId_)).life j) = s.life j := by
    apply life_erase_of_ne
    intro e he
    by_cases hlt : j < s.accepted
    · rw [mem_entries (h.relay j hlt) he, h.named j hlt, hid]
      intro heq
      have hnumbers := connName_injective cfg (by omega) (by omega) heq
      omega
    · rw [(h.unborn j (by omega)).2.2] at he
      cases he
  have hobj : (s.addConnection cfg sockfd).conns j = s.conns j := by
    simp [addConnection, hj]
  have hfilter : (s.addConnection cfg sockfd).connections_.filter (·.2 = j) =
      (s.erase (cfg.connName s.nextConnId_)).connections_.filter (·.2 = j) := by
    simp [addConnection, Ne.symm hj]
  rw [← hentries]
  simp only [life, hobj, hfilter]
  rfl

theorem Lives.addConnection_self (h : s.Lives cfg) (sockfd : ℕ) :
    (s.addConnection cfg sockfd).life s.accepted =
      { obj :=
          { conn := .new s.accepted sockfd cfg.callbacks, name_ := cfg.connName s.nextConnId_,
            loop_ := (s.getNextLoop cfg).1, alive := true }
        work := fun _ => []
        stages := []
        entries := [(cfg.connName s.nextConnId_, s.accepted)] } := by
  obtain ⟨hwork, hstages, hentries⟩ := h.unborn s.accepted le_rfl
  have hobj : (s.addConnection cfg sockfd).conns s.accepted =
      { conn := .new s.accepted sockfd cfg.callbacks, name_ := cfg.connName s.nextConnId_,
        loop_ := (s.getNextLoop cfg).1, alive := true } := by
    simp [addConnection]
  have herase : (s.erase (cfg.connName s.nextConnId_)).connections_.filter (·.2 = s.accepted) =
      [] := by
    have hlife := congrArg Life.entries (life_erase s s.accepted (cfg.connName s.nextConnId_))
    rw [hentries, List.filter_nil] at hlife
    exact hlife
  have hfilter : (s.addConnection cfg sockfd).connections_.filter (·.2 = s.accepted) =
      [(cfg.connName s.nextConnId_, s.accepted)] := by
    simp [addConnection, herase]
  have hnone : (fun l => ((s.addConnection cfg sockfd).work l).filter (·.isAbout s.accepted)) =
      fun _ => [] := funext hwork
  simp only [life] at hstages
  simp only [life, hobj, hfilter, hnone]
  exact congrArg (fun stages => Life.mk _ _ stages _) hstages

/-- `connectEstablished` is passed to the loop of the connection. -/
theorem newConnection_others (s : TcpServer) (cfg : ServerConfig) (sockfd : ℕ) {j : ℕ}
    (hj : j ≠ s.accepted) :
    (s.newConnection cfg sockfd).life j = (s.addConnection cfg sockfd).life j := by
  have hconn : (ServerFunctor.connection s.accepted .connectEstablished).conn ≠ j := hj.symm
  have habout : (ServerTask.establish s.accepted).isAbout j = false := by
    simp [ServerTask.isAbout, hconn]
  simp only [newConnection]
  by_cases hzero : (s.getNextLoop cfg).1 = 0
  · rw [if_pos hzero]
    have htodo : (s.addConnection cfg sockfd).todo 0 = [] ++ (s.addConnection cfg sockfd).todo 0 :=
      rfl
    have hnew : ∀ t ∈ [ServerTask.establish s.accepted], t.isAbout j = false := by
      simpa using habout
    exact life_setTodo_of_notAbout htodo (List.forall_mem_nil _) hnew
  · rw [if_neg hzero]
    exact life_queueInLoop_of_ne _ hconn

theorem newConnection_self (s : TcpServer) (cfg : ServerConfig) (sockfd : ℕ)
    (hwork : ((s.addConnection cfg sockfd).life s.accepted).work = fun _ => []) :
    (s.newConnection cfg sockfd).life s.accepted =
      { (s.addConnection cfg sockfd).life s.accepted with
        work := Function.update (fun _ => []) (s.getNextLoop cfg).1 [.establish s.accepted] } := by
  have hconn : (ServerFunctor.connection s.accepted .connectEstablished).conn = s.accepted := rfl
  simp only [newConnection]
  by_cases hzero : (s.getNextLoop cfg).1 = 0
  · have hlife := life_setTodo_self (s := s.addConnection cfg sockfd) (k := s.accepted) 0
      [.establish s.accepted] ((s.addConnection cfg sockfd).todo 0)
    have hleft : (s.addConnection cfg sockfd).left s.accepted 0
        ((s.addConnection cfg sockfd).todo 0) = [] := congrFun hwork 0
    have hfilter : [ServerTask.establish s.accepted].filter (·.isAbout s.accepted) =
        [.establish s.accepted] := by
      simp [ServerTask.isAbout, hconn]
    rw [hleft, hfilter, hwork] at hlife
    rw [if_pos hzero, hzero]
    exact hlife
  · rw [if_neg hzero, life_queueInLoop_self _ hconn, Life.queue, hwork, List.nil_append]

theorem newConnection_counters (s : TcpServer) (cfg : ServerConfig) (sockfd : ℕ) :
    (s.newConnection cfg sockfd).accepted = s.accepted + 1 ∧
      (s.newConnection cfg sockfd).nextConnId_ = increment s.nextConnId_ ∧
      (s.newConnection cfg sockfd).next_ = (s.getNextLoop cfg).2 := by
  simp only [newConnection]
  by_cases hzero : (s.getNextLoop cfg).1 = 0
  · rw [if_pos hzero]
    exact ⟨rfl, rfl, rfl⟩
  · rw [if_neg hzero]
    exact ⟨rfl, rfl, rfl⟩

theorem getNextLoop_le (s : TcpServer) {cfg : ServerConfig}
    (h : cfg.numThreads = 0 ∨ s.next_ < cfg.numThreads) :
    (s.getNextLoop cfg).1 ≤ cfg.numThreads ∧
      (cfg.numThreads = 0 ∨ (s.getNextLoop cfg).2 < cfg.numThreads) := by
  simp only [getNextLoop]
  by_cases hzero : cfg.numThreads = 0
  · rw [if_pos hzero]
    exact ⟨by omega, .inl hzero⟩
  · rw [if_neg hzero]
    by_cases hlast : s.next_ + 1 ≥ cfg.numThreads
    · simp only [hlast, if_true]
      omega
    · simp only [hlast, if_false]
      omega

theorem Lives.newConnection (h : s.Lives cfg) (hfew : s.accepted + 1 < 2 ^ 31) (sockfd : ℕ) :
    (s.newConnection cfg sockfd).Lives cfg := by
  have hid := h.ids (by omega)
  obtain ⟨haccepted, hnextid, hnext⟩ := s.newConnection_counters cfg sockfd
  have hpool := s.getNextLoop_le h.pool
  have hothers {j : ℕ} (hj : j ≠ s.accepted) : (s.newConnection cfg sockfd).life j = s.life j := by
    rw [s.newConnection_others cfg sockfd hj, h.addConnection_others hfew sockfd hj]
  have hadd := h.addConnection_self sockfd
  have hself := s.newConnection_self cfg sockfd (by rw [hadd])
  rw [hadd] at hself
  have hobj {j : ℕ} (hj : j ≠ s.accepted) : (s.newConnection cfg sockfd).conns j = s.conns j :=
    congrArg Life.obj (hothers hj)
  have hnew : (s.newConnection cfg sockfd).conns s.accepted =
      { conn := .new s.accepted sockfd cfg.callbacks, name_ := cfg.connName s.nextConnId_,
        loop_ := (s.getNextLoop cfg).1, alive := true } := congrArg Life.obj hself
  have hcases {k : ℕ} (hk : k < (s.newConnection cfg sockfd).accepted) :
      k < s.accepted ∧ k ≠ s.accepted ∨ k = s.accepted := by
    omega
  refine
    { pool := by rw [hnext]; exact hpool.2
      ids := fun hlt => ?_
      named := fun k hk => ?_
      placed := fun k hk => ?_
      relay := fun k hk => ?_
      unborn := fun k hk => ?_ }
  · rw [hnextid, haccepted, hid, increment, if_neg (by omega)]
    push_cast
    rfl
  · rcases hcases hk with ⟨hlt, hne⟩ | rfl
    · rw [hobj hne]
      exact h.named k hlt
    · rw [hnew, hid]
  · rcases hcases hk with ⟨hlt, hne⟩ | rfl
    · rw [hobj hne]
      exact h.placed k hlt
    · rw [hnew]
      exact hpool.1
  · rcases hcases hk with ⟨hlt, hne⟩ | rfl
    · rw [hothers hne]
      exact h.relay k hlt
    · rw [hself]
      exact Relay.born _ rfl rfl rfl
  · rw [haccepted] at hk
    rw [hothers (by omega)]
    exact h.unborn k (by omega)

/-! ## Between the tasks -/

/-- A connection whose channel is in the kernel's set has been established, and is not
destroyed. -/
theorem registered (hl : s.Lives cfg) (hp : s.Pollers) {k : ℕ} (hk : s.Living k)
    (hepoll : (s.poller (s.conns k).loop_).epoll (s.fd k) ≠ none) :
    Stage.connectEstablished ∈ (s.life k).stages ∧
      Stage.connectDestroyed ∉ (s.life k).stages := by
  have hindex : (s.conns k).conn.channel_.index_ ≠ .kNew := by
    intro hnew
    have htracked := (hp.tracked k hk).epoll
    rw [if_neg (by rw [hnew]; simp)] at htracked
    exact hepoll htracked
  constructor
  · by_contra hno
    exact hindex ((hl.relay k hk.1).fresh hno).2
  · exact fun hd => hindex ((hl.relay k hk.1).destroyed hd).2.1

theorem mem_callbacks {a : ActiveChannel} {k : ℕ} {t : ServerTask} (ht : t ∈ s.callbacks a)
    (habout : t.isAbout k = true) :
    (∃ revents, a = .connection k revents) ∧ ∃ cb, t = .handle k cb := by
  cases a with
  | acceptChannel_ =>
      rw [callbacks, List.mem_singleton] at ht
      rw [ht] at habout
      cases habout
  | connection j revents =>
      obtain ⟨cb, -, rfl⟩ := List.mem_map.mp ht
      have hj : j = k := of_decide_eq_true habout
      rw [hj]
      exact ⟨⟨revents, rfl⟩, cb, rfl⟩

theorem Lives.poll (hl : s.Lives cfg) (hp : s.Pollers) {l : ℕ} {active : List ActiveChannel}
    (hen : s.Enabled cfg (.poll l active)) : (s.next cfg (.poll l active)).Lives cfg := by
  obtain ⟨-, hnil, hreport⟩ := hen
  have hlife (k : ℕ) : (s.next cfg (.poll l active)).life k =
      { s.life k with
        work := Function.update (s.life k).work l
          ((active.flatMap s.callbacks).filter (·.isAbout k) ++ (s.life k).work l) } := by
    have htodo := life_setTodo_self (s := s) (k := k) l (active.flatMap s.callbacks) []
    have hleft : s.left k l [] = (s.life k).work l := by
      simp [left, life, work, hnil]
    rwa [List.append_nil, hleft] at htodo
  have hquiet {k : ℕ} (hk : ∀ revents, .connection k revents ∉ active) :
      (s.next cfg (.poll l active)).life k = s.life k := by
    have hfilter : (active.flatMap s.callbacks).filter (·.isAbout k) = [] := by
      rw [List.filter_eq_nil_iff]
      intro t ht habout
      obtain ⟨a, ha, hta⟩ := List.mem_flatMap.mp ht
      obtain ⟨⟨revents, rfl⟩, -⟩ := mem_callbacks hta habout
      exact hk revents ha
    rw [hlife, hfilter, List.nil_append, Function.update_eq_self]
  refine
    { pool := hl.pool, ids := hl.ids, named := hl.named, placed := hl.placed,
      relay := fun k hk => ?_, unborn := fun k hk => ?_ }
  · by_cases hquietk : ∀ revents, .connection k revents ∉ active
    · rw [hquiet hquietk]
      exact hl.relay k hk
    · simp only [not_forall, Classical.not_not] at hquietk
      obtain ⟨revents, hactive⟩ := hquietk
      obtain ⟨hlt, halive, rfl, hepoll⟩ := hreport _ hactive
      obtain ⟨hest, hnd⟩ := registered hl hp ⟨hlt, halive⟩ hepoll
      have hr := hl.relay k hk
      have hnew : ∀ t ∈ (active.flatMap s.callbacks).filter (·.isAbout k),
          ∃ cb, t = .handle k cb := by
        intro t ht
        obtain ⟨ht, habout⟩ := List.mem_filter.mp ht
        obtain ⟨a, -, hta⟩ := List.mem_flatMap.mp ht
        exact (mem_callbacks hta habout).2
      have hreplaces : Replaces k (s.life k).obj.loop_ []
          ((active.flatMap s.callbacks).filter (·.isAbout k)) [] := by
        refine ⟨by simp, fun t ht => ?_, by simp⟩
        obtain ⟨cb, rfl⟩ := hnew t ht
        exact ⟨rfl, rfl, rfl⟩
      have hdown : Stage.handleClose ∈ (s.life k).stages ∨
          .closeCallback k ∈ (s.life k).work (s.life k).obj.loop_ ∨
          .closeCallback k ∈ (active.flatMap s.callbacks).filter (·.isAbout k) →
          (s.life k).obj.conn.state_ = .kDisconnected := by
        intro hd
        rcases hd with hd | hd | hd
        · exact hr.down (.inl hd)
        · exact hr.down (.inr hd)
        · obtain ⟨cb, heq⟩ := hnew _ hd
          cases heq
      have hact : Relay k ((s.life k).act (s.life k).obj.conn
          ((active.flatMap s.callbacks).filter (·.isAbout k) ++
            (s.life k).work (s.life k).obj.loop_ ++ []) []) :=
        hr.act _ (List.nil_append _).symm hreplaces (by simp) (.inl hest) hdown
          (fun hd => absurd hd hnd) halive
      rw [act_self, List.append_nil] at hact
      rw [hlife]
      exact hact
  · rw [hquiet]
    · exact hl.unborn k hk
    · intro revents hactive
      have hlt := (hreport _ hactive).1
      have hge : s.accepted ≤ k := hk
      omega

theorem Lives.doPendingFunctors (h : s.Lives cfg) {l : ℕ}
    (hen : s.Enabled cfg (.doPendingFunctors l)) :
    (s.next cfg (.doPendingFunctors l)).Lives cfg := by
  refine h.of_same (fun k => ?_) rfl rfl rfl
  simp only [life, s.work_doPendingFunctors cfg hen.2]
  rfl

/-- A call of the user's code, which does nothing unless the connection is connected. -/
theorem Lives.call (h : s.Lives cfg) {k : ℕ} (hk : s.Living k)
    {op : TcpConnection → TcpConnection} (hop : (s.seen k).Confined (op (s.seen k)))
    (hidle : (s.seen k).state_ ≠ .kConnected → op (s.seen k) = s.seen k) :
    (s.onConnection k op).Lives cfg := by
  have hr := h.relay k hk.1
  have hsame (hstate : (s.life k).obj.conn.state_ ≠ .kConnected) : op (s.seen k) = s.seen k :=
    hidle hstate
  have hdown : Stage.handleClose ∈ (s.life k).stages ∨
      .closeCallback k ∈ (s.life k).work (s.life k).obj.loop_ ∨
        ServerTask.closeCallback k ∈ [] →
      (op (s.seen k)).state_ = .kDisconnected := by
    intro hd
    have hstate : (s.life k).obj.conn.state_ = .kDisconnected := by
      rcases hd with hd | hd | hd
      · exact hr.down (.inl hd)
      · exact hr.down (.inr hd)
      · cases hd
    rw [hsame (by rw [hstate]; simp)]
    exact hstate
  have hbegun : Stage.connectEstablished ∈ (s.life k).stages ∨ ([] : List ServerTask) = [] ∧
      users k (op (s.seen k)) = [] ∧ ([] : List Stage) = [] ∧
      (op (s.seen k)).state_ = (s.life k).obj.conn.state_ ∧
      (op (s.seen k)).channel_.index_ = (s.life k).obj.conn.channel_.index_ := by
    by_cases hest : Stage.connectEstablished ∈ (s.life k).stages
    · exact .inl hest
    · rw [hsame (by rw [(hr.fresh hest).1]; simp)]
      exact .inr ⟨rfl, rfl, rfl, rfl, rfl⟩
  have hdestroyed : Stage.connectDestroyed ∈ (s.life k).stages →
      ([] : List ServerTask) = [] ∧ (op (s.seen k)).channel_.index_ = .kNew := by
    intro hd
    obtain ⟨herased, hindex, -⟩ := hr.destroyed hd
    rw [hsame (by rw [hr.down (.inl (hr.erased herased).1)]; simp)]
    exact ⟨rfl, hindex⟩
  have hreplaces : Replaces k (s.life k).obj.loop_ [] [] (users k (op (s.seen k))) :=
    ⟨by simp, by simp, fun t ht => mem_users hop ht⟩
  have hact : Relay k ((s.life k).act (op (s.seen k))
      ([] ++ (s.life k).work (s.life k).obj.loop_ ++ users k (op (s.seen k))) []) :=
    hr.act _ (List.nil_append _).symm hreplaces (by simp) hbegun hdown hdestroyed hk.2
  refine h.of_stepOf hk.1
    { others := fun j hj => life_onConnection_of_ne hj.symm op, relay := ?_,
      name_ := by simp [onConnection], loop_ := by simp [onConnection], accepted := rfl,
      nextConnId_ := rfl, next_ := rfl }
  rw [life_onConnection_self]
  exact hact

theorem send_of_not_connected {c : TcpConnection} (h : c.state_ ≠ .kConnected)
    (data : List UInt8) (r : Except Errno ℕ) : c.send data r = c := by
  simp [TcpConnection.send, h]

theorem shutdown_of_not_connected {c : TcpConnection} (h : c.state_ ≠ .kConnected) :
    c.shutdown = c := by
  simp [TcpConnection.shutdown, h]

/-- Nothing refers to the connection: it has been erased and destroyed. -/
theorem Lives.dead (h : s.Lives cfg) {k : ℕ} (hen : s.Enabled cfg (.destroy k)) :
    Relay k { s.life k with obj := { (s.life k).obj with alive := false } } := by
  obtain ⟨hk, -, hentries, hloops⟩ := hen
  have hr := h.relay k hk
  have hnil : (s.life k).entries = [] := by
    rw [life, List.filter_eq_nil_iff]
    intro e he
    simpa using hentries e he
  refine hr.dead hnil (fun l t ht => ?_)
  have hplace := hr.place l t ht
  cases t with
  | functor f =>
      have hl : l ≤ cfg.numThreads := by
        have hhome := h.placed k hk
        cases f with
        | connection j f =>
            rw [hplace.2.1]
            exact hhome
        | removeConnectionInLoop j =>
            rw [hplace.2.1]
            omega
      obtain ⟨htodo, hpending⟩ := hloops l hl
      rcases List.mem_append.mp (List.mem_filter.mp ht).1 with ht | ht
      · exact htodo _ ht
      · obtain ⟨g, hg, heq⟩ := List.mem_map.mp ht
        obtain rfl := ServerTask.functor.inj heq
        exact decide_eq_false (hpending g hg)
  | _ => rfl

theorem work_destroy (s : TcpServer) (k : ℕ) : (s.destroy k).work = s.work := by
  funext l
  by_cases hl : l = (s.conns k).loop_
  · simp [work, TcpServer.destroy, hl]
  · simp [work, TcpServer.destroy, hl]

theorem Lives.destroy (h : s.Lives cfg) {k : ℕ} (hen : s.Enabled cfg (.destroy k)) :
    (s.destroy k).Lives cfg ∧ (s.conns k).conn.channel_.index_ = .kNew := by
  have hdead := h.dead hen
  have hobj : (s.destroy k).conns k = { s.conns k with alive := false } := by
    simp [TcpServer.destroy]
  have hself : (s.destroy k).life k =
      { s.life k with obj := { (s.life k).obj with alive := false } } := by
    simp only [life, s.work_destroy k, hobj]
    rfl
  have hindex : (s.conns k).conn.channel_.index_ = .kNew :=
    (hdead.destroyed (hdead.gone rfl).1).2.1
  refine ⟨h.of_stepOf hen.1
    { others := fun j hj => ?_, relay := by rw [hself]; exact hdead, name_ := by rw [hobj],
      loop_ := by rw [hobj], accepted := rfl, nextConnId_ := rfl, next_ := rfl }, hindex⟩
  have hconn : (s.destroy k).conns j = s.conns j := by
    simp [TcpServer.destroy, hj]
  simp only [life, s.work_destroy k, hconn]
  rfl

/-! ## The tasks -/

/-- The lives of the connections and the pollers are in order. -/
structure InOrder (s : TcpServer) (cfg : ServerConfig) : Prop where
  lives : s.Lives cfg
  pollers : s.Pollers

theorem InOrder.living (h : s.InOrder cfg) {l k : ℕ} {t : ServerTask} {rest : List ServerTask}
    (htodo : s.todo l = t :: rest) (ht : t.isAbout k = true) : s.Living k := by
  have hk := h.lives.lt_of_todo htodo ht
  exact ⟨hk, (expected_of_todo (h.lives.relay k hk) htodo ht).2⟩

theorem InOrder.acceptorRead (h : s.InOrder cfg) {l : ℕ} {o : ServerInput} {rest : List ServerTask}
    (htodo : s.todo l = .acceptorRead :: rest) (haccept : s.CanAccept o.accepted)
    (hfew : (s.runTask cfg l o rest .acceptorRead).accepted < 2 ^ 31) :
    (s.runTask cfg l o rest .acceptorRead).InOrder cfg := by
  have hlives : (s.setTodo l rest).Lives cfg :=
    h.lives.of_same (fun _ => life_others_rest htodo rfl) rfl rfl rfl
  have hpollers := h.pollers.setTodo l rest
  cases hfd : o.accepted with
  | none =>
      simp only [runTask, hfd]
      exact ⟨hlives, hpollers⟩
  | some sockfd =>
      rw [hfd] at haccept
      simp only [runTask, hfd] at hfew ⊢
      rw [((s.setTodo l rest).newConnection_counters cfg sockfd).1] at hfew
      exact ⟨hlives.newConnection hfew sockfd, hpollers.newConnection cfg haccept⟩

theorem InOrder.handle (h : s.InOrder cfg) {l k : ℕ} {cb : EventCallback} (o : ServerInput)
    {rest : List ServerTask} (htodo : s.todo l = .handle k cb :: rest) :
    (s.runTask cfg l o rest (.handle k cb)).InOrder cfg := by
  have habout : (ServerTask.handle k cb).isAbout k = true := by simp [ServerTask.isAbout]
  have hk := h.living htodo habout
  have hr := h.lives.relay k hk.1
  have hpollers (tasks : List ServerTask) (op : TcpConnection → TcpConnection)
      (hop : (s.seen k).Confined (op (s.seen k))) (stage : Stage) :
      (((s.setTodo l tasks).onConnection k op).mark k stage).Pollers :=
    ((h.pollers.setTodo l tasks).onConnection hk op hop).mark k stage
  cases cb with
  | closeCallback_ =>
      have hop := (s.seen k).confined_setDisconnected
      have hstep := stepOf_handler hr htodo [.closeCallback k] _ hop
        (by simp [ServerTask.isEvent, ServerTask.Expected]) (.inl rfl)
      exact ⟨h.lives.of_stepOf hk.1 hstep, hpollers _ _ hop _⟩
  | errorCallback_ =>
      exact ⟨h.lives.of_stepOf hk.1 (stepOf_error hr htodo), (h.pollers.setTodo l rest).mark _ _⟩
  | readCallback_ =>
      have hop := (s.seen k).confined_readInput o.received
      have hstate : ((s.seen k).readInput o.received).1.state_ = (s.conns k).conn.state_ :=
        TcpConnection.readInput_state_ _ _
      have hstep (new : List ServerTask) (hnew : ∀ t ∈ new, t = .handle k .closeCallback_) :=
        stepOf_handler hr htodo new (fun c => (c.readInput o.received).1) hop
          (fun t ht => by rw [hnew t ht]; exact ⟨rfl, rfl, rfl⟩)
          (.inr ⟨hstate, fun ht => by cases hnew _ ht⟩)
      simp only [runTask]
      by_cases hclosed : ((s.conns k).conn.readInput o.received).2 = true
      · rw [if_pos hclosed]
        exact ⟨h.lives.of_stepOf hk.1 (hstep [.handle k .closeCallback_] (by simp)),
          hpollers _ _ hop _⟩
      · rw [if_neg hclosed]
        exact ⟨h.lives.of_stepOf hk.1 (hstep [] (by simp)), hpollers _ _ hop _⟩
  | writeCallback_ =>
      have hop := (s.seen k).confined_handleWrite o.written
      have hstep := stepOf_handler hr htodo [] (fun c => c.handleWrite o.written) hop (by simp)
        (.inr ⟨TcpConnection.handleWrite_state_ _ _, by simp⟩)
      exact ⟨h.lives.of_stepOf hk.1 hstep, hpollers _ _ hop _⟩

theorem InOrder.functor (h : s.InOrder cfg) (hfew : s.accepted < 2 ^ 31) {l : ℕ}
    {f : ServerFunctor} (o : ServerInput) {rest : List ServerTask}
    (htodo : s.todo l = .functor f :: rest) :
    (s.runTask cfg l o rest (.functor f)).InOrder cfg := by
  have habout : (ServerTask.functor f).isAbout f.conn = true := by simp [ServerTask.isAbout]
  have hk := h.living htodo habout
  have hr := h.lives.relay f.conn hk.1
  have hpollers := h.pollers.setTodo l rest
  cases f with
  | removeConnectionInLoop k =>
      have hstep := stepOf_removeConnectionInLoop hr (h.lives.namesApart hfew hk.1) htodo
      exact ⟨h.lives.of_stepOf hk.1 hstep, hpollers.removeConnectionInLoop k⟩
  | connection k f =>
      have hexp := (expected_of_todo hr htodo habout).1
      rcases hexp.2.2 with rfl | rfl | hf
      · have hop := (s.seen k).confined_connectEstablished
        exact ⟨h.lives.of_stepOf hk.1 (stepOf_connectEstablished hr htodo),
          (hpollers.onConnection hk _ hop).mark k _⟩
      · have hop := (s.seen k).confined_connectDestroyed
        exact ⟨h.lives.of_stepOf hk.1 (stepOf_connectDestroyed hr htodo),
          (hpollers.onConnection hk _ hop).mark k _⟩
      · have hrun : s.runTask cfg l o rest (.functor (.connection k f)) = s.setTodo l rest := by
          cases f with
          | writeCompleteCallback_ => rfl
          | highWaterMarkCallback_ bytes => rfl
          | _ => cases hf
        rw [hrun]
        exact ⟨h.lives.of_stepOf hk.1 (stepOf_user hr htodo hf), hpollers⟩

theorem InOrder.closeCallback (h : s.InOrder cfg) (hfew : s.accepted < 2 ^ 31) {l k : ℕ}
    (o : ServerInput) {rest : List ServerTask} (htodo : s.todo l = .closeCallback k :: rest) :
    (s.runTask cfg l o rest (.closeCallback k)).InOrder cfg := by
  have habout : (ServerTask.closeCallback k).isAbout k = true := by simp [ServerTask.isAbout]
  have hk := h.living htodo habout
  have hop := (s.seen k).confined_invoke .closeCallback_
  have hstep := stepOf_closeCallback (h.lives.relay k hk.1) (h.lives.namesApart hfew hk.1) htodo
  have hpollers := ((h.pollers.setTodo l rest).onConnection hk
    (fun c => c.invoke .closeCallback_) hop).mark k .handleClose
  exact ⟨h.lives.of_stepOf hk.1 hstep, hpollers.removeConnection l k⟩

/-! ## Runs -/

theorem accepted_le_runTask (s : TcpServer) (cfg : ServerConfig) (l : ℕ) (o : ServerInput)
    (rest : List ServerTask) (task : ServerTask) :
    s.accepted ≤ (s.runTask cfg l o rest task).accepted := by
  cases task with
  | acceptorRead =>
      cases hfd : o.accepted with
      | none =>
          simp only [runTask, hfd]
          exact le_rfl
      | some sockfd =>
          simp only [runTask, hfd]
          rw [((s.setTodo l rest).newConnection_counters cfg sockfd).1]
          exact Nat.le_succ s.accepted
  | handle k cb => cases cb <;> exact le_rfl
  | closeCallback k =>
      by_cases hl : l = 0
      · simp only [runTask, removeConnection, hl, if_true]
        exact le_rfl
      · simp only [runTask, removeConnection, hl, if_false]
        exact le_rfl
  | functor f =>
      cases f with
      | connection k f => cases f <;> exact le_rfl
      | removeConnectionInLoop k => exact le_rfl

/-- No connection that has been accepted is forgotten. -/
theorem accepted_le_next (s : TcpServer) (cfg : ServerConfig) (a : ServerAction) :
    s.accepted ≤ (s.next cfg a).accepted := by
  cases a with
  | execute l o =>
      cases htodo : s.todo l with
      | nil =>
          simp only [next, htodo]
          exact le_rfl
      | cons task rest =>
          simp only [next, htodo]
          exact s.accepted_le_runTask cfg l o rest task
  | _ => exact le_rfl

theorem InOrder.next (h : s.InOrder cfg) {a : ServerAction} (hen : s.Enabled cfg a)
    (hfew : (s.next cfg a).accepted < 2 ^ 31) : (s.next cfg a).InOrder cfg := by
  have hfew' := lt_of_le_of_lt (s.accepted_le_next cfg a) hfew
  cases a with
  | poll l active =>
      exact ⟨h.lives.poll h.pollers hen, h.pollers.setTodo l _⟩
  | doPendingFunctors l =>
      refine ⟨h.lives.doPendingFunctors hen, h.pollers.of_eq rfl rfl (fun l' => ?_)⟩
      by_cases hl : l' = l
      · simp [poller, TcpServer.next, hl]
      · simp [poller, TcpServer.next, hl]
  | execute l o =>
      cases htodo : s.todo l with
      | nil => exact absurd htodo hen.1
      | cons task rest =>
          simp only [TcpServer.next, htodo] at hfew ⊢
          cases task with
          | acceptorRead => exact h.acceptorRead htodo hen.2 hfew
          | handle k cb => exact h.handle o htodo
          | closeCallback k => exact h.closeCallback hfew' o htodo
          | functor f => exact h.functor hfew' o htodo
  | send k data written =>
      have hk : s.Living k := ⟨hen.1, hen.2.1⟩
      have hop := (s.seen k).confined_send data written
      exact ⟨h.lives.call hk hop (fun hstate => send_of_not_connected hstate data written),
        h.pollers.onConnection hk _ hop⟩
  | shutdown k =>
      have hk : s.Living k := ⟨hen.1, hen.2.1⟩
      have hop := (s.seen k).confined_shutdown
      exact ⟨h.lives.call hk hop shutdown_of_not_connected, h.pollers.onConnection hk _ hop⟩
  | destroy k =>
      obtain ⟨hlives, hindex⟩ := h.lives.destroy hen
      exact ⟨hlives, h.pollers.destroy ⟨hen.1, hen.2.1⟩ hindex⟩

theorem inOrder_of_runs {as : List ServerAction} (hruns : (tcpServer cfg).Runs {} as)
    (hfew : ((tcpServer cfg).run {} as).accepted < 2 ^ 31) :
    ((tcpServer cfg).run {} as).InOrder cfg := by
  have hstep (s : TcpServer) (a : ServerAction) (h : s.accepted < 2 ^ 31 → s.InOrder cfg)
      (hen : s.Enabled cfg a) :
      (s.next cfg a).accepted < 2 ^ 31 → (s.next cfg a).InOrder cfg := fun hlt =>
    (h (lt_of_le_of_lt (s.accepted_le_next cfg a) hlt)).next hen hlt
  exact (tcpServer cfg).invariant_of_runs hstep (fun _ => ⟨lives_initial cfg, pollers_initial⟩)
    hruns hfew

/-! ## What holds in every state -/

/-- The stages that the connection `k` has reached. -/
def stages (s : TcpServer) (k : ℕ) : List Stage := (s.life k).stages

/-- The entries of the connection `k` in `connections_`. -/
def entries (s : TcpServer) (k : ℕ) : List (List UInt8 × ℕ) := s.connections_.filter (·.2 = k)

/-- Up to `removeConnectionInLoop` a connection has one entry, under a name that no other
connection has. -/
def OneEntry (s : TcpServer) : Prop :=
  ∀ k < s.accepted, .removeConnectionInLoop ∉ s.stages k →
    s.entries k = [((s.conns k).name_, k)] ∧
      ∀ j < s.accepted, j ≠ k → (s.conns j).name_ ≠ (s.conns k).name_

/-- No functor is queued in a loop, or has been taken out of the queue and not yet been run. -/
def NoFunctor (s : TcpServer) : Prop :=
  ∀ l, (s.loops l).pendingFuntors_ = [] ∧ ∀ t ∈ s.todo l, t.isEvent = true

/-- The connection `k` has no entry, and no poller has its channel: a descriptor in the set of
the kernel belongs to another connection. -/
def Removed (s : TcpServer) (k : ℕ) : Prop :=
  s.entries k = [] ∧ (∀ l f, (s.poller l).channels_ f ≠ some k) ∧
    ∀ l f, (s.poller l).epoll f ≠ none →
      ∃ j, j ≠ k ∧ s.Living j ∧ (s.conns j).loop_ = l ∧ s.fd j = f

theorem InOrder.oneEntry (h : s.InOrder cfg) (hfew : s.accepted < 2 ^ 31) : s.OneEntry := by
  intro k hk hno
  have hentry := (h.lives.relay k hk).entry
  have hstages : Stage.removeConnectionInLoop ∉ (s.life k).stages := hno
  rw [if_neg hstages] at hentry
  exact ⟨hentry, fun j hj hjk => h.lives.name_ne hfew hj hk hjk⟩

theorem InOrder.ordered (h : s.InOrder cfg) (k : ℕ) : Ordered (s.stages k) := by
  by_cases hk : k < s.accepted
  · exact (h.lives.relay k hk).ordered
  · have hnil : s.stages k = [] := (h.lives.unborn k (by omega)).2.1
    intro before st after heq
    rw [hnil] at heq
    simp at heq

/-- Without functors the relay has reached its end. -/
theorem InOrder.removed (h : s.InOrder cfg) (hnone : s.NoFunctor) {k : ℕ}
    (hclosed : .handleClose ∈ s.stages k) : s.Removed k := by
  have hk : k < s.accepted := by
    by_contra hge
    have hnil : s.stages k = [] := (h.lives.unborn k (by omega)).2.1
    rw [hnil] at hclosed
    cases hclosed
  have hr := h.lives.relay k hk
  have hnot (l : ℕ) (f : ServerFunctor) : ServerTask.functor f ∉ (s.life k).work l := by
    intro hmem
    obtain ⟨hpending, htodo⟩ := hnone l
    have hmem := (List.mem_filter.mp hmem).1
    rw [work, hpending, List.map_nil, List.append_nil] at hmem
    cases htodo _ hmem
  have herased := (hr.closed hclosed).resolve_right (hnot 0 _)
  have hdestroyed := (hr.erased herased).2.resolve_right (hnot _ _)
  have hindex : (s.conns k).conn.channel_.index_ = .kNew := (hr.destroyed hdestroyed).2.1
  have hentry := hr.entry
  rw [if_pos herased] at hentry
  refine ⟨hentry, fun l f hf => ?_, fun l f hf => ?_⟩
  · obtain ⟨hliving, rfl, rfl⟩ := h.pollers.channels l f k hf
    have hchannels := (h.pollers.tracked k hliving).channels
    rw [if_pos hindex, ← fd, hf] at hchannels
    cases hchannels
  · obtain ⟨j, hliving, hloop, hfd⟩ := h.pollers.epoll l f hf
    refine ⟨j, ?_, hliving, hloop, hfd⟩
    rintro rfl
    have hepoll := (h.pollers.tracked j hliving).epoll
    rw [if_neg (by rw [show (s.conns j).conn.channel_.index_ = .kNew from hindex]; simp), ← fd,
      hloop, hfd] at hepoll
    exact hf hepoll

/-- In every run of the loops of a server, in which fewer than `2 ^ 31` connections have been
accepted: each connection has one entry until it is removed, under a name of its own; its stages
come in order; and when no functor is left, a connection that has been closed is gone from
`connections_` and from every poller. -/
theorem lifecycle_of_runs {as : List ServerAction} (hruns : (tcpServer cfg).Runs {} as)
    (hfew : ((tcpServer cfg).run {} as).accepted < 2 ^ 31) :
    ((tcpServer cfg).run {} as).OneEntry ∧
      (∀ k, Ordered (((tcpServer cfg).run {} as).stages k)) ∧
      (((tcpServer cfg).run {} as).NoFunctor →
        ∀ k, .handleClose ∈ ((tcpServer cfg).run {} as).stages k →
          ((tcpServer cfg).run {} as).Removed k) := by
  have h := inOrder_of_runs hruns hfew
  exact ⟨h.oneEntry hfew, h.ordered, fun hnone _ hclosed => h.removed hnone hclosed⟩

/-- A server with one io loop. -/
def oneIoLoop : ServerConfig := ⟨[115], ⟨(127, 0, 0, 1), 8000⟩, 1, {}⟩

/-- A connection is accepted, established in the io loop and hung up by the peer. The functor
that erases its entry runs in the server's loop, and the one that destroys it in the io loop. -/
def acceptedAndHungUp : List ServerAction :=
  [.poll 0 [.acceptChannel_], .execute 0 { accepted := some 7 }, .doPendingFunctors 1,
    .execute 1 {}, .poll 1 [.connection 0 EPOLLHUP], .execute 1 {}, .execute 1 {},
    .doPendingFunctors 0, .execute 0 {}, .doPendingFunctors 1, .execute 1 {}]

theorem lifecycle_acceptedAndHungUp :
    ((tcpServer oneIoLoop).run {} acceptedAndHungUp).OneEntry ∧
      (∀ k, Ordered (((tcpServer oneIoLoop).run {} acceptedAndHungUp).stages k)) ∧
      (((tcpServer oneIoLoop).run {} acceptedAndHungUp).NoFunctor →
        ∀ k, .handleClose ∈ ((tcpServer oneIoLoop).run {} acceptedAndHungUp).stages k →
          ((tcpServer oneIoLoop).run {} acceptedAndHungUp).Removed k) :=
  lifecycle_of_runs (by decide +kernel) (by decide +kernel)

end TcpServer

end CkServer
