import CkServer.Verification.Server.Relay
import CkServer.Verification.Tcp.Confined

/-! # The lives of the connections of a server

A step of a server is a step in the life of one connection at most, apart from `poll`, and
leaves the lives of the others as they are. -/

namespace CkServer

namespace TcpServer

/-- The tasks of a loop in the order in which they will be done. -/
def work (s : TcpServer) (l : ℕ) : List ServerTask :=
  s.todo l ++ (s.loops l).pendingFuntors_.map .functor

def life (s : TcpServer) (k : ℕ) : Life where
  obj := s.conns k
  work l := (s.work l).filter (·.isAbout k)
  stages := (s.trace.filter (·.1 = k)).map (·.2)
  entries := s.connections_.filter (·.2 = k)

/-- A connection as its operations find it. -/
def seen (s : TcpServer) (k : ℕ) : TcpConnection :=
  { (s.conns k).conn with loop_ := { poller_ := (s.loops (s.conns k).loop_).poller_ } }

/-- The functors that an operation has queued. -/
def users (k : ℕ) (c : TcpConnection) : List ServerTask :=
  c.loop_.pendingFuntors_.map (fun f => .functor (.connection k f))

variable (s : TcpServer)

/-! ## The parts of a step -/

theorem work_setTodo (l : ℕ) (tasks : List ServerTask) :
    (s.setTodo l tasks).work =
      Function.update s.work l (tasks ++ (s.loops l).pendingFuntors_.map .functor) := by
  funext l'
  by_cases hl : l' = l
  · simp [work, setTodo, hl]
  · simp [work, setTodo, hl]

theorem work_queueInLoop (l : ℕ) (f : ServerFunctor) :
    (s.queueInLoop l f).work = Function.update s.work l (s.work l ++ [.functor f]) := by
  funext l'
  by_cases hl : l' = l
  · simp [work, queueInLoop, EventLoop.queueInLoop, hl]
  · simp [work, queueInLoop, hl]

theorem work_onConnection (k : ℕ) (op : TcpConnection → TcpConnection) :
    (s.onConnection k op).work =
      Function.update s.work (s.conns k).loop_
        (s.work (s.conns k).loop_ ++ users k (op (s.seen k))) := by
  funext l
  by_cases hl : l = (s.conns k).loop_
  · rw [hl, Function.update_self]
    simp only [work, onConnection, users, seen, Function.update_self, List.map_append, List.map_map,
      List.append_assoc]
    rfl
  · simp [work, onConnection, hl]

theorem work_doPendingFunctors (cfg : ServerConfig) {l : ℕ} (h : s.todo l = []) :
    (s.next cfg (.doPendingFunctors l)).work = s.work := by
  funext l'
  by_cases hl : l' = l
  · simp [work, next, hl, h]
  · simp [work, next, hl]

theorem filter_update (k l : ℕ) (work : ℕ → List ServerTask) (tasks : List ServerTask) :
    (fun l' => (Function.update work l tasks l').filter (·.isAbout k)) =
      Function.update (fun l' => (work l').filter (·.isAbout k)) l
        (tasks.filter (·.isAbout k)) := by
  funext l'
  by_cases hl : l' = l
  · simp [hl]
  · simp [hl]

theorem filter_users (j k : ℕ) (c : TcpConnection) :
    (users j c).filter (·.isAbout k) = if j = k then users k c else [] := by
  by_cases hjk : j = k
  · rw [if_pos hjk, hjk, List.filter_eq_self]
    intro t ht
    obtain ⟨f, -, rfl⟩ := List.mem_map.mp ht
    simp [ServerTask.isAbout, ServerFunctor.conn]
  · rw [if_neg hjk, List.filter_eq_nil_iff]
    intro t ht
    obtain ⟨f, -, rfl⟩ := List.mem_map.mp ht
    simp [ServerTask.isAbout, ServerFunctor.conn, hjk]

/-! ## The other connections -/

variable {s} {j k : ℕ}

theorem life_mark_of_ne (hjk : j ≠ k) (st : Stage) : (s.mark j st).life k = s.life k := by
  simp [life, mark, work, hjk]

theorem life_onConnection_of_ne (hjk : j ≠ k) (op : TcpConnection → TcpConnection) :
    (s.onConnection j op).life k = s.life k := by
  have hobj : (s.onConnection j op).conns k = s.conns k := by
    simp [onConnection, Ne.symm hjk]
  have hwork : (fun l => ((s.onConnection j op).work l).filter (·.isAbout k)) =
      fun l => (s.work l).filter (·.isAbout k) := by
    rw [work_onConnection, filter_update, List.filter_append, filter_users, if_neg hjk,
      List.append_nil, Function.update_eq_self]
  simp only [life, hobj, hwork]
  rfl

theorem life_queueInLoop_of_ne (l : ℕ) {f : ServerFunctor} (hf : f.conn ≠ k) :
    (s.queueInLoop l f).life k = s.life k := by
  have hwork : (fun l' => ((s.queueInLoop l f).work l').filter (·.isAbout k)) =
      fun l' => (s.work l').filter (·.isAbout k) := by
    rw [work_queueInLoop, filter_update, List.filter_append]
    simp [ServerTask.isAbout, hf]
  simp only [life, hwork]
  rfl

/-- Tasks about other connections come in the place of tasks about other connections. -/
theorem life_setTodo_of_notAbout {l : ℕ} {old new rest : List ServerTask}
    (htodo : s.todo l = old ++ rest) (hold : ∀ t ∈ old, t.isAbout k = false)
    (hnew : ∀ t ∈ new, t.isAbout k = false) : (s.setTodo l (new ++ rest)).life k = s.life k := by
  have hnil {ts : List ServerTask} (h : ∀ t ∈ ts, t.isAbout k = false) :
      ts.filter (·.isAbout k) = [] := by
    rw [List.filter_eq_nil_iff]
    intro t ht
    rw [h t ht]
    simp
  have hwork : (fun l' => ((s.setTodo l (new ++ rest)).work l').filter (·.isAbout k)) =
      fun l' => (s.work l').filter (·.isAbout k) := by
    rw [work_setTodo, filter_update, Function.update_eq_iff]
    refine ⟨?_, fun _ _ => rfl⟩
    simp only [work, htodo, List.filter_append, hnil hold, hnil hnew]
  simp only [life, hwork]
  rfl

/-! ## The connection of a step -/

theorem life_mark_self (st : Stage) :
    (s.mark k st).life k = { s.life k with stages := (s.life k).stages ++ [st] } := by
  simp [life, mark, work]

theorem life_queueInLoop_self (l : ℕ) {f : ServerFunctor} (hf : f.conn = k) :
    (s.queueInLoop l f).life k = (s.life k).queue l (.functor f) := by
  have hwork : (fun l' => ((s.queueInLoop l f).work l').filter (·.isAbout k)) =
      ((s.life k).queue l (.functor f)).work := by
    rw [work_queueInLoop, filter_update, List.filter_append]
    simp [ServerTask.isAbout, hf, Life.queue, life]
  simp only [life, hwork]
  rfl

theorem life_onConnection_self (op : TcpConnection → TcpConnection) :
    (s.onConnection k op).life k =
      (s.life k).act (op (s.seen k))
        ((s.life k).work (s.conns k).loop_ ++ users k (op (s.seen k))) [] := by
  have hwork : (fun l => ((s.onConnection k op).work l).filter (·.isAbout k)) =
      Function.update (s.life k).work (s.conns k).loop_
        ((s.life k).work (s.conns k).loop_ ++ users k (op (s.seen k))) := by
    rw [work_onConnection, filter_update, List.filter_append, filter_users, if_pos rfl]
    rfl
  have hobj : (s.onConnection k op).conns k = { s.conns k with conn := op (s.seen k) } := by
    simp [onConnection, seen]
  simp only [life, hwork, hobj, Life.act, List.append_nil]
  rfl

/-- The tasks of the connection `k` in the loop `l` when `rest` is still to be done. -/
def left (s : TcpServer) (k l : ℕ) (rest : List ServerTask) : List ServerTask :=
  (rest ++ (s.loops l).pendingFuntors_.map ServerTask.functor).filter (·.isAbout k)

theorem life_setTodo_self (l : ℕ) (new rest : List ServerTask) :
    (s.setTodo l (new ++ rest)).life k =
      { s.life k with
        work := Function.update (s.life k).work l
          (new.filter (·.isAbout k) ++ s.left k l rest) } := by
  have hwork : (fun l' => ((s.setTodo l (new ++ rest)).work l').filter (·.isAbout k)) =
      Function.update (s.life k).work l (new.filter (·.isAbout k) ++ s.left k l rest) := by
    rw [work_setTodo, filter_update, List.append_assoc, List.filter_append]
    rfl
  simp only [life, hwork]
  rfl

theorem work_life_of_todo {l : ℕ} {old rest : List ServerTask} (htodo : s.todo l = old ++ rest) :
    (s.life k).work l = old.filter (·.isAbout k) ++ s.left k l rest := by
  simp only [life, work, htodo, left, List.filter_append, List.append_assoc]

theorem life_setTodo_onConnection (new rest : List ServerTask)
    (op : TcpConnection → TcpConnection) :
    ((s.setTodo (s.conns k).loop_ (new ++ rest)).onConnection k op).life k =
      (s.life k).act (op (s.seen k))
        (new.filter (·.isAbout k) ++ s.left k (s.conns k).loop_ rest ++ users k (op (s.seen k)))
        [] := by
  have hseen : (s.setTodo (s.conns k).loop_ (new ++ rest)).seen k = s.seen k := rfl
  have hloop : (s.life k).obj.loop_ = (s.conns k).loop_ := rfl
  rw [life_onConnection_self, life_setTodo_self, hseen]
  simp [Life.act, setTodo, hloop]

theorem act_mark (v : Life) (conn : TcpConnection) (work : List ServerTask) (stages : List Stage)
    (st : Stage) :
    { v.act conn work stages with stages := (v.act conn work stages).stages ++ [st] } =
      v.act conn work (stages ++ [st]) := by
  simp [Life.act]

/-- An operation queues user callbacks of its connection. -/
theorem mem_users {op : TcpConnection → TcpConnection} (hop : (s.seen k).Confined (op (s.seen k)))
    {home : ℕ} {t : ServerTask} (ht : t ∈ users k (op (s.seen k))) :
    t.isEvent = false ∧ t.isPlain = true ∧ t.Expected k home home := by
  obtain ⟨f, hf, rfl⟩ := List.mem_map.mp ht
  obtain ⟨cbs, hcbs, heq⟩ := hop.queues
  have hnil : (s.seen k).loop_.pendingFuntors_ = [] := rfl
  rw [heq, hnil, List.nil_append] at hf
  exact ⟨rfl, hcbs f hf, rfl, rfl, .inr (.inr (hcbs f hf))⟩

end TcpServer

end CkServer
