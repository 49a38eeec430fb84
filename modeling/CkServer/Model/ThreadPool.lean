import CkServer.Library.Machine
import CkServer.Model.Format
import Mathlib.Logic.Function.Basic

/-! # The start of a pool

`EventLoopThreadPool::start` makes its threads one after another. It waits for the semaphore of
`Thread::start`, and in `startLoop` for the address of the loop that `threadFunc` makes. A step is
a call or a critical section of `mutex_`; `cond_.wait` gives the mutex back and blocks in the step
in which it is called. -/

namespace CkServer

open Text

/-- What the pool is made and started with. `cb` tells whether there is a callback. -/
structure ThreadPoolConfig where
  baseLoop_ : ℕ
  name_ : List UInt8
  numThreads_ : Int32
  cb : Bool

/-- The name that `start` prints for a thread. -/
def ThreadPoolConfig.threadName (cfg : ThreadPoolConfig) (i : ℕ) : List UInt8 :=
  snprintf (cfg.name_.length + 32) (cfg.name_.takeWhile (· ≠ 0) ++ printInt i)

/-- Where a thread of the pool is, in the function that `Thread::start` runs and then in
`threadFunc`. -/
inductive FuncPc where
  /-- Before the store to `tid_`. -/
  | begun
  /-- Before `sem_post`. -/
  | posting
  /-- Before the constructor of the loop. -/
  | making
  /-- Before the callback. -/
  | calling
  /-- Before the first critical section. -/
  | publishing
  | looping
  /-- Before the last critical section. -/
  | leaving
  | ended
  deriving DecidableEq

/-- The local variable `loop` is alive. -/
def FuncPc.hasLoop : FuncPc → Bool
  | .calling | .publishing | .looping | .leaving => true
  | .begun | .posting | .making | .ended => false

/-- A `Thread` with its `EventLoopThread`. `sem` is the semaphore of `Thread::start`, `loop` the
address of the local variable of `threadFunc`, and a null pointer in `loop_` is `none`. -/
structure PoolThread where
  name_ : List UInt8 := []
  pc : FuncPc := .begun
  tid_ : ℕ := 0
  sem : ℕ := 0
  loop : ℕ := 0
  loop_ : Option ℕ := none

/-- Where `start` is. -/
inductive StartPc where
  /-- Before the test of the `for` loop. -/
  | testing
  /-- In `Thread::start`, before `sem_wait` is over. -/
  | semWait
  /-- In `startLoop`, before it has the mutex. -/
  | locking
  /-- Blocked in `cond_.wait`. -/
  | waiting
  | returned
  deriving DecidableEq

/-- The state. `i` is the variable of the `for` loop and `created` the length of `threads_`. The
last field is history: the calls of the callback, with the thread of the pool in which it is called
and the address it gets. -/
structure ThreadPool where
  pc : StartPc := .testing
  i : ℕ := 0
  threads : ℕ → PoolThread := fun _ => {}
  created : ℕ := 0
  loops_ : List ℕ := []
  numCreated_ : ℤ := 0
  inits : List (Option ℕ × ℕ) := []

inductive ThreadPoolAction where
  /-- The next thread is made and started. -/
  | create
  /-- The end of the `for` loop. -/
  | finish
  /-- `sem_wait` returns. -/
  | semWait
  /-- `startLoop` gets the mutex, for the first time or after a wait, and tests `loop_`. -/
  | lock
  /-- `cond_.wait` ends without a call of `notify_one`. -/
  | wakeSpuriously
  | setTid (k tid : ℕ)
  | post (k : ℕ)
  | construct (k address : ℕ)
  | callback (k : ℕ)
  /-- The first critical section of `threadFunc`. -/
  | publish (k : ℕ)
  /-- `loop()` returns, because someone has called `quit`. -/
  | leave (k : ℕ)
  /-- The last critical section, and the end of the thread. -/
  | finishThread (k : ℕ)

namespace ThreadPool

def setThread (s : ThreadPool) (k : ℕ) (t : PoolThread) : ThreadPool :=
  { s with threads := Function.update s.threads k t }

/-- `setDefaultName` for the number that `numCreated_` has had. -/
def setDefaultName (num : ℤ) (name_ : List UInt8) : List UInt8 :=
  if name_ = [] then snprintf 32 (ascii "Thread" ++ printInt num) else name_

/-- `notify_one` on the condition of thread `k`. -/
def notify (s : ThreadPool) (k : ℕ) : ThreadPool :=
  if s.pc = .waiting ∧ s.i = k then { s with pc := .locking } else s

def create (s : ThreadPool) (cfg : ThreadPoolConfig) : ThreadPool :=
  { s.setThread s.created { name_ := setDefaultName s.numCreated_ (cfg.threadName s.i) } with
    pc := .semWait
    created := s.created + 1
    numCreated_ := s.numCreated_ + 1 }

/-- The critical section of `startLoop`, up to `cond_.wait` or its end. -/
def lock (s : ThreadPool) : ThreadPool :=
  match (s.threads s.i).loop_ with
  | some loop => { s with loops_ := s.loops_ ++ [loop], i := s.i + 1, pc := .testing }
  | none => { s with pc := .waiting }

def next (cfg : ThreadPoolConfig) (s : ThreadPool) : ThreadPoolAction → ThreadPool
  | .create => s.create cfg
  | .finish =>
      { s with
        pc := .returned
        inits := if cfg.numThreads_ = 0 ∧ cfg.cb then s.inits ++ [(none, cfg.baseLoop_)]
          else s.inits }
  | .semWait =>
      let t := s.threads s.i
      { s.setThread s.i { t with sem := t.sem - 1 } with pc := .locking }
  | .lock => s.lock
  | .wakeSpuriously => { s with pc := .locking }
  | .setTid k tid => s.setThread k { s.threads k with tid_ := tid, pc := .posting }
  | .post k =>
      let t := s.threads k
      s.setThread k { t with sem := t.sem + 1, pc := .making }
  | .construct k address => s.setThread k { s.threads k with loop := address, pc := .calling }
  | .callback k =>
      let t := s.threads k
      { s.setThread k { t with pc := .publishing } with
        inits := if cfg.cb then s.inits ++ [(some k, t.loop)] else s.inits }
  | .publish k =>
      let t := s.threads k
      (s.setThread k { t with loop_ := some t.loop, pc := .looping }).notify k
  | .leave k => s.setThread k { s.threads k with pc := .leaving }
  | .finishThread k => s.setThread k { s.threads k with loop_ := none, pc := .ended }

/-- A loop is at an address where no other loop is alive. -/
def Enabled (cfg : ThreadPoolConfig) (s : ThreadPool) : ThreadPoolAction → Prop
  | .create => s.pc = .testing ∧ s.i < cfg.numThreads_.toInt
  | .finish => s.pc = .testing ∧ ¬ s.i < cfg.numThreads_.toInt
  | .semWait => s.pc = .semWait ∧ 0 < (s.threads s.i).sem
  | .lock => s.pc = .locking
  | .wakeSpuriously => s.pc = .waiting
  | .setTid k tid => k < s.created ∧ (s.threads k).pc = .begun ∧ 0 < tid
  | .post k => k < s.created ∧ (s.threads k).pc = .posting
  | .construct k address =>
      k < s.created ∧ (s.threads k).pc = .making ∧ address ≠ cfg.baseLoop_ ∧
        ∀ j < s.created, (s.threads j).pc.hasLoop = true → (s.threads j).loop ≠ address
  | .callback k => k < s.created ∧ (s.threads k).pc = .calling
  | .publish k => k < s.created ∧ (s.threads k).pc = .publishing
  | .leave k => k < s.created ∧ (s.threads k).pc = .looping
  | .finishThread k => k < s.created ∧ (s.threads k).pc = .leaving

instance (cfg : ThreadPoolConfig) (s : ThreadPool) : ∀ a, Decidable (s.Enabled cfg a)
  | .create => inferInstanceAs (Decidable (s.pc = .testing ∧ s.i < cfg.numThreads_.toInt))
  | .finish => inferInstanceAs (Decidable (s.pc = .testing ∧ ¬ s.i < cfg.numThreads_.toInt))
  | .semWait => inferInstanceAs (Decidable (s.pc = .semWait ∧ 0 < (s.threads s.i).sem))
  | .lock => inferInstanceAs (Decidable (s.pc = .locking))
  | .wakeSpuriously => inferInstanceAs (Decidable (s.pc = .waiting))
  | .setTid k tid =>
      inferInstanceAs (Decidable (k < s.created ∧ (s.threads k).pc = .begun ∧ 0 < tid))
  | .post k => inferInstanceAs (Decidable (k < s.created ∧ (s.threads k).pc = .posting))
  | .construct k address =>
      inferInstanceAs (Decidable (k < s.created ∧ (s.threads k).pc = .making ∧
        address ≠ cfg.baseLoop_ ∧
        ∀ j < s.created, (s.threads j).pc.hasLoop = true → (s.threads j).loop ≠ address))
  | .callback k => inferInstanceAs (Decidable (k < s.created ∧ (s.threads k).pc = .calling))
  | .publish k => inferInstanceAs (Decidable (k < s.created ∧ (s.threads k).pc = .publishing))
  | .leave k => inferInstanceAs (Decidable (k < s.created ∧ (s.threads k).pc = .looping))
  | .finishThread k => inferInstanceAs (Decidable (k < s.created ∧ (s.threads k).pc = .leaving))

end ThreadPool

/-- The machine of `start` and the threads that it makes. -/
def threadPool (cfg : ThreadPoolConfig) : Machine ThreadPool ThreadPoolAction where
  enabled s := s.Enabled cfg
  next := ThreadPool.next cfg

instance (cfg : ThreadPoolConfig) (s : ThreadPool) (a : ThreadPoolAction) :
    Decidable ((threadPool cfg).enabled s a) :=
  inferInstanceAs (Decidable (s.Enabled cfg a))

end CkServer
