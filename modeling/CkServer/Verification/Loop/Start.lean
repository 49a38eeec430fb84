import CkServer.Model.ThreadPool
import Mathlib.Algebra.Group.Nat.Defs
import Mathlib.Data.List.Nodup
import Mathlib.Tactic.SplitIfs

/-! # The start of a pool

`start` waits for each thread before it makes the next one. So the callbacks and the loops come in
the order of the threads, and no wakeup is lost: `start` waits only for a thread that has not yet
shown its loop, or that has already left it. -/

namespace CkServer

open Text

/-- How far a thread is. -/
def FuncPc.number : FuncPc → ℕ
  | .begun => 0
  | .posting => 1
  | .making => 2
  | .calling => 3
  | .publishing => 4
  | .looping => 5
  | .leaving => 6
  | .ended => 7

theorem FuncPc.hasLoop_iff (pc : FuncPc) :
    pc.hasLoop = true ↔ 3 ≤ pc.number ∧ pc.number ≤ 6 := by
  cases pc <;> decide

/-- `start` has made a thread and not yet got its loop. -/
def StartPc.busy : StartPc → ℕ
  | .semWait | .locking | .waiting => 1
  | .testing | .returned => 0

namespace ThreadPoolConfig

variable {cfg : ThreadPoolConfig}

/-- The number of threads that `start` makes. -/
def threads (cfg : ThreadPoolConfig) : ℕ := cfg.numThreads_.toInt.toNat

theorem threads_lt (cfg : ThreadPoolConfig) : cfg.threads < 2 ^ 31 := by
  have h := cfg.numThreads_.toInt_lt
  rw [threads]
  omega

/-- Nothing of a thread's name is cut off. -/
theorem threadName_eq (cfg : ThreadPoolConfig) {i : ℕ} (h : i < 2 ^ 31) :
    cfg.threadName i = cfg.name_.takeWhile (· ≠ 0) ++ decimal i := by
  have hname : (cfg.name_.takeWhile (· ≠ 0)).length ≤ cfg.name_.length :=
    (List.takeWhile_sublist _).length_le
  have hnumber : (decimal i).length ≤ 10 :=
    length_decimal_le (by omega) (Nat.lt_trans h (by omega))
  have hprint : printInt i = decimal i := rfl
  rw [threadName, hprint, snprintf, List.take_of_length_le]
  rw [List.length_append]
  omega

/-- The threads of a pool have different names. -/
theorem threadName_injective {i j : ℕ} (hi : i < 2 ^ 31) (hj : j < 2 ^ 31)
    (h : cfg.threadName i = cfg.threadName j) : i = j := by
  rw [threadName_eq cfg hi, threadName_eq cfg hj, List.append_cancel_left_eq] at h
  exact decimal_injective h

/-- `setDefaultName` keeps the name that `start` has printed. -/
theorem setDefaultName_threadName (cfg : ThreadPoolConfig) (num : ℤ) {i : ℕ} (h : i < 2 ^ 31) :
    ThreadPool.setDefaultName num (cfg.threadName i) = cfg.threadName i := by
  have hne : cfg.threadName i ≠ [] := by
    rw [threadName_eq cfg h]
    exact List.append_ne_nil_of_right_ne_nil _ (decimal_ne_nil i)
  rw [ThreadPool.setDefaultName, if_neg hne]

end ThreadPoolConfig

/-- What a thread keeps for itself. -/
structure PoolThread.Fits (cfg : ThreadPoolConfig) (k : ℕ) (t : PoolThread) : Prop where
  name_ : t.name_ = cfg.threadName k
  tid_ : t.pc ≠ .begun → 0 < t.tid_
  loop_ : t.loop_ = if t.pc = .looping ∨ t.pc = .leaving then some t.loop else none
  apart : t.pc.hasLoop = true → t.loop ≠ cfg.baseLoop_

/-- Nobody outside `start` and its threads has to do anything for the step. -/
def ThreadPoolAction.isOwn : ThreadPoolAction → Bool
  | .wakeSpuriously => false
  | .leave _ => false
  | _ => true

def ThreadPoolAction.isSpurious : ThreadPoolAction → Bool
  | .wakeSpuriously => true
  | _ => false

namespace ThreadPool

variable {cfg : ThreadPoolConfig} {s : ThreadPool} {k : ℕ} {t : PoolThread}

/-- The threads in which the callback has been called, or would have been if there were one. -/
def called (s : ThreadPool) : List ℕ :=
  (List.range s.created).filter fun k => 4 ≤ (s.threads k).pc.number

/-- The calls of the callback. -/
def calls (cfg : ThreadPoolConfig) (s : ThreadPool) : List (Option ℕ × ℕ) :=
  if cfg.cb then
    s.called.map (fun k => (some k, (s.threads k).loop)) ++
      if s.pc = .returned ∧ cfg.numThreads_ = 0 then [(none, cfg.baseLoop_)] else []
  else []

/-- What holds at every moment of the start. -/
structure InStart (cfg : ThreadPoolConfig) (s : ThreadPool) : Prop where
  created : s.created = s.i + s.pc.busy
  within : s.created ≤ cfg.threads
  done : s.pc = .returned → s.i = cfg.threads
  fits : ∀ k < s.created, (s.threads k).Fits cfg k
  up : ∀ k < s.i, 5 ≤ (s.threads k).pc.number
  sem : s.pc = .semWait →
    (s.threads s.i).sem = if 2 ≤ (s.threads s.i).pc.number then 1 else 0
  posted : s.pc = .locking ∨ s.pc = .waiting → 2 ≤ (s.threads s.i).pc.number
  asleep : s.pc = .waiting → (s.threads s.i).loop_ = none
  apart : ∀ j < s.created, ∀ k < s.created, j ≠ k → (s.threads j).pc.hasLoop = true →
    (s.threads k).pc.hasLoop = true → (s.threads j).loop ≠ (s.threads k).loop
  loops_ : s.loops_ = (List.range s.i).map fun k => (s.threads k).loop

theorem inStart_initial (cfg : ThreadPoolConfig) (num : ℤ) :
    InStart cfg { numCreated_ := num } where
  created := rfl
  within := Nat.zero_le _
  done h := by cases h
  fits k hk := absurd hk (Nat.not_lt_zero k)
  up k hk := absurd hk (Nat.not_lt_zero k)
  sem h := by cases h
  posted h := by rcases h with h | h <;> cases h
  asleep h := by cases h
  apart j hj := absurd hj (Nat.not_lt_zero j)
  loops_ := rfl

/-! ## A step of one thread -/

@[simp] theorem threads_setThread_self (s : ThreadPool) (k : ℕ) (t : PoolThread) :
    (s.setThread k t).threads k = t := by
  simp [setThread]

theorem threads_setThread_of_ne (s : ThreadPool) {j k : ℕ} (t : PoolThread) (h : j ≠ k) :
    (s.setThread k t).threads j = s.threads j := by
  simp [setThread, h]

/-- A thread goes on. It shows no loop that `start` is asleep for, and if it has a loop, then apart
from the others. -/
theorem InStart.setThread (h : s.InStart cfg) (hk : k < s.created) (hfits : t.Fits cfg k)
    (hon : (s.threads k).pc.number ≤ t.pc.number)
    (hloop : 4 ≤ (s.threads k).pc.number → t.loop = (s.threads k).loop)
    (hsem : s.pc = .semWait → t.sem = (s.threads k).sem +
      if (s.threads k).pc.number < 2 ∧ 2 ≤ t.pc.number then 1 else 0)
    (hasleep : s.pc = .waiting → s.i = k → t.loop_ = none)
    (hapart : t.pc.hasLoop = true → ∀ j < s.created, j ≠ k →
      (s.threads j).pc.hasLoop = true → (s.threads j).loop ≠ t.loop) :
    (s.setThread k t).InStart cfg where
  created := h.created
  within := h.within
  done := h.done
  fits j hj := by
    by_cases hjk : j = k
    · subst hjk
      rwa [threads_setThread_self]
    · rw [threads_setThread_of_ne s t hjk]
      exact h.fits j hj
  up j hj := by
    by_cases hjk : j = k
    · subst hjk
      rw [threads_setThread_self]
      exact Nat.le_trans (h.up j hj) hon
    · rw [threads_setThread_of_ne s t hjk]
      exact h.up j hj
  sem hpc := by
    have hold := h.sem hpc
    by_cases hik : s.i = k
    · subst hik
      rw [show (s.setThread s.i t).i = s.i from rfl, threads_setThread_self, hsem hpc, hold]
      split_ifs <;> omega
    · rw [show (s.setThread k t).i = s.i from rfl, threads_setThread_of_ne s t hik]
      exact hold
  posted hpc := by
    have hold := h.posted hpc
    by_cases hik : s.i = k
    · subst hik
      rw [show (s.setThread s.i t).i = s.i from rfl, threads_setThread_self]
      exact Nat.le_trans hold hon
    · rw [show (s.setThread k t).i = s.i from rfl, threads_setThread_of_ne s t hik]
      exact hold
  asleep hpc := by
    by_cases hik : s.i = k
    · rw [show (s.setThread k t).i = k from hik, threads_setThread_self]
      exact hasleep hpc hik
    · rw [show (s.setThread k t).i = s.i from rfl, threads_setThread_of_ne s t hik]
      exact h.asleep hpc
  apart i hi j hj hij hi' hj' := by
    by_cases hik : i = k
    · subst hik
      rw [threads_setThread_self] at hi' ⊢
      rw [threads_setThread_of_ne s t (Ne.symm hij)] at hj' ⊢
      exact (hapart hi' j hj (Ne.symm hij) hj').symm
    · rw [threads_setThread_of_ne s t hik] at hi' ⊢
      by_cases hjk : j = k
      · subst hjk
        rw [threads_setThread_self] at hj' ⊢
        exact hapart hj' i hi hik hi'
      · rw [threads_setThread_of_ne s t hjk] at hj' ⊢
        exact h.apart i hi j hj hij hi' hj'
  loops_ := by
    rw [show (s.setThread k t).loops_ = s.loops_ from rfl, h.loops_]
    apply List.map_congr_left
    intro j hj
    have hup := h.up j (List.mem_range.mp hj)
    by_cases hjk : j = k
    · subst hjk
      rw [threads_setThread_self, hloop (by omega)]
    · rw [threads_setThread_of_ne s t hjk]

/-- The callback has been called in the same threads as before, with the same loops. -/
theorem calls_setThread (s : ThreadPool) {k : ℕ} {t : PoolThread}
    (hcalled : 4 ≤ t.pc.number ↔ 4 ≤ (s.threads k).pc.number)
    (hloop : 4 ≤ (s.threads k).pc.number → t.loop = (s.threads k).loop) :
    (s.setThread k t).calls cfg = s.calls cfg := by
  have hnumber (j : ℕ) : 4 ≤ ((s.setThread k t).threads j).pc.number ↔
      4 ≤ (s.threads j).pc.number := by
    by_cases hjk : j = k
    · subst hjk
      rwa [threads_setThread_self]
    · rw [threads_setThread_of_ne s t hjk]
  have hsame : (s.setThread k t).called = s.called := by
    simp only [called, hnumber]
    rfl
  have hmap : (s.setThread k t).called.map (fun j => (some j, ((s.setThread k t).threads j).loop)) =
      s.called.map fun j => (some j, (s.threads j).loop) := by
    rw [hsame]
    apply List.map_congr_left
    intro j hj
    have hj' : 4 ≤ (s.threads j).pc.number := by simpa using (List.mem_filter.mp hj).2
    by_cases hjk : j = k
    · subst hjk
      rw [threads_setThread_self, hloop hj']
    · rw [threads_setThread_of_ne s t hjk]
  rw [calls, calls, hmap]
  rfl

/-- Only the thread that has been made last may be on its way to its loop. -/
theorem InStart.last (h : s.InStart cfg) (hk : k < s.created) (hnot : (s.threads k).pc.number < 5) :
    s.i = k ∧ s.created = k + 1 := by
  have hle : ¬ k < s.i := fun hlt => by
    have hup := h.up k hlt
    omega
  have hbusy : s.pc.busy ≤ 1 := by cases s.pc <;> decide
  have hcreated := h.created
  omega

theorem InStart.setTid (h : s.InStart cfg) {tid : ℕ} (hk : k < s.created)
    (hpc : (s.threads k).pc = .begun) (htid : 0 < tid) :
    (s.setThread k { s.threads k with tid_ := tid, pc := .posting }).InStart cfg := by
  have hfits := h.fits k hk
  have hloop := hfits.loop_
  rw [hpc] at hloop
  apply h.setThread hk
  · exact ⟨hfits.name_, fun _ => htid, by simpa using hloop, by simp [FuncPc.hasLoop]⟩
  · simp [hpc, FuncPc.number]
  · simp [hpc, FuncPc.number]
  · simp [hpc, FuncPc.number]
  · exact fun _ _ => by simpa using hloop
  · simp [FuncPc.hasLoop]

theorem InStart.post (h : s.InStart cfg) (hk : k < s.created)
    (hpc : (s.threads k).pc = .posting) :
    (s.setThread k { s.threads k with sem := (s.threads k).sem + 1, pc := .making }).InStart
      cfg := by
  have hfits := h.fits k hk
  have hloop := hfits.loop_
  rw [hpc] at hloop
  apply h.setThread hk
  · exact ⟨hfits.name_, fun _ => hfits.tid_ (by simp [hpc]), by simpa using hloop,
      by simp [FuncPc.hasLoop]⟩
  · simp [hpc, FuncPc.number]
  · simp [hpc, FuncPc.number]
  · simp [hpc, FuncPc.number]
  · exact fun _ _ => by simpa using hloop
  · simp [FuncPc.hasLoop]

theorem InStart.construct (h : s.InStart cfg) {address : ℕ} (hk : k < s.created)
    (hpc : (s.threads k).pc = .making) (hbase : address ≠ cfg.baseLoop_)
    (hfree : ∀ j < s.created, (s.threads j).pc.hasLoop = true →
      (s.threads j).loop ≠ address) :
    (s.setThread k { s.threads k with loop := address, pc := .calling }).InStart cfg := by
  have hfits := h.fits k hk
  have hloop := hfits.loop_
  rw [hpc] at hloop
  apply h.setThread hk
  · exact ⟨hfits.name_, fun _ => hfits.tid_ (by simp [hpc]), by simpa using hloop,
      fun _ => hbase⟩
  · simp [hpc, FuncPc.number]
  · simp [hpc, FuncPc.number]
  · simp [hpc, FuncPc.number]
  · exact fun _ _ => by simpa using hloop
  · exact fun _ j hj _ => hfree j hj

/-- A thread that keeps its loop goes on, and shows it neither sooner nor longer. -/
theorem InStart.goOn (h : s.InStart cfg) {pc : FuncPc} (hk : k < s.created)
    (halive : (s.threads k).pc.hasLoop = true) (hon : (s.threads k).pc.number ≤ pc.number)
    (hshown : pc = .looping ∨ pc = .leaving ↔
      (s.threads k).pc = .looping ∨ (s.threads k).pc = .leaving) :
    (s.setThread k { s.threads k with pc := pc }).InStart cfg := by
  have hfits := h.fits k hk
  have hnumber := ((s.threads k).pc.hasLoop_iff.mp halive).1
  have hbegun : (s.threads k).pc ≠ .begun := by
    intro heq
    rw [heq] at hnumber
    exact absurd hnumber (by decide)
  apply h.setThread hk
  · exact ⟨hfits.name_, fun _ => hfits.tid_ hbegun, by simpa only [hshown] using hfits.loop_,
      fun _ => hfits.apart halive⟩
  · exact hon
  · exact fun _ => rfl
  · intro _
    rw [if_neg (by omega), Nat.add_zero]
  · exact fun hwaiting hik => hik ▸ h.asleep hwaiting
  · exact fun _ j hj hjk hj' => h.apart j hj k hk hjk hj' halive

/-- The callback gets the loop of its thread. -/
theorem InStart.callback (h : s.InStart cfg) (hk : k < s.created)
    (hpc : (s.threads k).pc = .calling) :
    (s.setThread k { s.threads k with pc := .publishing }).InStart cfg := by
  apply h.goOn hk
  · rw [hpc]
    rfl
  · rw [hpc]
    decide
  · simp [hpc]

theorem InStart.publish (h : s.InStart cfg) (hawake : s.pc = .waiting → s.i ≠ k)
    (hk : k < s.created) (hpc : (s.threads k).pc = .publishing) :
    (s.setThread k
      { s.threads k with loop_ := some (s.threads k).loop, pc := .looping }).InStart cfg := by
  have hfits := h.fits k hk
  have halive : (s.threads k).pc.hasLoop = true := by simp [hpc, FuncPc.hasLoop]
  apply h.setThread hk
  · exact ⟨hfits.name_, fun _ => hfits.tid_ (by simp [hpc]), by simp,
      fun _ => hfits.apart halive⟩
  · simp [hpc, FuncPc.number]
  · simp [hpc, FuncPc.number]
  · simp [hpc, FuncPc.number]
  · exact fun hwaiting hik => absurd hik (hawake hwaiting)
  · exact fun _ j hj hjk hj' => h.apart j hj k hk hjk hj' halive

theorem InStart.leave (h : s.InStart cfg) (hk : k < s.created)
    (hpc : (s.threads k).pc = .looping) :
    (s.setThread k { s.threads k with pc := .leaving }).InStart cfg := by
  apply h.goOn hk
  · rw [hpc]
    rfl
  · rw [hpc]
    decide
  · simp [hpc]

theorem InStart.finishThread (h : s.InStart cfg) (hk : k < s.created)
    (hpc : (s.threads k).pc = .leaving) :
    (s.setThread k { s.threads k with loop_ := none, pc := .ended }).InStart cfg := by
  have hfits := h.fits k hk
  apply h.setThread hk
  · exact ⟨hfits.name_, fun _ => hfits.tid_ (by simp [hpc]), by simp, by simp [FuncPc.hasLoop]⟩
  · simp [hpc, FuncPc.number]
  · simp [hpc, FuncPc.number]
  · simp [hpc, FuncPc.number]
  · exact fun _ _ => rfl
  · simp [FuncPc.hasLoop]

/-! ## A step of `start` -/

theorem threads_create_of_ne (s : ThreadPool) (cfg : ThreadPoolConfig) {j : ℕ}
    (h : j ≠ s.created) : (s.create cfg).threads j = s.threads j :=
  threads_setThread_of_ne s _ h

theorem threads_create_self (s : ThreadPool) (cfg : ThreadPoolConfig) :
    (s.create cfg).threads s.created =
      { name_ := setDefaultName s.numCreated_ (cfg.threadName s.i) } :=
  threads_setThread_self s _ _

theorem InStart.create (h : s.InStart cfg) (hpc : s.pc = .testing)
    (hi : s.i < cfg.numThreads_.toInt) : (s.create cfg).InStart cfg := by
  have hcreated : s.created = s.i := by simpa [hpc, StartPc.busy] using h.created
  have hlt : s.i < cfg.threads := by
    rw [ThreadPoolConfig.threads]
    omega
  have hself := threads_create_self s cfg
  have hnew : ((s.create cfg).threads s.created).pc.hasLoop = false := by
    rw [hself]
    rfl
  constructor
  · show s.created + 1 = s.i + 1
    rw [hcreated]
  · show s.created + 1 ≤ cfg.threads
    rw [hcreated]
    exact hlt
  · intro hreturned
    cases hreturned
  · intro k hk
    by_cases hne : k = s.created
    · have hname := cfg.setDefaultName_threadName s.numCreated_
        (Nat.lt_trans hlt cfg.threads_lt)
      rw [hne, hself, hcreated]
      exact ⟨hname, fun hbegun => absurd rfl hbegun, rfl, by simp [FuncPc.hasLoop]⟩
    · rw [threads_create_of_ne s cfg hne]
      exact h.fits k (Nat.lt_of_le_of_ne (Nat.le_of_lt_succ hk) hne)
  · intro k hk
    have hne : k ≠ s.created := by
      rw [hcreated]
      exact Nat.ne_of_lt hk
    rw [threads_create_of_ne s cfg hne]
    exact h.up k hk
  · intro _
    rw [show (s.create cfg).i = s.created from hcreated.symm, hself]
    simp [FuncPc.number]
  · rintro (hlocking | hwaiting)
    · cases hlocking
    · cases hwaiting
  · intro hwaiting
    cases hwaiting
  · intro j hj k hk hjk hj' hk'
    have hjne : j ≠ s.created := by
      rintro rfl
      rw [hnew] at hj'
      cases hj'
    have hkne : k ≠ s.created := by
      rintro rfl
      rw [hnew] at hk'
      cases hk'
    rw [threads_create_of_ne s cfg hjne] at hj' ⊢
    rw [threads_create_of_ne s cfg hkne] at hk' ⊢
    exact h.apart j (Nat.lt_of_le_of_ne (Nat.le_of_lt_succ hj) hjne) k
      (Nat.lt_of_le_of_ne (Nat.le_of_lt_succ hk) hkne) hjk hj' hk'
  · rw [show (s.create cfg).loops_ = s.loops_ from rfl, h.loops_]
    apply List.map_congr_left
    intro j hj
    have hne : j ≠ s.created := by
      rw [hcreated]
      exact Nat.ne_of_lt (List.mem_range.mp hj)
    rw [threads_create_of_ne s cfg hne]

theorem InStart.finish (h : s.InStart cfg) (hpc : s.pc = .testing)
    (hi : ¬ s.i < cfg.numThreads_.toInt) (inits : List (Option ℕ × ℕ)) :
    InStart cfg { s with pc := .returned, inits := inits } := by
  have hcreated : s.created = s.i := by simpa [hpc, StartPc.busy] using h.created
  have hwithin := h.within
  have hall : s.i = cfg.threads := by
    rw [ThreadPoolConfig.threads] at hwithin ⊢
    omega
  constructor
  · exact hcreated
  · exact hwithin
  · exact fun _ => hall
  · exact h.fits
  · exact h.up
  · intro hwait
    cases hwait
  · rintro (hlocking | hwaiting)
    · cases hlocking
    · cases hwaiting
  · intro hwaiting
    cases hwaiting
  · exact h.apart
  · exact h.loops_

/-- `start` is about to take the mutex, in order to look at a thread that has posted. -/
theorem InStart.locking (h : s.InStart cfg) (hbusy : s.pc.busy = 1)
    (hposted : 2 ≤ (s.threads s.i).pc.number) : InStart cfg { s with pc := .locking } := by
  have hcreated := h.created
  rw [hbusy] at hcreated
  constructor
  · exact hcreated
  · exact h.within
  · intro hreturned
    cases hreturned
  · exact h.fits
  · exact h.up
  · intro hwait
    cases hwait
  · exact fun _ => hposted
  · intro hwaiting
    cases hwaiting
  · exact h.apart
  · exact h.loops_

theorem InStart.semWait (h : s.InStart cfg) (hpc : s.pc = .semWait)
    (hsem : 0 < (s.threads s.i).sem) :
    InStart cfg
      { s.setThread s.i { s.threads s.i with sem := (s.threads s.i).sem - 1 } with
        pc := .locking } := by
  have hposted : 2 ≤ (s.threads s.i).pc.number := by
    rw [h.sem hpc] at hsem
    by_contra hnot
    rw [if_neg hnot] at hsem
    exact absurd hsem (Nat.lt_irrefl 0)
  have hlocking := h.locking (by rw [hpc]; rfl) hposted
  have hk : s.i < s.created := by
    have hcreated := h.created
    rw [hpc, StartPc.busy] at hcreated
    omega
  have hfits := h.fits s.i hk
  refine hlocking.setThread (t := { s.threads s.i with sem := (s.threads s.i).sem - 1 }) hk ?_
    (Nat.le_refl _) (fun _ => rfl) ?_ ?_ ?_
  · exact ⟨hfits.name_, hfits.tid_, hfits.loop_, hfits.apart⟩
  · intro hwait
    cases hwait
  · intro hwaiting
    cases hwaiting
  · exact fun halive j hj hjk hj' => h.apart j hj s.i hk hjk hj' halive

theorem InStart.lock (h : s.InStart cfg) (hpc : s.pc = .locking) : s.lock.InStart cfg := by
  have hcreated := h.created
  rw [hpc, StartPc.busy] at hcreated
  have hfits := h.fits s.i (by omega)
  cases hloop : (s.threads s.i).loop_ with
  | some loop =>
      have hshown := hfits.loop_
      rw [hloop] at hshown
      split_ifs at hshown with hpc'
      obtain rfl := Option.some.inj hshown
      have hup : 5 ≤ (s.threads s.i).pc.number := by
        rcases hpc' with hpc' | hpc' <;> simp [hpc', FuncPc.number]
      simp only [ThreadPool.lock, hloop]
      constructor
      · exact hcreated
      · exact h.within
      · intro hreturned
        cases hreturned
      · exact h.fits
      · intro k hk
        rcases Nat.lt_succ_iff_lt_or_eq.mp hk with hk | rfl
        · exact h.up k hk
        · exact hup
      · intro hwait
        cases hwait
      · rintro (hlocking | hwaiting)
        · cases hlocking
        · cases hwaiting
      · intro hwaiting
        cases hwaiting
      · exact h.apart
      · simp only [h.loops_, List.range_succ, List.map_append, List.map_cons, List.map_nil]
  | none =>
      simp only [ThreadPool.lock, hloop]
      constructor
      · exact hcreated
      · exact h.within
      · intro hreturned
        cases hreturned
      · exact h.fits
      · exact h.up
      · intro hwait
        cases hwait
      · exact fun _ => h.posted (.inl hpc)
      · exact fun _ => hloop
      · exact h.apart
      · exact h.loops_

theorem notify_setThread (s : ThreadPool) (k : ℕ) (t : PoolThread) :
    (s.setThread k t).notify k =
      if s.pc = .waiting ∧ s.i = k then ({ s with pc := .locking } : ThreadPool).setThread k t
      else s.setThread k t := rfl

/-- No wakeup is lost: `notify_one` comes when the loop is there. -/
theorem InStart.notify (h : s.InStart cfg) (hk : k < s.created)
    (hpc : (s.threads k).pc = .publishing) :
    ((s.setThread k { s.threads k with loop_ := some (s.threads k).loop, pc := .looping }).notify
      k).InStart cfg := by
  by_cases hasleep : s.pc = .waiting ∧ s.i = k
  · have hlocking := h.locking (by rw [hasleep.1]; rfl) (h.posted (.inr hasleep.1))
    have hpublish := hlocking.publish (fun hwaiting => by cases hwaiting) hk hpc
    rw [notify_setThread, if_pos hasleep]
    exact hpublish
  · rw [notify_setThread, if_neg hasleep]
    exact h.publish (fun hwaiting hik => hasleep ⟨hwaiting, hik⟩) hk hpc

theorem InStart.next (h : s.InStart cfg) {a : ThreadPoolAction} (hen : s.Enabled cfg a) :
    (s.next cfg a).InStart cfg := by
  cases a with
  | create => exact h.create hen.1 hen.2
  | finish => exact h.finish hen.1 hen.2 _
  | semWait => exact h.semWait hen.1 hen.2
  | lock => exact h.lock hen
  | wakeSpuriously =>
      have hpc : s.pc = .waiting := hen
      exact h.locking (by rw [hpc]; rfl) (h.posted (.inr hpc))
  | setTid k tid => exact h.setTid hen.1 hen.2.1 hen.2.2
  | post k => exact h.post hen.1 hen.2
  | construct k address => exact h.construct hen.1 hen.2.1 hen.2.2.1 hen.2.2.2
  | callback k =>
      have hcalled := h.callback hen.1 hen.2
      exact ⟨hcalled.created, hcalled.within, hcalled.done, hcalled.fits, hcalled.up, hcalled.sem,
        hcalled.posted, hcalled.asleep, hcalled.apart, hcalled.loops_⟩
  | publish k => exact h.notify hen.1 hen.2
  | leave k => exact h.leave hen.1 hen.2
  | finishThread k => exact h.finishThread hen.1 hen.2

/-! ## The calls of the callback -/

theorem calls_of_eq {u : ThreadPool} (hcreated : u.created = s.created)
    (hthreads : u.threads = s.threads) (hpc : u.pc = .returned ↔ s.pc = .returned) :
    u.calls cfg = s.calls cfg := by
  simp only [calls, called, hcreated, hthreads, hpc]

theorem calls_setPc (hrunning : s.pc ≠ .returned) (pc : StartPc) (hpc : pc ≠ .returned) :
    calls cfg { s with pc := pc } = s.calls cfg :=
  calls_of_eq rfl rfl (by simp [hrunning, hpc])

theorem calls_create (hpc : s.pc = .testing) :
    (s.create cfg).calls cfg = s.calls cfg := by
  have hnew : ¬ 4 ≤ ((s.create cfg).threads s.created).pc.number := by
    simp [threads_create_self, FuncPc.number]
  have hold (j : ℕ) (hj : j ∈ List.range s.created) :
      (s.create cfg).threads j = s.threads j :=
    threads_create_of_ne s cfg (Nat.ne_of_lt (List.mem_range.mp hj))
  have hcalled : (s.create cfg).called = s.called := by
    rw [called, show (s.create cfg).created = s.created + 1 from rfl, List.range_succ,
      List.filter_append, List.filter_cons_of_neg (by simpa using hnew), List.filter_nil,
      List.append_nil, called]
    exact List.filter_congr fun j hj => by rw [hold j hj]
  have hmap : s.called.map (fun j => (some j, ((s.create cfg).threads j).loop)) =
      s.called.map fun j => (some j, (s.threads j).loop) := by
    apply List.map_congr_left
    intro j hj
    rw [hold j ((List.mem_filter.mp hj).1)]
  have hpc' : (s.create cfg).pc = .semWait := rfl
  simp only [calls, hcalled, hmap, hpc', hpc, reduceCtorEq, false_and]

theorem calls_callback (h : s.InStart cfg) (hk : k < s.created)
    (hpc : (s.threads k).pc = .calling) :
    (s.setThread k { s.threads k with pc := .publishing }).calls cfg =
      if cfg.cb then s.calls cfg ++ [(some k, (s.threads k).loop)] else s.calls cfg := by
  obtain ⟨hi, hcreated⟩ := h.last hk (by simp [hpc, FuncPc.number])
  have hrunning : s.pc ≠ .returned := by
    intro hreturned
    have hbusy := h.created
    rw [hreturned, StartPc.busy] at hbusy
    omega
  have hold (j : ℕ) (hj : j ∈ List.range k) :
      (s.setThread k { s.threads k with pc := .publishing }).threads j = s.threads j :=
    threads_setThread_of_ne s _ (Nat.ne_of_lt (List.mem_range.mp hj))
  have hbefore : s.called = (List.range k).filter fun j => 4 ≤ (s.threads j).pc.number := by
    rw [called, hcreated, List.range_succ, List.filter_append,
      List.filter_cons_of_neg (by simp [hpc, FuncPc.number]), List.filter_nil, List.append_nil]
  have hafter :
      (s.setThread k { s.threads k with pc := .publishing }).called = s.called ++ [k] := by
    rw [hbefore, called,
      show (s.setThread k { s.threads k with pc := .publishing }).created = k + 1 from hcreated,
      List.range_succ, List.filter_append,
      List.filter_cons_of_pos (by simp [FuncPc.number]), List.filter_nil]
    have hsame : ((List.range k).filter fun j =>
          4 ≤ ((s.setThread k { s.threads k with pc := .publishing }).threads j).pc.number) =
        (List.range k).filter fun j => 4 ≤ (s.threads j).pc.number :=
      List.filter_congr fun j hj => by rw [hold j hj]
    rw [hsame]
  have hmap : s.called.map (fun j =>
        (some j, ((s.setThread k { s.threads k with pc := .publishing }).threads j).loop)) =
      s.called.map fun j => (some j, (s.threads j).loop) := by
    apply List.map_congr_left
    intro j hj
    rw [hbefore] at hj
    rw [hold j ((List.mem_filter.mp hj).1)]
  have hpc' : (s.setThread k { s.threads k with pc := .publishing }).pc = s.pc := rfl
  cases hcb : cfg.cb with
  | false => simp [calls, hcb]
  | true =>
      simp only [calls, hcb, if_true, hafter, List.map_append, hmap, hpc', hrunning, false_and,
        if_false, List.append_nil, List.map_cons, List.map_nil, threads_setThread_self]

theorem inits_next (h : s.InStart cfg) (htold : s.inits = s.calls cfg) {a : ThreadPoolAction}
    (hen : s.Enabled cfg a) : (s.next cfg a).inits = (s.next cfg a).calls cfg := by
  cases a with
  | create => exact htold.trans (calls_create hen.1).symm
  | finish =>
      have hcalled : (s.next cfg .finish).called = s.called := rfl
      have hnone : ¬ (s.pc = .returned ∧ cfg.numThreads_ = 0) := by simp [hen.1]
      simp only [ThreadPool.next, htold, calls, hnone, if_false, List.append_nil]
      cases hcb : cfg.cb with
      | false => simp
      | true => by_cases hzero : cfg.numThreads_ = 0 <;> simp [hzero, called]
  | semWait =>
      have hpc : s.pc = .semWait := hen.1
      have hlocking : calls cfg { s with pc := .locking } = s.calls cfg :=
        calls_setPc (by simp [hpc]) .locking (by simp)
      have hset : (({ s with pc := .locking } : ThreadPool).setThread s.i
          { s.threads s.i with sem := (s.threads s.i).sem - 1 }).calls cfg =
            calls cfg { s with pc := .locking } :=
        calls_setThread _ Iff.rfl fun _ => rfl
      exact htold.trans (hlocking.symm.trans hset.symm)
  | lock =>
      have hpc : s.pc = .locking := hen
      have hsame : s.lock.calls cfg = s.calls cfg := by
        cases hloop : (s.threads s.i).loop_ with
        | some loop =>
            simp only [ThreadPool.lock, hloop]
            exact calls_of_eq rfl rfl (by simp [hpc])
        | none =>
            simp only [ThreadPool.lock, hloop]
            exact calls_of_eq rfl rfl (by simp [hpc])
      have hinits : s.lock.inits = s.inits := by
        rw [ThreadPool.lock]
        split <;> rfl
      exact hinits.trans (htold.trans hsame.symm)
  | wakeSpuriously =>
      have hpc : s.pc = .waiting := hen
      exact htold.trans (calls_setPc (by simp [hpc]) .locking (by simp)).symm
  | setTid k tid =>
      exact htold.trans (calls_setThread s (by simp [hen.2.1, FuncPc.number])
        (by simp)).symm
  | post k =>
      exact htold.trans (calls_setThread s (by simp [hen.2, FuncPc.number]) (by simp)).symm
  | construct k address =>
      exact htold.trans (calls_setThread s (by simp [hen.2.1, FuncPc.number])
        (by simp [hen.2.1, FuncPc.number])).symm
  | callback k =>
      have hcalls := calls_callback h hen.1 hen.2
      have hsame : (s.next cfg (.callback k)).calls cfg =
          (s.setThread k { s.threads k with pc := .publishing }).calls cfg :=
        calls_of_eq rfl rfl Iff.rfl
      rw [hsame, hcalls, ← htold]
      rfl
  | publish k =>
      rw [ThreadPool.next, notify_setThread]
      split_ifs with hasleep
      · have hlocking : calls cfg { s with pc := .locking } = s.calls cfg :=
          calls_setPc (by simp [hasleep.1]) .locking (by simp)
        exact htold.trans (hlocking.symm.trans (calls_setThread { s with pc := .locking }
          (by simp [hen.2, FuncPc.number]) (by simp)).symm)
      · exact htold.trans (calls_setThread s (by simp [hen.2, FuncPc.number]) (by simp)).symm
  | leave k =>
      exact htold.trans (calls_setThread s (by simp [hen.2, FuncPc.number]) (by simp)).symm
  | finishThread k =>
      exact htold.trans (calls_setThread s (by simp [hen.2, FuncPc.number]) (by simp)).symm

/-- What holds after every run of the start. -/
theorem started_run (num : ℤ) {as : List ThreadPoolAction}
    (hruns : (threadPool cfg).Runs { numCreated_ := num } as) :
    ((threadPool cfg).run { numCreated_ := num } as).InStart cfg ∧
      ((threadPool cfg).run { numCreated_ := num } as).inits =
        ((threadPool cfg).run { numCreated_ := num } as).calls cfg := by
  have hstep (s : ThreadPool) (a : ThreadPoolAction)
      (h : s.InStart cfg ∧ s.inits = s.calls cfg) (hen : (threadPool cfg).enabled s a) :
      ((threadPool cfg).next s a).InStart cfg ∧
        ((threadPool cfg).next s a).inits = ((threadPool cfg).next s a).calls cfg :=
    ⟨h.1.next hen, inits_next h.1 h.2 hen⟩
  exact (threadPool cfg).invariant_of_runs (I := fun s => s.InStart cfg ∧ s.inits = s.calls cfg)
    hstep ⟨inStart_initial cfg num, by simp [calls, called]⟩ hruns

/-! ## The end of the start -/

/-- The thread has a `tid`, it has called the callback, and its loop has been shown. -/
structure Up (cfg : ThreadPoolConfig) (k : ℕ) (t : PoolThread) : Prop where
  name_ : t.name_ = cfg.name_.takeWhile (· ≠ 0) ++ decimal k
  tid_ : 0 < t.tid_
  shown : t.pc = .looping ∨ t.pc = .leaving ∨ t.pc = .ended

theorem InStart.thread (h : s.InStart cfg) (hk : k < s.i) : Up cfg k (s.threads k) := by
  have hcreated := h.created
  have hwithin := h.within
  have hfits := h.fits k (by omega)
  have hup := h.up k hk
  have hlt := cfg.threads_lt
  refine ⟨?_, hfits.tid_ fun hbegun => ?_, ?_⟩
  · rw [hfits.name_, cfg.threadName_eq (by omega)]
  · simp [hbegun, FuncPc.number] at hup
  · cases hpc : (s.threads k).pc <;> simp [hpc, FuncPc.number] at hup ⊢

theorem InStart.called_eq (h : s.InStart cfg) (hpc : s.pc = .returned) :
    s.called = List.range cfg.threads := by
  have hcreated := h.created
  rw [hpc, h.done hpc, StartPc.busy] at hcreated
  rw [called, hcreated, Nat.add_zero, List.filter_eq_self]
  intro k hk
  have hup := h.up k (by rw [h.done hpc]; exact List.mem_range.mp hk)
  simp only [decide_eq_true_eq]
  omega

/-- The callback has been called in the threads up to one, and only the last may be missing. -/
theorem InStart.exists_called (h : s.InStart cfg) :
    ∃ m, s.i ≤ m ∧ m ≤ s.i + 1 ∧ s.called = List.range m := by
  have hall :
      (List.range s.i).filter (fun k => 4 ≤ (s.threads k).pc.number) = List.range s.i := by
    rw [List.filter_eq_self]
    intro k hk
    have hup := h.up k (List.mem_range.mp hk)
    simp only [decide_eq_true_eq]
    omega
  have hcreated := h.created
  have hbusy : s.pc.busy = 0 ∨ s.pc.busy = 1 := by cases s.pc <;> decide
  rcases hbusy with hbusy | hbusy
  · refine ⟨s.i, Nat.le_refl _, Nat.le_succ _, ?_⟩
    rw [called, hcreated, hbusy, Nat.add_zero, hall]
  · rw [called, hcreated, hbusy, List.range_succ, List.filter_append, hall]
    by_cases hlast : 4 ≤ (s.threads s.i).pc.number
    · refine ⟨s.i + 1, Nat.le_succ _, Nat.le_refl _, ?_⟩
      rw [List.filter_cons_of_pos (by simpa using hlast), List.filter_nil, List.range_succ]
    · refine ⟨s.i, Nat.le_refl _, Nat.le_succ _, ?_⟩
      rw [List.filter_cons_of_neg (by simpa using hlast), List.filter_nil, List.append_nil]

/-- The loops that are alive are at different addresses. -/
theorem InStart.nodup (h : s.InStart cfg) (halive : ∀ k < s.i, (s.threads k).pc ≠ .ended) :
    (cfg.baseLoop_ :: s.loops_).Nodup := by
  have hcreated := h.created
  have hloop (k : ℕ) (hk : k < s.i) : (s.threads k).pc.hasLoop = true := by
    rcases (h.thread hk).shown with hpc | hpc | hpc
    · simp [hpc, FuncPc.hasLoop]
    · simp [hpc, FuncPc.hasLoop]
    · exact absurd hpc (halive k hk)
  rw [List.nodup_cons, h.loops_]
  constructor
  · intro hmem
    obtain ⟨k, hk, heq⟩ := List.mem_map.mp hmem
    have hk' := List.mem_range.mp hk
    exact (h.fits k (by omega)).apart (hloop k hk') heq
  · apply List.nodup_range.map_on
    intro j hj k hk heq
    by_contra hne
    have hj' := List.mem_range.mp hj
    have hk' := List.mem_range.mp hk
    exact h.apart j (by omega) k (by omega) hne (hloop j hj') (hloop k hk') heq

/-- At every moment of the start the loops that the pool has are those of its first threads, each
of which has its name, a `tid` and a loop that has been shown. As long as none of them has ended the
loops are different from each other and from the base loop. The callback has been called in one
thread after another, with the loop of the thread, and when `start` returns in all of them. -/
theorem started_of_runs (num : ℤ) {as : List ThreadPoolAction}
    (hruns : (threadPool cfg).Runs { numCreated_ := num } as) :
    let s := (threadPool cfg).run { numCreated_ := num } as
    s.loops_ = (List.range s.i).map (fun k => (s.threads k).loop) ∧
      (∀ k < s.i, Up cfg k (s.threads k)) ∧
      ((∀ k < s.i, (s.threads k).pc ≠ .ended) → (cfg.baseLoop_ :: s.loops_).Nodup) ∧
      s.inits = s.calls cfg ∧ (∃ m, s.i ≤ m ∧ m ≤ s.i + 1 ∧ s.called = List.range m) ∧
      (s.pc = .returned → s.i = cfg.threads ∧ s.called = List.range cfg.threads) := by
  intro s
  obtain ⟨h, htold⟩ : s.InStart cfg ∧ s.inits = s.calls cfg := started_run num hruns
  exact ⟨h.loops_, fun k hk => h.thread hk, h.nodup, htold, h.exists_called,
    fun hpc => ⟨h.done hpc, h.called_eq hpc⟩⟩

/-- A pool of one thread, with a callback. -/
def oneThread : ThreadPoolConfig := ⟨1, ascii "io", 1, true⟩

/-- `start` waits on the condition, and is woken once for nothing. -/
def wokenTwice : List ThreadPoolAction :=
  [.create, .setTid 0 7, .post 0, .semWait, .lock, .construct 0 2, .wakeSpuriously, .lock,
    .callback 0, .publish 0, .lock, .finish]

theorem started_wokenTwice :
    let s := (threadPool oneThread).run { numCreated_ := 0 } wokenTwice
    s.loops_ = [2] ∧ s.inits = [(some 0, 2)] ∧ Up oneThread 0 (s.threads 0) := by
  have hruns : (threadPool oneThread).Runs { numCreated_ := 0 } wokenTwice := by decide
  have h := started_of_runs 0 hruns
  exact ⟨by decide, by decide, h.2.1 0 (by decide)⟩

/-! ## That the start ends -/

/-- The number of own steps that a thread is away from its end. -/
def distance : FuncPc → ℕ
  | .begun => 7
  | .posting => 6
  | .making => 5
  | .calling => 4
  | .publishing => 3
  | .looping => 1
  | .leaving => 1
  | .ended => 0

def distances (threads : ℕ → PoolThread) : ℕ → ℕ
  | 0 => 0
  | n + 1 => distances threads n + distance (threads n).pc

/-- `publish` may send `start` back from the wait to the mutex. -/
def startDistance : StartPc → ℕ
  | .testing => 1
  | .semWait => 3
  | .locking => 2
  | .waiting => 1
  | .returned => 0

def rank (cfg : ThreadPoolConfig) (s : ThreadPool) : ℕ :=
  10 * (cfg.threads - s.created) + startDistance s.pc + distances s.threads s.created

theorem distances_update_of_le (threads : ℕ → PoolThread) (t : PoolThread) {k n : ℕ}
    (h : n ≤ k) : distances (Function.update threads k t) n = distances threads n := by
  induction n with
  | zero => rfl
  | succ n ih =>
      have hne : n ≠ k := Nat.ne_of_lt h
      rw [distances, distances, ih (Nat.le_of_succ_le h), Function.update_of_ne hne]

theorem distances_update (threads : ℕ → PoolThread) (t : PoolThread) {k n : ℕ} (h : k < n) :
    distances (Function.update threads k t) n + distance (threads k).pc =
      distances threads n + distance t.pc := by
  induction n with
  | zero => exact absurd h (Nat.not_lt_zero k)
  | succ n ih =>
      rw [distances, distances]
      by_cases hk : k = n
      · subst hk
        rw [distances_update_of_le threads t (Nat.le_refl k), Function.update_self]
        omega
      · have hless := ih (by omega)
        rw [Function.update_of_ne (Ne.symm hk)]
        omega

/-- The rank after a step of one thread. -/
theorem rank_setThread (cfg : ThreadPoolConfig) (s : ThreadPool) {k : ℕ} (t : PoolThread)
    (hk : k < s.created) :
    (s.setThread k t).rank cfg + distance (s.threads k).pc = s.rank cfg + distance t.pc := by
  have hupdate := distances_update s.threads t hk
  simp only [rank, setThread]
  omega

theorem rank_create (h : s.InStart cfg) (hpc : s.pc = .testing)
    (hi : s.i < cfg.numThreads_.toInt) : (s.create cfg).rank cfg + 1 = s.rank cfg := by
  have hcreated : s.created = s.i := by simpa [hpc, StartPc.busy] using h.created
  have hlt : s.created < cfg.threads := by
    rw [ThreadPoolConfig.threads]
    omega
  have hnew : distances (s.create cfg).threads (s.created + 1) =
      distances s.threads s.created + 7 := by
    rw [distances, threads_create_self]
    exact congrArg (· + 7) (distances_update_of_le s.threads _ (Nat.le_refl s.created))
  have hpc' : startDistance (s.create cfg).pc = 3 := rfl
  have hcreated' : (s.create cfg).created = s.created + 1 := rfl
  rw [rank, rank, hcreated', hnew, hpc', hpc, startDistance]
  omega

theorem rank_lock (cfg : ThreadPoolConfig) (hpc : s.pc = .locking) :
    s.lock.rank cfg + 1 = s.rank cfg := by
  cases hloop : (s.threads s.i).loop_ with
  | some loop =>
      simp only [ThreadPool.lock, hloop, rank, hpc, startDistance]
      omega
  | none =>
      simp only [ThreadPool.lock, hloop, rank, hpc, startDistance]
      omega

/-- The thread comes two steps closer, so that one is left when `start` goes back to the mutex. -/
theorem rank_notify (cfg : ThreadPoolConfig) (hk : k < s.created)
    (hpc : (s.threads k).pc = .publishing) (ht : t.pc = .looping) :
    ((s.setThread k t).notify k).rank cfg + 1 ≤ s.rank cfg := by
  have hnotify : ((s.setThread k t).notify k).rank cfg ≤ (s.setThread k t).rank cfg + 1 := by
    rw [notify]
    split_ifs with hasleep
    · simp only [rank, hasleep.1, startDistance]
      omega
    · exact Nat.le_succ _
  have hrank := rank_setThread cfg s t hk
  rw [hpc, ht, distance, distance] at hrank
  omega

theorem InStart.rank_next (h : s.InStart cfg) {a : ThreadPoolAction} (hen : s.Enabled cfg a) :
    (s.next cfg a).rank cfg + (if a.isOwn then 1 else 0) ≤
      s.rank cfg + if a.isSpurious then 1 else 0 := by
  have hthread {k : ℕ} {pc : FuncPc} (hk : k < s.created) (hpc : (s.threads k).pc = pc)
      {t : PoolThread} (hcloser : distance t.pc + 1 = distance pc) :
      (s.setThread k t).rank cfg + 1 = s.rank cfg := by
    have hrank := rank_setThread cfg s t hk
    rw [hpc] at hrank
    omega
  cases a with
  | create =>
      have hrank := rank_create h hen.1 hen.2
      exact Nat.le_of_eq hrank
  | finish =>
      simp only [ThreadPool.next, rank, hen.1, startDistance, ThreadPoolAction.isOwn,
        ThreadPoolAction.isSpurious, if_true, Bool.false_eq_true, if_false]
      omega
  | semWait =>
      have hk : s.i < s.created := by
        have hcreated := h.created
        rw [hen.1, StartPc.busy] at hcreated
        omega
      have hsame := rank_setThread cfg s
        { s.threads s.i with sem := (s.threads s.i).sem - 1 } hk
      simp only [ThreadPool.next, rank, hen.1, startDistance, ThreadPoolAction.isOwn,
        ThreadPoolAction.isSpurious, ThreadPool.setThread] at hsame ⊢
      simp only [if_true, Bool.false_eq_true, if_false]
      omega
  | lock =>
      have hrank := rank_lock cfg hen
      exact Nat.le_of_eq hrank
  | wakeSpuriously =>
      have hpc : s.pc = .waiting := hen
      simp only [ThreadPool.next, rank, hpc, startDistance, ThreadPoolAction.isOwn,
        ThreadPoolAction.isSpurious]
      simp only [if_true, Bool.false_eq_true, if_false]
      omega
  | setTid k tid => exact Nat.le_of_eq (hthread hen.1 hen.2.1 rfl)
  | post k => exact Nat.le_of_eq (hthread hen.1 hen.2 rfl)
  | construct k address => exact Nat.le_of_eq (hthread hen.1 hen.2.1 rfl)
  | callback k => exact Nat.le_of_eq (hthread hen.1 hen.2 rfl)
  | publish k => exact rank_notify cfg hen.1 hen.2 rfl
  | leave k =>
      have hrank := rank_setThread cfg s { s.threads k with pc := .leaving } hen.1
      rw [hen.2] at hrank
      exact Nat.le_of_eq (Nat.add_right_cancel hrank)
  | finishThread k => exact Nat.le_of_eq (hthread hen.1 hen.2 rfl)

/-- There is room for another loop. -/
theorem exists_address (cfg : ThreadPoolConfig) (s : ThreadPool) :
    ∃ address, address ≠ cfg.baseLoop_ ∧
      ∀ j < s.created, (s.threads j).pc.hasLoop = true → (s.threads j).loop ≠ address := by
  have hbound (n : ℕ) : ∃ b, ∀ j < n, (s.threads j).loop < b := by
    induction n with
    | zero => exact ⟨0, fun j hj => absurd hj (Nat.not_lt_zero j)⟩
    | succ n ih =>
        obtain ⟨b, hb⟩ := ih
        refine ⟨b + (s.threads n).loop + 1, fun j hj => ?_⟩
        rcases Nat.lt_succ_iff_lt_or_eq.mp hj with hj | rfl
        · have hlt := hb j hj
          omega
        · omega
  obtain ⟨b, hb⟩ := hbound s.created
  refine ⟨b + cfg.baseLoop_ + 1, by omega, fun j hj _ => ?_⟩
  have hlt := hb j hj
  omega

/-- The thread that `start` waits for has left its loop before `startLoop` has looked. -/
def Abandoned (s : ThreadPool) : Prop :=
  (s.pc = .waiting ∨ s.pc = .locking) ∧ (s.threads s.i).pc = .ended

/-- While `start` has not returned, it or the thread that it waits for can go on. -/
theorem InStart.goes_on (h : s.InStart cfg) :
    s.pc = .returned ∨ (∃ a : ThreadPoolAction, a.isOwn = true ∧ s.Enabled cfg a) ∨
      s.Abandoned := by
  have hcreated := h.created
  cases hpc : s.pc with
  | returned => exact .inl rfl
  | testing =>
      by_cases hi : s.i < cfg.numThreads_.toInt
      · exact .inr (.inl ⟨.create, rfl, hpc, hi⟩)
      · exact .inr (.inl ⟨.finish, rfl, hpc, hi⟩)
  | locking => exact .inr (.inl ⟨.lock, rfl, hpc⟩)
  | semWait =>
      rw [hpc, StartPc.busy] at hcreated
      have hk : s.i < s.created := by omega
      have hsem := h.sem hpc
      cases hthread : (s.threads s.i).pc with
      | begun => exact .inr (.inl ⟨.setTid s.i 1, rfl, hk, hthread, Nat.one_pos⟩)
      | posting => exact .inr (.inl ⟨.post s.i, rfl, hk, hthread⟩)
      | _ =>
          rw [hthread, FuncPc.number] at hsem
          exact .inr (.inl ⟨.semWait, rfl, hpc, by rw [hsem]; decide⟩)
  | waiting =>
      rw [hpc, StartPc.busy] at hcreated
      have hk : s.i < s.created := by omega
      have hposted := h.posted (.inr hpc)
      have hnone := (h.fits s.i hk).loop_.symm.trans (h.asleep hpc)
      cases hthread : (s.threads s.i).pc with
      | begun => simp [hthread, FuncPc.number] at hposted
      | posting => simp [hthread, FuncPc.number] at hposted
      | making =>
          obtain ⟨address, hbase, hfree⟩ := exists_address cfg s
          exact .inr (.inl ⟨.construct s.i address, rfl, hk, hthread, hbase, hfree⟩)
      | calling => exact .inr (.inl ⟨.callback s.i, rfl, hk, hthread⟩)
      | publishing => exact .inr (.inl ⟨.publish s.i, rfl, hk, hthread⟩)
      | looping => simp [hthread] at hnone
      | leaving => simp [hthread] at hnone
      | ended => exact .inr (.inr ⟨.inl hpc, hthread⟩)

theorem Abandoned.setThread (h : s.Abandoned) (hne : (s.threads k).pc ≠ .ended) :
    (s.setThread k t).Abandoned := by
  have hik : s.i ≠ k := by
    rintro rfl
    exact hne h.2
  refine ⟨h.1, ?_⟩
  rw [show (s.setThread k t).i = s.i from rfl, threads_setThread_of_ne s t hik]
  exact h.2

/-- Nobody shows the loop again. -/
theorem Abandoned.next (h : s.Abandoned) (hstart : s.InStart cfg) {a : ThreadPoolAction}
    (hen : s.Enabled cfg a) : (s.next cfg a).Abandoned := by
  have hnone : (s.threads s.i).loop_ = none := by
    have hcreated := hstart.created
    have hbusy : s.pc.busy = 1 := by rcases h.1 with hpc | hpc <;> simp [hpc, StartPc.busy]
    rw [(hstart.fits s.i (by omega)).loop_, h.2]
    rfl
  cases a with
  | create => rcases h.1 with hpc | hpc <;> simp [hpc, Enabled] at hen
  | finish => rcases h.1 with hpc | hpc <;> simp [hpc, Enabled] at hen
  | semWait => rcases h.1 with hpc | hpc <;> simp [hpc, Enabled] at hen
  | lock =>
      rw [ThreadPool.next, ThreadPool.lock, hnone]
      exact ⟨.inl rfl, h.2⟩
  | wakeSpuriously => exact ⟨.inr rfl, h.2⟩
  | setTid k tid => exact h.setThread (by simp [hen.2.1])
  | post k => exact h.setThread (by simp [hen.2])
  | construct k address => exact h.setThread (by simp [hen.2.1])
  | callback k => exact h.setThread (by simp [hen.2])
  | publish k =>
      have hne : (s.threads k).pc ≠ .ended := by simp [hen.2]
      rw [ThreadPool.next, notify_setThread]
      split_ifs with hasleep
      · exact absurd (hasleep.2 ▸ h.2) hne
      · exact h.setThread hne
  | leave k => exact h.setThread (by simp [hen.2])
  | finishThread k => exact h.setThread (by simp [hen.2])

/-- The start ends: it and its threads make a bounded number of steps more than there are spurious
wakeups, and before it has returned one of them can make a step, unless the thread that it waits
for has already left its loop. Then it never returns. -/
theorem returns_of_runs (num : ℤ) {as : List ThreadPoolAction}
    (hruns : (threadPool cfg).Runs { numCreated_ := num } as) :
    let s := (threadPool cfg).run { numCreated_ := num } as
    as.countP ThreadPoolAction.isOwn ≤
        10 * cfg.threads + 1 + as.countP ThreadPoolAction.isSpurious ∧
      (s.pc = .returned ∨
        (∃ a : ThreadPoolAction, a.isOwn = true ∧ (threadPool cfg).enabled s a) ∨
        s.Abandoned) ∧
      (s.Abandoned → ∀ bs, (threadPool cfg).Runs s bs →
        ((threadPool cfg).run s bs).pc ≠ .returned) := by
  intro s
  have hstart : s.InStart cfg := (started_run num hruns).1
  refine ⟨?_, hstart.goes_on, fun habandoned bs hbs => ?_⟩
  · have hcount := (threadPool cfg).countP_add_rank_le (I := fun s => s.InStart cfg) (rank cfg)
      (fun s a h hen => h.next hen) (fun s a h hen => h.rank_next hen)
      (inStart_initial cfg num) hruns
    have hrank : rank cfg { numCreated_ := num } = 10 * cfg.threads + 1 := rfl
    omega
  · have hboth : ((threadPool cfg).run s bs).InStart cfg ∧
        ((threadPool cfg).run s bs).Abandoned :=
      (threadPool cfg).invariant_of_runs (I := fun s => s.InStart cfg ∧ s.Abandoned)
        (fun s a h hen => ⟨h.1.next hen, h.2.next h.1 hen⟩) ⟨hstart, habandoned⟩ hbs
    rcases hboth.2.1 with hpc | hpc <;> simp [hpc]

/-- The loop is left before `startLoop` has looked. -/
def leftEarly : List ThreadPoolAction :=
  [.create, .setTid 0 7, .post 0, .semWait, .construct 0 2, .callback 0, .publish 0, .leave 0,
    .finishThread 0, .lock]

theorem returns_leftEarly :
    leftEarly.countP ThreadPoolAction.isOwn ≤ 10 * oneThread.threads + 1 ∧
      ∀ bs, (threadPool oneThread).Runs
        ((threadPool oneThread).run { numCreated_ := 0 } leftEarly) bs →
        ((threadPool oneThread).run
          ((threadPool oneThread).run { numCreated_ := 0 } leftEarly) bs).pc ≠ .returned := by
  have hruns : (threadPool oneThread).Runs { numCreated_ := 0 } leftEarly := by decide
  have h := returns_of_runs 0 hruns
  exact ⟨h.1, h.2.2 ⟨.inl (by decide), by decide⟩⟩

end ThreadPool

end CkServer
