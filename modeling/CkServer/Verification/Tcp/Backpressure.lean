import CkServer.Verification.Tcp.OneLoop
import Mathlib.Algebra.Group.Nat.Defs

/-! # Backpressure

A program that writes faster than its peer reads is told so by `highWaterMarkCallback_`, and by
`writeCompleteCallback_` that it may go on. The notices are queued exactly when the number of
bytes that wait crosses the mark upwards, and when it becomes zero. -/

namespace CkServer

namespace TcpConnection

/-- The bytes that wait to be written. -/
def backlog (c : TcpConnection) : ℕ := c.outputBuffer_.readableBytes

/-- The notices so far. -/
def pending (c : TcpConnection) : List Functor := c.loop_.pendingFuntors_

/-- What the user has set for the notices. -/
def settings (c : TcpConnection) : Bool × Bool × ℕ :=
  (c.writeCompleteCallback_, c.highWaterMarkCallback_, c.highWaterMark_)

/-- The notice that is due when the backlog goes from `before` to `after`. -/
def crossing (c : TcpConnection) (before after : ℕ) : List Functor :=
  if c.highWaterMarkCallback_ = true ∧ before < c.highWaterMark_ ∧ c.highWaterMark_ ≤ after then
    [.highWaterMarkCallback_ after]
  else []

/-- A write of `len` bytes has taken all of them. -/
def takesAll (len : ℕ) : Except Errno ℕ → Bool
  | .ok n => len ≤ n
  | .error _ => false

/-- The notice that is due when everything has been written. -/
def completion (c : TcpConnection) (finished : Bool) : List Functor :=
  if c.writeCompleteCallback_ = true ∧ finished = true then [.writeCompleteCallback_] else []

/-- The end of the functions that write. -/
def completed (c : TcpConnection) : TcpConnection :=
  if c.writeCompleteCallback_ then c.queueInLoop .writeCompleteCallback_ else c

theorem pending_completed (c : TcpConnection) :
    c.completed.pending = c.pending ++ c.completion true := by
  simp only [completed, completion, and_true]
  split
  · rfl
  · exact (List.append_nil _).symm

theorem backlog_completed (c : TcpConnection) : c.completed.backlog = c.backlog := by
  simp only [completed]
  split
  · rfl
  · rfl

theorem settings_eq_iff {c d : TcpConnection} :
    d.settings = c.settings ↔ d.writeCompleteCallback_ = c.writeCompleteCallback_ ∧
      d.highWaterMarkCallback_ = c.highWaterMarkCallback_ ∧
      d.highWaterMark_ = c.highWaterMark_ := by
  simp [settings]

theorem crossing_congr {c d : TcpConnection} (h : d.settings = c.settings) :
    d.crossing = c.crossing := by
  obtain ⟨-, hset, hmark⟩ := settings_eq_iff.mp h
  funext before after
  rw [crossing, crossing, hset, hmark]

@[simp] theorem completion_false (c : TcpConnection) : c.completion false = [] := by
  simp [completion]

theorem crossing_of_le (c : TcpConnection) {before after : ℕ} (h : after ≤ before) :
    c.crossing before after = [] := by
  rw [crossing, if_neg]
  rintro ⟨-, hbefore, hafter⟩
  omega

/-! ## Sending -/

section Sending

variable (c : TcpConnection)

theorem settings_writeDirect (data : List UInt8) (r : Except Errno ℕ) :
    (c.writeDirect data r).1.settings = c.settings := by
  obtain ⟨cbs, calls, -, h, -⟩ := c.writeDirect_eq data r
  rw [h]
  rfl

theorem settings_bufferRest (rest : List UInt8) (fault : Bool) :
    (c.bufferRest rest fault).settings = c.settings := by
  apply bufferRest_rule (P := fun c' => c'.settings = c.settings)
  · rfl
  · exact fun _ _ _ => rfl
  · exact fun _ _ _ => rfl

theorem settings_sendInLoop (data : List UInt8) (r : Except Errno ℕ) :
    (c.sendInLoop data r).settings = c.settings := by
  rw [sendInLoop_eq, settings_bufferRest, settings_writeDirect]

theorem backlog_bufferRest (rest : List UInt8) :
    (c.bufferRest rest false).backlog = c.backlog + rest.length := by
  rw [backlog, ← Buffer.length_readable, readable_bufferRest, List.length_append,
    Buffer.length_readable, backlog]

theorem pending_ite_enableWriting (p : Prop) [Decidable p] :
    (if p then c.enableWriting else c).pending = c.pending := by
  split
  · rfl
  · rfl

/-- What is put into the buffer may take it over the mark. -/
theorem pending_bufferRest (rest : List UInt8) :
    (c.bufferRest rest false).pending =
      c.pending ++ c.crossing c.backlog (c.backlog + rest.length) := by
  by_cases hrest : rest = []
  · rw [hrest, bufferRest_nil, crossing_of_le c (by simp), List.append_nil]
  · have hpos : 0 < rest.length := List.length_pos_iff.mpr hrest
    have hmark : (c.backlog + rest.length ≥ c.highWaterMark_ ∧ c.backlog < c.highWaterMark_ ∧
        c.highWaterMarkCallback_ = true) ↔ (c.highWaterMarkCallback_ = true ∧
          c.backlog < c.highWaterMark_ ∧ c.highWaterMark_ ≤ c.backlog + rest.length) := by
      constructor
      · exact fun ⟨h, h', h''⟩ => ⟨h'', h', h⟩
      · exact fun ⟨h, h', h''⟩ => ⟨h'', h', h⟩
    have hput : (c.bufferRest rest false).pending =
        (if c.backlog + rest.length ≥ c.highWaterMark_ ∧ c.backlog < c.highWaterMark_ ∧
            c.highWaterMarkCallback_ = true then
          c.queueInLoop (.highWaterMarkCallback_ (c.backlog + rest.length)) else c).pending := by
      have hcond : ¬ false = true ∧ rest.length > 0 := ⟨by simp, hpos⟩
      simp only [bufferRest, if_pos hcond]
      rw [pending_ite_enableWriting]
      rfl
    rw [hput, crossing]
    by_cases hhigh : c.highWaterMarkCallback_ = true ∧ c.backlog < c.highWaterMark_ ∧
        c.highWaterMark_ ≤ c.backlog + rest.length
    · rw [if_pos hhigh, if_pos (hmark.mpr hhigh)]
      rfl
    · rw [if_neg hhigh, if_neg (fun h => hhigh (hmark.mp h)), List.append_nil]

/-- A write that takes all of the data is complete. -/
theorem pending_writeDirect (data : List UInt8) (r : Except Errno ℕ) :
    (c.writeDirect data r).1.pending = c.pending ++
      c.completion (decide (c.channel_.isWriting = false ∧ c.backlog = 0) &&
        takesAll data.length r) := by
  by_cases hidle : c.channel_.isWriting = false ∧ c.backlog = 0
  · have hcond : ¬ c.channel_.isWriting ∧ c.outputBuffer_.readableBytes = 0 :=
      ⟨by simp [hidle.1], hidle.2⟩
    rw [decide_eq_true hidle, Bool.true_and]
    cases r with
    | error e => simp [writeDirect, hcond, pending, onSocket, takesAll]
    | ok n =>
        have hall : takesAll data.length (.ok n) = decide (data.length - n = 0) := by
          simp [takesAll, Nat.sub_eq_zero_iff_le]
        have hset : (c.onSocket (.write data (.ok n))).writeCompleteCallback_ =
            c.writeCompleteCallback_ := rfl
        simp only [writeDirect, if_pos hcond, hall, hset, completion, decide_eq_true_eq]
        by_cases hcb : data.length - n = 0 ∧ c.writeCompleteCallback_ = true
        · rw [if_pos hcb, if_pos hcb.symm]
          rfl
        · rw [if_neg hcb, if_neg (fun h => hcb h.symm)]
          exact (List.append_nil _).symm
  · have hwaiting : ¬ (c.channel_.isWriting = false ∧ c.outputBuffer_.readable = []) := by
      rw [Buffer.readable_eq_nil_iff]
      exact hidle
    rw [writeDirect_of_waiting c data r hwaiting, decide_eq_false hidle, Bool.false_and,
      completion_false, List.append_nil]

/-- A call of `send` announces that everything has been written, or that the mark is crossed. -/
theorem pending_sendInLoop (h : c.Interested) (data : List UInt8) {r : Except Errno ℕ}
    (hr : Writable data.length r) :
    (c.sendInLoop data r).pending = c.pending ++
      (c.completion (decide (c.backlog = 0) && takesAll data.length r) ++
        c.crossing c.backlog (c.sendInLoop data r).backlog) := by
  have hfault : (c.writeDirect data r).2.2 = false := by
    by_contra htrue
    rcases c.writeDirect_faultError data r (by simpa using htrue) with rfl | rfl
    · exact absurd rfl hr.1
    · exact absurd rfl hr.2
  have hidle : (c.channel_.isWriting = false ∧ c.backlog = 0) ↔ c.backlog = 0 := by
    refine ⟨And.right, fun hempty => ⟨?_, hempty⟩⟩
    by_contra hwriting
    have hreadable := h.mp (by simpa using hwriting)
    rw [ne_eq, Buffer.readable_eq_nil_iff] at hreadable
    exact hreadable hempty
  have hsettings := crossing_congr (c.settings_writeDirect data r)
  have hbacklog : (c.writeDirect data r).1.backlog = c.backlog := by
    rw [backlog, writeDirect_outputBuffer_, backlog]
  rw [sendInLoop_eq, hfault, pending_bufferRest, backlog_bufferRest, pending_writeDirect,
    hsettings, hbacklog, List.append_assoc]
  simp only [hidle]

theorem le_backlog_sendInLoop (data : List UInt8) (r : Except Errno ℕ) :
    c.backlog ≤ (c.sendInLoop data r).backlog := by
  have hbacklog : (c.writeDirect data r).1.backlog = c.backlog := by
    rw [backlog, writeDirect_outputBuffer_, backlog]
  rw [sendInLoop_eq]
  cases (c.writeDirect data r).2.2 with
  | true => rw [bufferRest_of_fault, hbacklog]
  | false =>
      rw [backlog_bufferRest, hbacklog]
      exact Nat.le_add_right _ _

end Sending

/-! ## Writing -/

section Writing

variable (c : TcpConnection) (r : Except Errno ℕ)

theorem settings_writeOutput : (c.writeOutput r).1.settings = c.settings := by
  apply writeOutput_rule (P := fun c' => c'.settings = c.settings)
  · exact fun _ => rfl
  · exact fun _ _ _ _ => rfl
  · exact fun _ _ _ _ _ _ => rfl

theorem settings_shutdownInLoop : c.shutdownInLoop.settings = c.settings := by
  rcases c.shutdownInLoop_eq with heq | ⟨-, heq⟩
  · rw [heq]
  · rw [heq]
    rfl

theorem settings_handleWrite : (c.handleWrite r).settings = c.settings := by
  simp only [handleWrite]
  split
  · rw [settings_shutdownInLoop, settings_writeOutput]
  · exact c.settings_writeOutput r

theorem handleWrite_frame :
    (c.handleWrite r).pending = (c.writeOutput r).1.pending ∧
      (c.handleWrite r).backlog = (c.writeOutput r).1.backlog := by
  simp only [handleWrite, pending, backlog]
  split
  · rw [shutdownInLoop_loop_, shutdownInLoop_outputBuffer_]
    exact ⟨rfl, rfl⟩
  · exact ⟨rfl, rfl⟩

theorem pending_writeOutput_of_drained (hdrained : (c.writeOutput r).2 = true) :
    (c.writeOutput r).1.pending = c.pending ++ c.completion true ∧
      (c.writeOutput r).1.backlog = 0 := by
  obtain ⟨hwriting, n, -, rfl, -, hnil, -⟩ := c.writeOutput_of_drained r hdrained
  have hzero : (c.outputBuffer_.retrieve n).readableBytes = 0 := by
    rw [← Buffer.readable_eq_nil_iff, Buffer.readable_retrieve, hnil]
  have hpos : n > 0 := by
    by_contra hnot
    simp [writeOutput, hwriting, hnot] at hdrained
  have heq : (c.writeOutput (.ok n)).1 =
      completed (disableWriting { c.onSocket (.write c.outputBuffer_.readable (.ok n)) with
        outputBuffer_ := c.outputBuffer_.retrieve n }) := by
    have hzero' : ({ c.onSocket (.write c.outputBuffer_.readable (.ok n)) with
        outputBuffer_ := c.outputBuffer_.retrieve n } : TcpConnection).outputBuffer_.readableBytes =
          0 := hzero
    simp only [writeOutput, if_pos hwriting, if_pos hpos]
    exact congrArg Prod.fst (if_pos hzero')
  rw [heq, pending_completed, backlog_completed]
  exact ⟨rfl, hzero⟩

/-- The drain of the buffer is announced. -/
theorem pending_handleWrite (h : c.Interested) :
    (c.handleWrite r).pending = c.pending ++
      c.completion (decide (c.backlog ≠ 0) && decide ((c.handleWrite r).backlog = 0)) := by
  have hbefore : c.channel_.isWriting = true ↔ c.backlog ≠ 0 := by
    rw [backlog, ne_eq, ← Buffer.readable_eq_nil_iff]
    exact h
  obtain ⟨hpending, hbacklog⟩ := c.handleWrite_frame r
  rw [hpending, hbacklog]
  cases hwriting : c.channel_.isWriting with
  | false =>
      have hempty : ¬ c.backlog ≠ 0 := fun hne => by simp [hbefore.mpr hne] at hwriting
      rw [c.writeOutput_of_idle r hwriting, decide_eq_false hempty, Bool.false_and,
        completion_false, List.append_nil]
  | true =>
      cases hdrained : (c.writeOutput r).2 with
      | true =>
          obtain ⟨hsome, hzero⟩ := c.pending_writeOutput_of_drained r hdrained
          rw [hsome, decide_eq_true (hbefore.mp hwriting), decide_eq_true hzero,
            Bool.true_and]
      | false =>
          obtain ⟨n, heq, -, hleft⟩ := c.writeOutput_of_writing r hwriting hdrained
          have hne : (c.writeOutput r).1.backlog ≠ 0 := by
            rw [heq, backlog, ne_eq, ← Buffer.readable_eq_nil_iff]
            by_cases hn : n = 0
            · simpa only [if_pos hn] using h.mp hwriting
            · simpa only [if_neg hn, Buffer.readable_retrieve] using hleft hn
          rw [decide_eq_false hne, Bool.and_false, completion_false, List.append_nil, heq]
          rfl

/-- A write that takes everything drains the buffer. -/
theorem backlog_handleWrite_all (h : c.Interested) (hne : c.backlog ≠ 0) :
    (c.handleWrite (.ok c.backlog)).backlog = 0 := by
  have hreadable : c.outputBuffer_.readable ≠ [] := by
    rwa [ne_eq, Buffer.readable_eq_nil_iff]
  have hwriting := h.mpr hreadable
  rw [(c.handleWrite_frame _).2]
  cases hdrained : (c.writeOutput (.ok c.backlog)).2 with
  | true => exact (c.pending_writeOutput_of_drained _ hdrained).2
  | false =>
      obtain ⟨n, -, hbytes, hleft⟩ := c.writeOutput_of_writing _ hwriting hdrained
      have hall : c.outputBuffer_.readable.take n = c.outputBuffer_.readable := by
        rw [← hbytes]
        exact List.take_of_length_le c.outputBuffer_.length_readable.le
      have hdrop : c.outputBuffer_.readable.drop n = [] := by
        have hsplit := List.take_append_drop n c.outputBuffer_.readable
        rw [hall] at hsplit
        exact List.append_right_eq_self.mp hsplit
      by_cases hn : n = 0
      · rw [hn, List.take_zero] at hall
        exact absurd hall.symm hreadable
      · exact absurd hdrop (hleft hn)

theorem backlog_handleWrite_le : (c.handleWrite r).backlog ≤ c.backlog := by
  rw [(c.handleWrite_frame r).2]
  cases hwriting : c.channel_.isWriting with
  | false => rw [c.writeOutput_of_idle r hwriting]
  | true =>
      cases hdrained : (c.writeOutput r).2 with
      | true =>
          rw [(c.pending_writeOutput_of_drained r hdrained).2]
          exact Nat.zero_le _
      | false =>
          obtain ⟨n, heq, -, -⟩ := c.writeOutput_of_writing r hwriting hdrained
          rw [heq, backlog, backlog, ← Buffer.length_readable, ← Buffer.length_readable]
          by_cases hn : n = 0
          · simp only [if_pos hn]
            exact le_rfl
          · simp only [if_neg hn, Buffer.readable_retrieve, List.length_drop]
            exact Nat.sub_le _ _

end Writing

end TcpConnection

namespace LoopState

open TcpConnection

variable {s : LoopState}

/-- A call that leaves nothing to be written, and has written something or was asked to. -/
def finishes (s : LoopState) : LoopCall → Bool
  | .send data r =>
      s.conn.state_ = .kConnected && s.conn.backlog = 0 && takesAll data.length r
  | .handleWrite r => s.conn.backlog ≠ 0 && (s.next (.handleWrite r)).conn.backlog = 0
  | _ => false

/-- The notices that a call has to queue, from the backlog before and after it. -/
def notices (s : LoopState) (call : LoopCall) : List Functor :=
  s.conn.completion (s.finishes call) ++
    s.conn.crossing s.conn.backlog (s.next call).conn.backlog

/-- The calls that neither write nor take data queue nothing. -/
theorem frame_of_other {call : LoopCall} (hsend : ∀ data r, call ≠ .send data r)
    (hwrite : ∀ r, call ≠ .handleWrite r) :
    (s.next call).conn.pending = s.conn.pending ∧ (s.next call).conn.backlog = s.conn.backlog ∧
      (s.next call).conn.settings = s.conn.settings := by
  cases call with
  | send data r => exact absurd rfl (hsend data r)
  | handleWrite r => exact absurd rfl (hwrite r)
  | shutdown =>
      simp only [next, shutdown]
      split
      · rw [pending, shutdownInLoop_loop_, backlog, shutdownInLoop_outputBuffer_,
          settings_shutdownInLoop]
        exact ⟨rfl, rfl, rfl⟩
      · exact ⟨rfl, rfl, rfl⟩
  | handleRead r =>
      obtain ⟨buf, calls, -, heq⟩ := s.conn.readInput_eq r
      simp only [next, handleRead]
      split
      · rw [heq]
        exact ⟨rfl, rfl, rfl⟩
      · rw [heq]
        exact ⟨rfl, rfl, rfl⟩
  | handleClose => exact ⟨rfl, rfl, rfl⟩

theorem settings_next (s : LoopState) (call : LoopCall) :
    (s.next call).conn.settings = s.conn.settings := by
  cases call with
  | send data r =>
      simp only [next, send]
      split
      · exact s.conn.settings_sendInLoop data r
      · rfl
  | handleWrite r => exact s.conn.settings_handleWrite r
  | _ => exact (frame_of_other (by simp) (by simp)).2.2

/-- Only `handleWrite` makes the backlog smaller. -/
theorem le_backlog_next {call : LoopCall} (h : ∀ r, call ≠ .handleWrite r) :
    s.conn.backlog ≤ (s.next call).conn.backlog := by
  cases call with
  | send data r =>
      simp only [next, send]
      split
      · exact s.conn.le_backlog_sendInLoop data r
      · exact le_rfl
  | handleWrite r => exact absurd rfl (h r)
  | _ => exact (frame_of_other (by simp) (by simp)).2.1.ge

theorem interested (h : OutputInvariant s) (hopen : s.conn.state_ ≠ .kDisconnected) :
    s.conn.Interested := by
  cases hstate : s.conn.state_ with
  | kDisconnected => exact absurd hstate hopen
  | kconnecting => exact absurd hstate h.begun
  | kConnected => exact h.interest (.inl hstate)
  | kDisconnecting => exact h.interest (.inr hstate)

theorem pending_of_other {call : LoopCall} (hsend : ∀ data r, call ≠ .send data r)
    (hwrite : ∀ r, call ≠ .handleWrite r) (hfinishes : s.finishes call = false) :
    (s.next call).conn.pending = s.conn.pending ++ s.notices call := by
  obtain ⟨hpending, hbacklog, -⟩ := frame_of_other hsend hwrite
  rw [hpending, notices, hbacklog, hfinishes, s.conn.crossing_of_le le_rfl, completion_false,
    List.append_nil, List.append_nil]

/-- A call queues the notices that are due, and nothing else. -/
theorem pending_next (h : OutputInvariant s) {call : LoopCall} (hen : s.Enabled call) :
    (s.next call).conn.pending = s.conn.pending ++ s.notices call := by
  cases call with
  | send data r =>
      by_cases hstate : s.conn.state_ = .kConnected
      · have hinterested := interested h (by rw [hstate]; simp)
        simp only [notices, finishes, next, send, if_pos hstate, decide_eq_true hstate,
          Bool.true_and]
        exact s.conn.pending_sendInLoop hinterested data hen
      · simp [notices, finishes, next, send, hstate, crossing_of_le]
  | handleWrite r =>
      have hle : s.conn.crossing s.conn.backlog (s.conn.handleWrite r).backlog = [] :=
        s.conn.crossing_of_le (s.conn.backlog_handleWrite_le r)
      simp only [notices, finishes, next, hle, List.append_nil]
      by_cases hstate : s.conn.state_ = .kDisconnected
      · have hsame : s.conn.handleWrite r = s.conn := by
          simp [handleWrite, s.conn.writeOutput_of_idle r (h.idle hstate)]
        simp [hsame]
      · exact s.conn.pending_handleWrite r (interested h hstate)
  | shutdown => exact pending_of_other (by simp) (by simp) rfl
  | handleRead r => exact pending_of_other (by simp) (by simp) rfl
  | handleClose => exact pending_of_other (by simp) (by simp) rfl

end LoopState

/-! ## A program that waits -/

/-- A program that stops sending when it is told that the mark has been crossed, and goes on when
it is told that everything has been written, waits after these notices. -/
def waits (notices : List Functor) : Bool :=
  notices.foldl (fun waiting cb =>
    match cb with
    | .highWaterMarkCallback_ _ => true
    | .writeCompleteCallback_ => false
    | _ => waiting) false

theorem waits_append (xs ys : List Functor) :
    waits (xs ++ ys) = ys.foldl (fun waiting cb =>
      match cb with
      | .highWaterMarkCallback_ _ => true
      | .writeCompleteCallback_ => false
      | _ => waiting) (waits xs) :=
  List.foldl_append

namespace LoopState

open TcpConnection

variable {s : LoopState}

/-- With both callbacks set and a mark of `mark` bytes, a program waits when the backlog has
reached the mark, and while it waits there is a backlog. -/
structure Regulated (s : LoopState) (mark : ℕ) : Prop where
  settings : s.conn.settings = (true, true, mark)
  told : mark ≤ s.conn.backlog → waits s.conn.pending = true
  left : waits s.conn.pending = true → s.conn.backlog ≠ 0

/-- The notices of a call, by the backlog before and after it. -/
theorem Regulated.notices_eq {mark : ℕ} (h : s.Regulated mark) (call : LoopCall) :
    s.notices call =
      (if s.finishes call = true then [.writeCompleteCallback_] else []) ++
        if s.conn.backlog < mark ∧ mark ≤ (s.next call).conn.backlog then
          [.highWaterMarkCallback_ (s.next call).conn.backlog]
        else [] := by
  obtain ⟨hcomplete, hhigh, hmark⟩ : s.conn.writeCompleteCallback_ = true ∧
      s.conn.highWaterMarkCallback_ = true ∧ s.conn.highWaterMark_ = mark := by
    simpa [TcpConnection.settings] using h.settings
  simp only [notices, completion, crossing, hcomplete, hhigh, hmark, true_and]

theorem zero_of_finishes {call : LoopCall} (h : s.finishes call = true) :
    s.conn.backlog = 0 ∨ (s.next call).conn.backlog = 0 := by
  cases call with
  | send data r =>
      simp only [finishes, Bool.and_eq_true, decide_eq_true_eq] at h
      exact .inl h.1.2
  | handleWrite r =>
      simp only [finishes, Bool.and_eq_true, decide_eq_true_eq] at h
      exact .inr h.2
  | _ => cases h

/-- A backlog ends with a notice. -/
theorem left_of_not_finishes {call : LoopCall} (hne : s.conn.backlog ≠ 0)
    (h : s.finishes call = false) : (s.next call).conn.backlog ≠ 0 := by
  by_cases hwrite : ∃ r, call = .handleWrite r
  · obtain ⟨r, rfl⟩ := hwrite
    intro hzero
    simp [finishes, hne, hzero] at h
  · have hle : s.conn.backlog ≤ (s.next call).conn.backlog :=
      le_backlog_next (fun r hr => hwrite ⟨r, hr⟩)
    omega

theorem Regulated.next {mark : ℕ} (hmark : 0 < mark) (hr : s.Regulated mark)
    (h : OutputInvariant s) {call : LoopCall} (hen : s.Enabled call) :
    (s.next call).Regulated mark := by
  have hpending := pending_next h hen
  rw [hr.notices_eq] at hpending
  by_cases hcross : s.conn.backlog < mark ∧ mark ≤ (s.next call).conn.backlog
  · have hwaits : waits (s.next call).conn.pending = true := by
      rw [hpending, if_pos hcross, ← List.append_assoc, waits_append]
      rfl
    exact ⟨(s.settings_next call).trans hr.settings, fun _ => hwaits, fun _ => by omega⟩
  · rw [if_neg hcross, List.append_nil] at hpending
    refine ⟨(s.settings_next call).trans hr.settings, fun hle => ?_, fun hwaits => ?_⟩
    · have hbefore : mark ≤ s.conn.backlog := by omega
      have hnot : s.finishes call = false := by
        cases hfinishes : s.finishes call with
        | false => rfl
        | true =>
            rcases zero_of_finishes hfinishes with hzero | hzero
            · omega
            · omega
      rw [hpending, hnot, if_neg Bool.false_ne_true, List.append_nil]
      exact hr.told hbefore
    · cases hfinishes : s.finishes call with
      | true =>
          rw [hpending, hfinishes, if_pos rfl, waits_append] at hwaits
          cases hwaits
      | false =>
          rw [hpending, hfinishes, if_neg Bool.false_ne_true, List.append_nil] at hwaits
          exact left_of_not_finishes (hr.left hwaits) hfinishes

/-- A program that waits has bytes in the buffer and the interest in writing on, and is told to go
on by the write that takes them. -/
theorem Regulated.released {mark : ℕ} (hmark : 0 < mark) (hr : s.Regulated mark)
    (h : OutputInvariant s) (hopen : s.conn.state_ ≠ .kDisconnected)
    (hwaits : waits s.conn.pending = true) :
    s.conn.channel_.isWriting = true ∧
      waits (s.next (.handleWrite (.ok s.conn.backlog))).conn.pending = false := by
  have hinterested := interested h hopen
  have hne := hr.left hwaits
  have hreadable : s.conn.outputBuffer_.readable ≠ [] := by
    rwa [ne_eq, Buffer.readable_eq_nil_iff]
  have hnext : (s.next (.handleWrite (.ok s.conn.backlog))).Regulated mark :=
    hr.next hmark h (le_refl s.conn.backlog)
  refine ⟨hinterested.mpr hreadable, ?_⟩
  cases hagain : waits (s.next (.handleWrite (.ok s.conn.backlog))).conn.pending with
  | false => rfl
  | true => exact absurd (s.conn.backlog_handleWrite_all hinterested hne) (hnext.left hagain)

end LoopState

/-! ## Runs -/

/-- What holds in every state of a run. -/
structure Regulating (s : LoopState) (mark : ℕ) : Prop where
  regulated : s.Regulated mark
  output : OutputInvariant s

theorem regulating_of_runs {address fd : ℕ} {cbs : Callbacks} {calls : List LoopCall}
    (hcomplete : cbs.writeCompleteCallback_ = true) (hhigh : cbs.highWaterMarkCallback_ = true)
    (hmark : 0 < cbs.highWaterMark_) (hruns : oneLoop.Runs (established address fd cbs) calls) :
    Regulating (oneLoop.run (established address fd cbs) calls) cbs.highWaterMark_ := by
  have hstep (s : LoopState) (call : LoopCall) (h : Regulating s cbs.highWaterMark_)
      (hen : oneLoop.enabled s call) : Regulating (oneLoop.next s call) cbs.highWaterMark_ :=
    ⟨h.regulated.next hmark h.output hen, h.output.next hen⟩
  refine oneLoop.invariant_of_runs hstep ⟨?_, OutputInvariant.established address fd cbs⟩ hruns
  have hempty : (established address fd cbs).conn.backlog = 0 := rfl
  refine ⟨?_, fun hle => ?_, fun hwaits => ?_⟩
  · have hsettings : (established address fd cbs).conn.settings =
        (cbs.writeCompleteCallback_, cbs.highWaterMarkCallback_, cbs.highWaterMark_) := rfl
    rw [hsettings, hcomplete, hhigh]
  · omega
  · cases hwaits

/-- In every run without a socket error that ends the connection each call queues the notices that
are due, by the backlog before and after it. A program that waits for `writeCompleteCallback_` after
`highWaterMarkCallback_` waits whenever the backlog has reached the mark, and never for nothing:
while the connection is not closed the interest in writing is on, and the write that takes the
backlog lets the program go on. -/
theorem backpressure_of_runs {address fd : ℕ} {cbs : Callbacks} {calls : List LoopCall}
    (hruns : oneLoop.Runs (established address fd cbs) calls) :
    oneLoop.Always (fun s call => (s.next call).conn.pending = s.conn.pending ++ s.notices call)
        (established address fd cbs) calls ∧
      (cbs.writeCompleteCallback_ = true → cbs.highWaterMarkCallback_ = true →
        0 < cbs.highWaterMark_ →
        let s := oneLoop.run (established address fd cbs) calls
        (cbs.highWaterMark_ ≤ s.conn.backlog → waits s.conn.pending = true) ∧
        (waits s.conn.pending = true → s.conn.backlog ≠ 0 ∧
          (s.conn.state_ ≠ .kDisconnected → s.conn.channel_.isWriting = true ∧
            waits (s.next (.handleWrite (.ok s.conn.backlog))).conn.pending = false))) := by
  refine ⟨?_, fun hcomplete hhigh hmark => ?_⟩
  · exact oneLoop.always_of_invariant (fun s call hs hen _ => OutputInvariant.next hs hen)
      (fun s call hs hen _ => LoopState.pending_next hs hen)
      (OutputInvariant.established address fd cbs) hruns hruns
  · have h := regulating_of_runs hcomplete hhigh hmark hruns
    refine ⟨h.regulated.told, fun hwaits => ⟨h.regulated.left hwaits, fun hopen => ?_⟩⟩
    exact h.regulated.released hmark h.output hopen hwaits

/-- A mark of three bytes. -/
def markOfThree : Callbacks :=
  { writeCompleteCallback_ := true, highWaterMarkCallback_ := true, highWaterMark_ := 3 }

/-- Two bytes of six are written at once, and one more later. -/
theorem backpressure_markOfThree :
    let s := oneLoop.run (established 0 5 markOfThree)
      [.send [1, 2, 3, 4, 5, 6] (.ok 2), .handleWrite (.ok 1), .handleWrite (.error .EWOULDBLOCK)]
    s.conn.backlog = 3 ∧ waits s.conn.pending = true := by
  intro s
  have hruns : oneLoop.Runs (established 0 5 markOfThree)
      [.send [1, 2, 3, 4, 5, 6] (.ok 2), .handleWrite (.ok 1),
        .handleWrite (.error .EWOULDBLOCK)] := by decide +kernel
  have hbacklog : s.conn.backlog = 3 := by decide +kernel
  have h := (backpressure_of_runs hruns).2 rfl rfl (by decide)
  exact ⟨hbacklog, h.1 hbacklog.ge⟩

end CkServer
