import CkServer.Library.Machine
import CkServer.Verification.Tcp.Output

/-! # A connection used in its own thread

Runs of the member functions of one connection, all called in the thread of its loop. The
callbacks of a function come last in it, so a callback that calls the connection again is
the next call of the run. -/

namespace CkServer

/-- A call in the thread of the loop, with what the kernel returns in it. -/
inductive LoopCall where
  | send (data : List UInt8) (r : Except Errno ℕ)
  | shutdown
  | handleWrite (r : Except Errno ℕ)
  | handleRead (r : Except Errno (List UInt8))
  | handleClose

/-- The connection, the bytes that `send` has accepted, and whether `shutdown` was called. -/
structure LoopState where
  conn : TcpConnection
  accepted : List UInt8 := []
  shutdownCalled : Bool := false

/-- What a write of `len` bytes may return: a number of bytes up to `len`, or an error that
does not end the connection. -/
def Writable (len : ℕ) : Except Errno ℕ → Prop
  | .ok n => n ≤ len
  | .error e => e ≠ .EPIPE ∧ e ≠ .ECONNRESET

instance (len : ℕ) (r : Except Errno ℕ) : Decidable (Writable len r) :=
  match r with
  | .ok n => inferInstanceAs (Decidable (n ≤ len))
  | .error e => inferInstanceAs (Decidable (e ≠ .EPIPE ∧ e ≠ .ECONNRESET))

namespace LoopState

def Enabled (s : LoopState) : LoopCall → Prop
  | .send data r => Writable data.length r
  | .shutdown => True
  | .handleWrite r => Writable s.conn.outputBuffer_.readableBytes r
  | .handleRead _ => True
  | .handleClose => True

instance (s : LoopState) : ∀ call, Decidable (s.Enabled call)
  | .send data r => inferInstanceAs (Decidable (Writable data.length r))
  | .shutdown => .isTrue trivial
  | .handleWrite r => inferInstanceAs (Decidable (Writable s.conn.outputBuffer_.readableBytes r))
  | .handleRead _ => .isTrue trivial
  | .handleClose => .isTrue trivial

def next (s : LoopState) : LoopCall → LoopState
  | .send data r =>
      { s with
        conn := s.conn.send data r
        accepted := if s.conn.state_ = .kConnected then s.accepted ++ data else s.accepted }
  | .shutdown => { s with conn := s.conn.shutdown, shutdownCalled := true }
  | .handleWrite r => { s with conn := s.conn.handleWrite r }
  | .handleRead r => { s with conn := s.conn.handleRead r }
  | .handleClose => { s with conn := s.conn.handleClose }

end LoopState

def oneLoop : Machine LoopState LoopCall where
  enabled := LoopState.Enabled
  next := LoopState.next

instance (s : LoopState) (call : LoopCall) : Decidable (oneLoop.enabled s call) :=
  inferInstanceAs (Decidable (s.Enabled call))

/-- A connection that has just been established. -/
def established (address fd : ℕ) (cbs : Callbacks) : LoopState where
  conn := (TcpConnection.new address fd cbs).connectEstablished

/-- The stream is the accepted bytes, and its end is not cut off. -/
structure OutputIntact (s : LoopState) : Prop where
  stream : s.conn.state_ = .kConnected ∨ s.conn.state_ = .kDisconnecting →
    written s.conn.socket_ ++ s.conn.outputBuffer_.readable = s.accepted
  interest : s.conn.state_ = .kConnected ∨ s.conn.state_ = .kDisconnecting →
    (s.conn.channel_.isWriting = true ↔ s.conn.outputBuffer_.readable ≠ [])
  drained : .shutdownWrite ∈ s.conn.socket_ →
    s.conn.outputBuffer_.readable = [] ∧ s.shutdownCalled = true
  last : NoWriteAfterShutdown s.conn.socket_

/-! ## The invariant -/

structure OutputInvariant (s : LoopState) : Prop extends OutputIntact s where
  begun : s.conn.state_ ≠ .kconnecting
  idle : s.conn.state_ = .kDisconnected → s.conn.channel_.isWriting = false
  requested : s.conn.state_ = .kDisconnecting → s.shutdownCalled = true
  closing : .shutdownWrite ∈ s.conn.socket_ → s.conn.state_ ≠ .kConnected

namespace OutputInvariant

variable {s : LoopState}

theorem established (address fd : ℕ) (cbs : Callbacks) :
    OutputInvariant (CkServer.established address fd cbs) := by
  have hsocket : (CkServer.established address fd cbs).conn.socket_ = [] := rfl
  have hidle : (TcpConnection.new address fd cbs).channel_.isWriting = false := by
    simp [TcpConnection.new, Channel.isWriting, kNoneEvent]
  have hempty : (TcpConnection.new address fd cbs).outputBuffer_.readable = [] :=
    Buffer.readable_new _ (by decide)
  constructor
  · constructor
    · intro _
      simp [CkServer.established, TcpConnection.new, written]
    · intro _
      simp [CkServer.established, hempty, hidle]
    · simp [hsocket]
    · exact List.Pairwise.nil
  · simp [CkServer.established]
  · simp [CkServer.established]
  · simp [CkServer.established]
  · simp [hsocket]

/-- A connection that wants to write has not shut its output down. -/
theorem shutdown_notMem_of_writing (h : OutputInvariant s) (hw : s.conn.channel_.isWriting = true) :
    .shutdownWrite ∉ s.conn.socket_ := by
  intro hmem
  cases hstate : s.conn.state_ with
  | kDisconnected => simp [h.idle hstate] at hw
  | kconnecting => exact h.begun hstate
  | kConnected => exact h.closing hmem hstate
  | kDisconnecting => exact (h.interest (.inr hstate)).mp hw (h.drained hmem).1

theorem send (h : OutputInvariant s) {data : List UInt8} {r : Except Errno ℕ}
    (hr : Writable data.length r) : OutputInvariant (s.next (.send data r)) := by
  by_cases hstate : s.conn.state_ = .kConnected
  · have hfault : r ≠ .error .EPIPE ∧ r ≠ .error .ECONNRESET := by
      constructor <;> rintro rfl <;> simp [Writable] at hr
    have hnot : .shutdownWrite ∉ s.conn.socket_ := fun hmem => h.closing hmem hstate
    have hsocket : .shutdownWrite ∉ (s.conn.sendInLoop data r).socket_ ∧
        NoWriteAfterShutdown (s.conn.sendInLoop data r).socket_ := by
      rcases s.conn.sendInLoop_socket_ data r with heq | ⟨-, -, heq⟩
      · rw [heq]
        exact ⟨hnot, h.last⟩
      · rw [heq, noWriteAfterShutdown_snoc]
        exact ⟨by simp [hnot], h.last, fun hmem => absurd hmem hnot⟩
    have hstream := s.conn.stream_sendInLoop data r hfault
    have hinterest := s.conn.interested_sendInLoop data r (h.interest (.inl hstate))
    rw [TcpConnection.stream, TcpConnection.stream, h.stream (.inl hstate)] at hstream
    simp only [LoopState.next, TcpConnection.send, hstate, if_true]
    refine ⟨⟨fun _ => hstream, fun _ => hinterest, fun hmem => absurd hmem hsocket.1, hsocket.2⟩,
      ?_, ?_, ?_, fun hmem => absurd hmem hsocket.1⟩
    · exact fun hnew => by simp [hstate] at hnew
    · exact fun hclosed => by simp [hstate] at hclosed
    · exact fun hclosing => by simp [hstate] at hclosing
  · simpa only [LoopState.next, TcpConnection.send, hstate, if_false] using h

/-- Shutting the output down, asked for and with nothing left to write, keeps the invariant. -/
theorem shutdownInLoop (h : OutputInvariant s) (hstate : s.conn.state_ = .kDisconnecting) :
    OutputInvariant { s with conn := s.conn.shutdownInLoop } := by
  rcases s.conn.shutdownInLoop_eq with heq | ⟨hidle, heq⟩
  · rwa [heq]
  · have hempty : s.conn.outputBuffer_.readable = [] := by
      by_contra hne
      simp [(h.interest (.inr hstate)).mpr hne] at hidle
    rw [heq]
    constructor
    · constructor
      · intro _
        simpa [TcpConnection.onSocket, SocketCall.bytes] using h.stream (.inr hstate)
      · exact h.interest
      · exact fun _ => ⟨hempty, h.requested hstate⟩
      · exact noWriteAfterShutdown_snoc.mpr ⟨h.last, fun _ => rfl⟩
    · exact h.begun
    · exact h.idle
    · exact h.requested
    · exact fun _ => by simp [TcpConnection.onSocket, hstate]

theorem shutdown (h : OutputInvariant s) : OutputInvariant (s.next .shutdown) := by
  by_cases hstate : s.conn.state_ = .kConnected
  · have hasked : OutputInvariant
        { s with conn := s.conn.setState .kDisconnecting, shutdownCalled := true } := by
      constructor
      · exact ⟨fun _ => h.stream (.inl hstate), fun _ => h.interest (.inl hstate),
          fun hmem => ⟨(h.drained hmem).1, rfl⟩, h.last⟩
      · simp [TcpConnection.setState]
      · simp [TcpConnection.setState]
      · exact fun _ => rfl
      · simp [TcpConnection.setState]
    simp only [LoopState.next, TcpConnection.shutdown, hstate, if_true]
    exact hasked.shutdownInLoop rfl
  · simp only [LoopState.next, TcpConnection.shutdown, hstate, if_false]
    exact ⟨⟨h.stream, h.interest, fun hmem => ⟨(h.drained hmem).1, rfl⟩, h.last⟩, h.begun, h.idle,
      fun _ => rfl, h.closing⟩

theorem writeOutput (h : OutputInvariant s) (r : Except Errno ℕ) :
    OutputInvariant { s with conn := (s.conn.writeOutput r).1 } := by
  have hstream := s.conn.stream_writeOutput r
  simp only [TcpConnection.stream] at hstream
  have hnot : s.conn.channel_.isWriting = true → .shutdownWrite ∉ s.conn.socket_ :=
    h.shutdown_notMem_of_writing
  have hsame : s.conn.channel_.isWriting = false → (s.conn.writeOutput r).1 = s.conn :=
    fun hidle => by rw [s.conn.writeOutput_of_idle r hidle]
  -- the log grows by a write, and then it holds no `shutdownWrite`
  have hmem : .shutdownWrite ∈ (s.conn.writeOutput r).1.socket_ →
      .shutdownWrite ∈ s.conn.socket_ ∧ (s.conn.writeOutput r).1 = s.conn := by
    intro hmem
    cases hw : s.conn.channel_.isWriting with
    | false =>
        rw [hsame hw] at hmem
        exact ⟨hmem, hsame hw⟩
    | true =>
        rcases s.conn.writeOutput_socket_ r with heq | ⟨-, heq⟩
        · exact absurd (heq ▸ hmem) (hnot hw)
        · rw [heq] at hmem
          exact absurd hmem (by simp [hnot hw])
  constructor
  · constructor
    · intro hstate
      simp only [TcpConnection.writeOutput_state_] at hstate ⊢
      rw [hstream, h.stream hstate]
    · intro hstate
      simp only [TcpConnection.writeOutput_state_] at hstate
      exact s.conn.interested_writeOutput r (h.interest hstate)
    · intro hshut
      obtain ⟨hold, heq⟩ := hmem hshut
      simp only [heq]
      exact h.drained hold
    · rcases s.conn.writeOutput_socket_ r with heq | ⟨hw, heq⟩
      · simpa only [heq] using h.last
      · simp only [heq]
        exact noWriteAfterShutdown_snoc.mpr ⟨h.last, fun hold => absurd hold (hnot hw)⟩
  · simpa using h.begun
  · intro hstate
    simp only [TcpConnection.writeOutput_state_] at hstate
    simp only [hsame (h.idle hstate)]
    exact h.idle hstate
  · simpa using h.requested
  · intro hshut
    simpa using h.closing (hmem hshut).1

theorem handleWrite (h : OutputInvariant s) (r : Except Errno ℕ) :
    OutputInvariant (s.next (.handleWrite r)) := by
  have hwritten := h.writeOutput r
  simp only [LoopState.next, TcpConnection.handleWrite]
  split
  · rename_i hdrained
    exact hwritten.shutdownInLoop hdrained.2
  · exact hwritten

theorem handleClose (h : OutputInvariant s) : OutputInvariant (s.next .handleClose) := by
  constructor
  · constructor
    · rintro (hstate | hstate) <;> cases hstate
    · rintro (hstate | hstate) <;> cases hstate
    · exact h.drained
    · exact h.last
  · intro hstate
    cases hstate
  · exact fun _ => s.conn.isWriting_setDisconnected
  · intro hstate
    cases hstate
  · intro _ hstate
    cases hstate

theorem handleRead (h : OutputInvariant s) (r : Except Errno (List UInt8)) :
    OutputInvariant (s.next (.handleRead r)) := by
  obtain ⟨buf, calls, -, heq⟩ := s.conn.readInput_eq r
  have hread : OutputInvariant { s with conn := (s.conn.readInput r).1 } := by
    rw [heq]
    exact ⟨⟨h.stream, h.interest, h.drained, h.last⟩, h.begun, h.idle, h.requested, h.closing⟩
  simp only [LoopState.next, TcpConnection.handleRead]
  split
  · exact hread.handleClose
  · exact hread

theorem next (h : OutputInvariant s) {call : LoopCall} (hen : s.Enabled call) :
    OutputInvariant (s.next call) := by
  cases call with
  | send data r => exact h.send hen
  | shutdown => exact h.shutdown
  | handleWrite r => exact h.handleWrite r
  | handleRead r => exact h.handleRead r
  | handleClose => exact h.handleClose

end OutputInvariant

/-! ## Every run -/

/-- In every run the output is intact. -/
theorem outputIntact_of_runs {address fd : ℕ} {cbs : Callbacks} {calls : List LoopCall}
    (h : oneLoop.Runs (established address fd cbs) calls) :
    OutputIntact (oneLoop.run (established address fd cbs) calls) := by
  have hinv : OutputInvariant (oneLoop.run (established address fd cbs) calls) :=
    oneLoop.invariant_of_runs (fun s call hs hen => hs.next hen)
      (OutputInvariant.established address fd cbs) h
  exact hinv.toOutputIntact

/-- Two bytes sent, one of them accepted at once and the other after `shutdown`. -/
theorem outputIntact_example :
    OutputIntact (oneLoop.run (established 0 5 {})
      [.send [104, 105] (.ok 1), .shutdown, .handleWrite (.ok 1)]) :=
  outputIntact_of_runs (by decide +kernel)

end CkServer
