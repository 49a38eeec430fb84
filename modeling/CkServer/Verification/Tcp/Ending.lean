import CkServer.Verification.Tcp.OneLoop

/-! # The end of the output

The peer of a connection takes what waits at the writable events that come. When nothing waits any
more, a connection that shuts down ends its output. -/

namespace CkServer

/-- A connection that shuts down and has nothing to write has shut its output down. -/
def TcpConnection.Ended (c : TcpConnection) : Prop :=
  c.state_ = .kDisconnecting → c.channel_.isWriting = false → .shutdownWrite ∈ c.socket_

namespace TcpConnection

theorem Ended.shutdownInLoop (c : TcpConnection) : c.shutdownInLoop.Ended := by
  intro _ hidle
  rw [shutdownInLoop_channel_] at hidle
  simp [TcpConnection.shutdownInLoop, hidle, onSocket]

theorem Ended.send {c : TcpConnection} (h : c.Ended) (data : List UInt8) (r : Except Errno ℕ) :
    (c.send data r).Ended := by
  rw [TcpConnection.send]
  split
  · next hconn =>
      intro hstate
      rw [sendInLoop_state_, hconn] at hstate
      cases hstate
  · exact h

theorem Ended.shutdown {c : TcpConnection} (h : c.Ended) : c.shutdown.Ended := by
  rw [TcpConnection.shutdown]
  split
  · exact .shutdownInLoop _
  · exact h

theorem Ended.handleWrite {c : TcpConnection} (h : c.Ended) (r : Except Errno ℕ) :
    (c.handleWrite r).Ended := by
  simp only [TcpConnection.handleWrite]
  split
  · exact .shutdownInLoop _
  · next hnot =>
      intro hstate hidle
      rw [writeOutput_state_] at hstate
      cases hw : c.channel_.isWriting with
      | false =>
          rw [c.writeOutput_of_idle r hw]
          exact h hstate hw
      | true =>
          -- the interest is still there, unless the buffer has just been drained
          have hleft : (c.writeOutput r).2 = false := by
            simpa [hstate] using hnot
          obtain ⟨n, heq, -, -⟩ := c.writeOutput_of_writing r hw hleft
          rw [heq] at hidle
          exact absurd hw (by simp [hidle])

theorem send_inputBuffer_ (c : TcpConnection) (data : List UInt8) (r : Except Errno ℕ) :
    (c.send data r).inputBuffer_ = c.inputBuffer_ := by
  rw [send]
  split
  · obtain ⟨cbs, calls, -, heq, -⟩ := c.writeDirect_eq data r
    rw [sendInLoop_eq]
    apply bufferRest_rule (P := fun c' => c'.inputBuffer_ = c.inputBuffer_)
    · rw [heq]; rfl
    · intro cbs _ _
      rw [heq]; rfl
    · intro cbs _ _
      rw [heq]; rfl
  · rfl

theorem handleWrite_inputBuffer_ (c : TcpConnection) (r : Except Errno ℕ) :
    (c.handleWrite r).inputBuffer_ = c.inputBuffer_ := by
  have hwrite : (c.writeOutput r).1.inputBuffer_ = c.inputBuffer_ := by
    apply c.writeOutput_rule r (P := fun c' => c'.inputBuffer_ = c.inputBuffer_)
    · exact fun _ => rfl
    · exact fun _ _ _ _ => rfl
    · exact fun _ _ _ _ _ _ => rfl
  simp only [handleWrite]
  split
  · rcases (c.writeOutput r).1.shutdownInLoop_eq with h | ⟨-, h⟩
    · rw [h, hwrite]
    · rw [h]
      exact hwrite
  · exact hwrite

theorem outputBuffer_handleWrite_of_idle (c : TcpConnection) (r : Except Errno ℕ)
    (h : c.channel_.isWriting = false) : (c.handleWrite r).outputBuffer_ = c.outputBuffer_ := by
  simp [handleWrite, c.writeOutput_of_idle r h]

theorem readable_handleWrite_of_writing (c : TcpConnection) (n : ℕ)
    (h : c.channel_.isWriting = true) :
    (c.handleWrite (.ok n)).outputBuffer_.readable = c.outputBuffer_.readable.drop n := by
  have hwrite : (c.writeOutput (.ok n)).1.outputBuffer_.readable =
      c.outputBuffer_.readable.drop n := by
    cases hdrained : (c.writeOutput (.ok n)).2 with
    | true =>
        obtain ⟨-, m, cbs, hm, -, -, c', rfl, heq⟩ := c.writeOutput_of_drained _ hdrained
        obtain rfl : n = m := by simpa using hm
        rw [heq]
        exact Buffer.readable_retrieve _ _
    | false =>
        obtain ⟨m, heq, hbytes, -⟩ := c.writeOutput_of_writing (.ok n) h hdrained
        have hboth := (List.take_append_drop m c.outputBuffer_.readable).trans
          (List.take_append_drop n c.outputBuffer_.readable).symm
        rw [← show c.outputBuffer_.readable.take n = c.outputBuffer_.readable.take m from hbytes]
          at hboth
        rw [heq, ← List.append_cancel_left hboth]
        by_cases hm : m = 0
        · simp [hm]
        · simp [hm]
  simp only [handleWrite]
  split
  · rwa [shutdownInLoop_outputBuffer_]
  · exact hwrite

theorem shutdown_inputBuffer_ (c : TcpConnection) : c.shutdown.inputBuffer_ = c.inputBuffer_ := by
  rw [shutdown]
  split
  · rcases (c.setState .kDisconnecting).shutdownInLoop_eq with h | ⟨-, h⟩
    · rw [h]; rfl
    · rw [h]; rfl
  · rfl

theorem Ended.of_eq {c c' : TcpConnection} (h : c.Ended) (hstate : c'.state_ = c.state_)
    (hchannel : c'.channel_ = c.channel_) (hsocket : c'.socket_ = c.socket_) : c'.Ended := by
  intro hclosing hidle
  rw [hstate] at hclosing
  rw [hchannel] at hidle
  rw [hsocket]
  exact h hclosing hidle

/-- Writable events at which the kernel takes the given numbers of bytes. -/
def writes (c : TcpConnection) (ns : List ℕ) : TcpConnection :=
  ns.foldl (fun c n => c.handleWrite (.ok n)) c

@[simp] theorem writes_nil (c : TcpConnection) : c.writes [] = c := rfl

@[simp] theorem writes_cons (c : TcpConnection) (n : ℕ) (ns : List ℕ) :
    c.writes (n :: ns) = (c.handleWrite (.ok n)).writes ns := rfl

@[simp] theorem writes_state_ (c : TcpConnection) (ns : List ℕ) :
    (c.writes ns).state_ = c.state_ := by
  induction ns generalizing c with
  | nil => rfl
  | cons n ns ih => rw [writes_cons, ih, handleWrite_state_]

theorem Ended.writes {c : TcpConnection} (h : c.Ended) (ns : List ℕ) : (c.writes ns).Ended := by
  induction ns generalizing c with
  | nil => exact h
  | cons n ns ih => exact ih (h.handleWrite (.ok n))

end TcpConnection

namespace OutputInvariant

variable {c c' : TcpConnection} {accepted : List UInt8} {asked : Bool}

/-- The input and the queue of the loop are no part of the output. -/
theorem of_conn (h : OutputInvariant ⟨c, accepted, asked⟩) (hstate : c'.state_ = c.state_)
    (hsocket : c'.socket_ = c.socket_) (hchannel : c'.channel_ = c.channel_)
    (hout : c'.outputBuffer_ = c.outputBuffer_) : OutputInvariant ⟨c', accepted, asked⟩ := by
  obtain ⟨⟨hstream, hinterest, hdrained, hlast⟩, hbegun, hidle, hrequested, hclosing⟩ := h
  refine ⟨⟨?_, ?_, ?_, ?_⟩, ?_, ?_, ?_, ?_⟩
  all_goals simp only [hstate, hsocket, hchannel, hout] at *
  all_goals assumption

theorem writes (h : OutputInvariant ⟨c, accepted, asked⟩) (ns : List ℕ) :
    OutputInvariant ⟨c.writes ns, accepted, asked⟩ := by
  induction ns generalizing c with
  | nil => exact h
  | cons n ns ih => exact ih (h.handleWrite (.ok n))

/-- As many events as bytes that wait are enough, if the kernel takes one byte at each. -/
theorem drained_writes (h : OutputInvariant ⟨c, accepted, asked⟩)
    (hstays : c.state_ = .kConnected ∨ c.state_ = .kDisconnecting) {ns : List ℕ}
    (hpos : ∀ n ∈ ns, 0 < n) (hlen : c.outputBuffer_.readable.length ≤ ns.length) :
    (c.writes ns).outputBuffer_.readable = [] := by
  induction ns generalizing c with
  | nil => exact List.length_eq_zero_iff.mp (by simpa using hlen)
  | cons n ns ih =>
      have hn := hpos n (by simp)
      have hless : (c.handleWrite (.ok n)).outputBuffer_.readable.length ≤ ns.length := by
        rw [List.length_cons] at hlen
        cases hw : c.channel_.isWriting with
        | false =>
            have hempty : c.outputBuffer_.readable = [] := by
              by_contra hne
              have hwriting : c.channel_.isWriting = true := (h.interest hstays).mpr hne
              rw [hw] at hwriting
              cases hwriting
            rw [c.outputBuffer_handleWrite_of_idle _ hw, hempty]
            exact Nat.zero_le _
        | true =>
            rw [c.readable_handleWrite_of_writing n hw, List.length_drop]
            omega
      refine ih (h.handleWrite (.ok n)) ?_ (fun m hm => hpos m (by simp [hm])) hless
      rwa [TcpConnection.handleWrite_state_]

end OutputInvariant

end CkServer
