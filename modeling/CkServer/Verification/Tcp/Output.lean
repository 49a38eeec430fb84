import CkServer.Verification.Buffer.Readable
import CkServer.Verification.Tcp.Interest

/-! # The output of a connection

The bytes written to the socket followed by the bytes that wait in the output buffer are one
stream. Sending appends to it, writing moves the border between its two parts, and the
connection wants to write exactly while the second part is not empty. -/

namespace CkServer

/-- The bytes that a call has handed to the kernel. -/
def SocketCall.bytes : SocketCall → List UInt8
  | .write data (.ok n) => data.take n
  | .write _ (.error _) => []
  | .shutdownWrite => []

def SocketCall.isWrite : SocketCall → Bool
  | .write _ _ => true
  | .shutdownWrite => false

def written (calls : List SocketCall) : List UInt8 := calls.flatMap SocketCall.bytes

@[simp] theorem written_snoc (calls : List SocketCall) (call : SocketCall) :
    written (calls ++ [call]) = written calls ++ call.bytes := by
  simp [written]

/-- After a `shutdownWrite` come only more of them. -/
def NoWriteAfterShutdown (calls : List SocketCall) : Prop :=
  calls.Pairwise fun call later => call = .shutdownWrite → later = .shutdownWrite

theorem noWriteAfterShutdown_snoc {calls : List SocketCall} {call : SocketCall} :
    NoWriteAfterShutdown (calls ++ [call]) ↔
      NoWriteAfterShutdown calls ∧ (.shutdownWrite ∈ calls → call = .shutdownWrite) := by
  rw [NoWriteAfterShutdown, List.pairwise_append]
  constructor
  · rintro ⟨hcalls, -, hlast⟩
    exact ⟨hcalls, fun hmem => hlast _ hmem call (List.mem_singleton_self call) rfl⟩
  · rintro ⟨hcalls, hlast⟩
    refine ⟨hcalls, List.pairwise_singleton _ call, ?_⟩
    rintro a ha b hb rfl
    rw [List.mem_singleton.mp hb]
    exact hlast ha

def Functor.isUserCallback : Functor → Bool
  | .writeCompleteCallback_ => true
  | .highWaterMarkCallback_ _ => true
  | _ => false

namespace TcpConnection

/-- The connection after the functors have been queued. -/
def queued (c : TcpConnection) (cbs : List Functor) : TcpConnection :=
  { c with loop_ := { c.loop_ with pendingFuntors_ := c.loop_.pendingFuntors_ ++ cbs } }

theorem queued_nil (c : TcpConnection) : c.queued [] = c := by simp [queued]

theorem queueInLoop_eq (c : TcpConnection) (cb : Functor) : c.queueInLoop cb = c.queued [cb] := rfl

def stream (c : TcpConnection) : List UInt8 := written c.socket_ ++ c.outputBuffer_.readable

/-- The connection wants to write exactly while bytes wait. -/
def Interested (c : TcpConnection) : Prop :=
  c.channel_.isWriting = true ↔ c.outputBuffer_.readable ≠ []

/-! ## `writeDirect` -/

section WriteDirect

variable (c : TcpConnection) (data : List UInt8) (r : Except Errno ℕ)

theorem writeDirect_of_waiting
    (h : ¬ (c.channel_.isWriting = false ∧ c.outputBuffer_.readable = [])) :
    c.writeDirect data r = (c, 0, false) := by
  rw [Buffer.readable_eq_nil_iff] at h
  simp [writeDirect, h]

/-- Only an idle output is written to directly, and then at most a callback is queued. -/
theorem writeDirect_eq :
    ∃ cbs calls, (∀ cb ∈ cbs, cb.isUserCallback = true) ∧
      (c.writeDirect data r).1 = { c.queued cbs with socket_ := c.socket_ ++ calls } ∧
      (calls = [] ∨ c.channel_.isWriting = false ∧ c.outputBuffer_.readable = [] ∧
        calls = [.write data r]) := by
  by_cases h : c.channel_.isWriting = false ∧ c.outputBuffer_.readable = []
  · have hempty := (Buffer.readable_eq_nil_iff _).mp h.2
    cases r with
    | error e =>
        refine ⟨[], [.write data (.error e)], by simp, ?_, .inr ⟨h.1, h.2, rfl⟩⟩
        simp [writeDirect, h.1, hempty, onSocket, queued]
    | ok n =>
        by_cases hcb : data.length - n = 0 ∧ c.writeCompleteCallback_ = true
        · refine ⟨[.writeCompleteCallback_], [.write data (.ok n)],
            by simp [Functor.isUserCallback], ?_, .inr ⟨h.1, h.2, rfl⟩⟩
          simp [writeDirect, h.1, hempty, onSocket, hcb, queueInLoop, EventLoop.queueInLoop, queued]
        · refine ⟨[], [.write data (.ok n)], by simp, ?_, .inr ⟨h.1, h.2, rfl⟩⟩
          simp [writeDirect, h.1, hempty, onSocket, hcb, queued]
  · refine ⟨[], [], by simp, ?_, .inl rfl⟩
    rw [writeDirect_of_waiting c data r h]
    simp [queued]

@[simp] theorem writeDirect_state_ : (c.writeDirect data r).1.state_ = c.state_ := by
  obtain ⟨cbs, calls, -, h, -⟩ := c.writeDirect_eq data r
  rw [h]
  rfl

@[simp] theorem writeDirect_channel_ : (c.writeDirect data r).1.channel_ = c.channel_ := by
  obtain ⟨cbs, calls, -, h, -⟩ := c.writeDirect_eq data r
  rw [h]
  rfl

@[simp] theorem writeDirect_poller_ :
    (c.writeDirect data r).1.loop_.poller_ = c.loop_.poller_ := by
  obtain ⟨cbs, calls, -, h, -⟩ := c.writeDirect_eq data r
  rw [h]
  rfl

@[simp] theorem writeDirect_outputBuffer_ :
    (c.writeDirect data r).1.outputBuffer_ = c.outputBuffer_ := by
  obtain ⟨cbs, calls, -, h, -⟩ := c.writeDirect_eq data r
  rw [h]
  rfl

@[simp] theorem writeDirect_upcalls : (c.writeDirect data r).1.upcalls = c.upcalls := by
  obtain ⟨cbs, calls, -, h, -⟩ := c.writeDirect_eq data r
  rw [h]
  rfl

theorem tracked_writeDirect (h : c.Tracked) : (c.writeDirect data r).1.Tracked := by
  rwa [Tracked, writeDirect_channel_, writeDirect_poller_]

/-- What is written and what is left are the data. -/
theorem stream_writeDirect :
    (c.writeDirect data r).1.stream ++ data.drop (c.writeDirect data r).2.1 = c.stream ++ data := by
  by_cases h : c.channel_.isWriting = false ∧ c.outputBuffer_.readable = []
  · have hempty := (Buffer.readable_eq_nil_iff _).mp h.2
    cases r with
    | ok n =>
        have hsocket : (c.writeDirect data (.ok n)).1.socket_ =
            c.socket_ ++ [.write data (.ok n)] := by
          simp only [writeDirect, h.1, hempty, Bool.false_eq_true, not_false_eq_true, and_self,
            if_true]
          split <;> rfl
        have hnwrote : (c.writeDirect data (.ok n)).2.1 = n := by
          simp [writeDirect, h.1, hempty]
        simp [stream, hsocket, hnwrote, h.2, SocketCall.bytes]
    | error e =>
        have hsocket : (c.writeDirect data (.error e)).1.socket_ =
            c.socket_ ++ [.write data (.error e)] := by
          simp [writeDirect, h.1, hempty, onSocket]
        have hnwrote : (c.writeDirect data (.error e)).2.1 = 0 := by
          simp [writeDirect, h.1, hempty]
        simp [stream, hsocket, hnwrote, h.2, SocketCall.bytes]
  · rw [writeDirect_of_waiting c data r h]
    rfl

/-- The bytes that are written go to the end of the stream. -/
theorem stream_writeDirect_take :
    (c.writeDirect data r).1.stream = c.stream ++ data.take (c.writeDirect data r).2.1 := by
  have h : (c.writeDirect data r).1.stream ++ data.drop (c.writeDirect data r).2.1 =
      c.stream ++ data.take (c.writeDirect data r).2.1 ++
        data.drop (c.writeDirect data r).2.1 := by
    rw [stream_writeDirect, List.append_assoc, List.take_append_drop]
  exact List.append_cancel_right h

/-- Nothing is written when the rest is to be dropped. -/
theorem writeDirect_nwrote (h : (c.writeDirect data r).2.2 = true) :
    (c.writeDirect data r).2.1 = 0 := by
  unfold writeDirect at h ⊢
  split at h
  · next hidle =>
      rw [if_pos hidle]
      cases r with
      | ok n => simp at h
      | error e => rfl
  · simp at h

/-- Only `EPIPE` and `ECONNRESET` make the rest of the data be dropped. -/
theorem writeDirect_faultError (h : (c.writeDirect data r).2.2 = true) :
    r = .error .EPIPE ∨ r = .error .ECONNRESET := by
  unfold writeDirect at h
  split at h
  · cases r with
    | ok n => simp at h
    | error e => simpa using h
  · simp at h

end WriteDirect

/-! ## `bufferRest` -/

section BufferRest

variable (c : TcpConnection) (rest : List UInt8) (fault : Bool)

theorem bufferRest_of_fault : c.bufferRest rest true = c := by simp [bufferRest]

theorem bufferRest_nil : c.bufferRest [] fault = c := by simp [bufferRest]

/-- Data that is not dropped is appended, at most a callback is queued, and the interest in
writing is switched on unless it is on already. -/
theorem bufferRest_eq (h : rest ≠ []) :
    ∃ cbs, (∀ cb ∈ cbs, cb.isUserCallback = true) ∧
      ∃ c', c' = { c.queued cbs with outputBuffer_ := c.outputBuffer_.append rest } ∧
        c.bufferRest rest false = if c.channel_.isWriting then c' else c'.enableWriting := by
  have hpos : 0 < rest.length := List.length_pos_iff.mpr h
  by_cases hmark : c.outputBuffer_.readableBytes + rest.length ≥ c.highWaterMark_ ∧
      c.outputBuffer_.readableBytes < c.highWaterMark_ ∧ c.highWaterMarkCallback_ = true
  · refine ⟨[.highWaterMarkCallback_ (c.outputBuffer_.readableBytes + rest.length)],
      by simp [Functor.isUserCallback], _, rfl, ?_⟩
    cases hw : c.channel_.isWriting <;>
      simp [bufferRest, hpos, hmark, queueInLoop, EventLoop.queueInLoop, hw, queued]
  · refine ⟨[], by simp, _, rfl, ?_⟩
    cases hw : c.channel_.isWriting <;> simp [bufferRest, hpos, hmark, hw, queued]

/-- What holds of the connection as it was, with the data appended, and with the interest
switched on besides, holds after `bufferRest`. -/
theorem bufferRest_rule {P : TcpConnection → Prop} (same : P c)
    (kept : ∀ cbs, (∀ cb ∈ cbs, cb.isUserCallback = true) → c.channel_.isWriting = true →
      P { c.queued cbs with outputBuffer_ := c.outputBuffer_.append rest })
    (enabled : ∀ cbs, (∀ cb ∈ cbs, cb.isUserCallback = true) → rest ≠ [] →
      P (enableWriting { c.queued cbs with outputBuffer_ := c.outputBuffer_.append rest })) :
    P (c.bufferRest rest fault) := by
  cases fault with
  | true => rwa [bufferRest_of_fault]
  | false =>
      by_cases hrest : rest = []
      · rwa [hrest, bufferRest_nil]
      · obtain ⟨cbs, hcbs, c', rfl, heq⟩ := c.bufferRest_eq rest hrest
        rw [heq]
        split
        · next hwriting => exact kept cbs hcbs hwriting
        · exact enabled cbs hcbs hrest

@[simp] theorem bufferRest_state_ : (c.bufferRest rest fault).state_ = c.state_ := by
  apply bufferRest_rule (P := fun c' => c'.state_ = c.state_)
  · rfl
  · exact fun _ _ _ => rfl
  · exact fun _ _ _ => rfl

@[simp] theorem bufferRest_socket_ : (c.bufferRest rest fault).socket_ = c.socket_ := by
  apply bufferRest_rule (P := fun c' => c'.socket_ = c.socket_)
  · rfl
  · exact fun _ _ _ => rfl
  · exact fun _ _ _ => rfl

@[simp] theorem bufferRest_upcalls : (c.bufferRest rest fault).upcalls = c.upcalls := by
  apply bufferRest_rule (P := fun c' => c'.upcalls = c.upcalls)
  · rfl
  · exact fun _ _ _ => rfl
  · exact fun _ _ _ => rfl

@[simp] theorem isReading_bufferRest :
    (c.bufferRest rest fault).channel_.isReading = c.channel_.isReading := by
  apply bufferRest_rule (P := fun c' => c'.channel_.isReading = c.channel_.isReading)
  · rfl
  · exact fun _ _ _ => rfl
  · exact fun _ _ _ => isReading_enableWriting _

@[simp] theorem readable_bufferRest :
    (c.bufferRest rest false).outputBuffer_.readable = c.outputBuffer_.readable ++ rest := by
  by_cases hrest : rest = []
  · rw [hrest, bufferRest_nil, List.append_nil]
  · obtain ⟨cbs, -, c', rfl, h⟩ := c.bufferRest_eq rest hrest
    rw [h]
    split <;> simp [enableWriting, queued]

@[simp] theorem stream_bufferRest : (c.bufferRest rest false).stream = c.stream ++ rest := by
  rw [stream, bufferRest_socket_, readable_bufferRest, ← List.append_assoc]
  rfl

theorem interested_bufferRest (h : c.Interested) : (c.bufferRest rest fault).Interested := by
  apply bufferRest_rule
  · exact h
  · intro cbs _ hwriting
    apply iff_of_true hwriting
    simp [h.mp hwriting]
  · intro cbs _ hrest
    refine iff_of_true (isWriting_enableWriting _) ?_
    simp [enableWriting, hrest]

/-- The channel is added to the poller, or nothing changes for it. -/
theorem index_bufferRest :
    (c.bufferRest rest fault).channel_.index_ = c.channel_.index_ ∨
      (c.bufferRest rest fault).channel_.index_ = .kAdded := by
  apply bufferRest_rule
    (P := fun c' => c'.channel_.index_ = c.channel_.index_ ∨ c'.channel_.index_ = .kAdded)
  · exact .inl rfl
  · exact fun _ _ _ => .inl rfl
  · intro cbs _ _
    right
    rw [enableWriting, setEvents_index_, if_neg]
    rintro ⟨-, hnone⟩
    exact or_kWriteEvent_and_kWriteEvent _ (by rw [hnone]; rfl)

theorem tracked_bufferRest (h : c.Tracked) : (c.bufferRest rest fault).Tracked := by
  apply bufferRest_rule
  · exact h
  · exact fun _ _ _ => h
  · exact fun _ _ _ => setEvents_tracked _ _ h

end BufferRest

/-! ## `sendInLoop` -/

section SendInLoop

variable (c : TcpConnection) (data : List UInt8) (r : Except Errno ℕ)

theorem sendInLoop_eq :
    c.sendInLoop data r =
      (c.writeDirect data r).1.bufferRest (data.drop (c.writeDirect data r).2.1)
        (c.writeDirect data r).2.2 := rfl

@[simp] theorem sendInLoop_state_ : (c.sendInLoop data r).state_ = c.state_ := by
  simp [sendInLoop_eq]

/-- Everything that is sent goes to the end of the stream. -/
theorem stream_sendInLoop (h : r ≠ .error .EPIPE ∧ r ≠ .error .ECONNRESET) :
    (c.sendInLoop data r).stream = c.stream ++ data := by
  have hfault : (c.writeDirect data r).2.2 = false := by
    by_contra htrue
    rcases c.writeDirect_faultError data r (by simpa using htrue) with hr | hr
    · exact h.1 hr
    · exact h.2 hr
  rw [sendInLoop_eq, hfault, stream_bufferRest, stream_writeDirect]

theorem interested_sendInLoop (h : c.Interested) : (c.sendInLoop data r).Interested := by
  rw [sendInLoop_eq]
  apply interested_bufferRest
  rwa [Interested, writeDirect_channel_, writeDirect_outputBuffer_]

theorem sendInLoop_socket_ :
    (c.sendInLoop data r).socket_ = c.socket_ ∨
      c.channel_.isWriting = false ∧ c.outputBuffer_.readable = [] ∧
        (c.sendInLoop data r).socket_ = c.socket_ ++ [.write data r] := by
  obtain ⟨cbs, calls, -, h, hcalls⟩ := c.writeDirect_eq data r
  rw [sendInLoop_eq, bufferRest_socket_, h]
  rcases hcalls with rfl | ⟨hidle, hempty, rfl⟩
  · exact .inl (List.append_nil _)
  · exact .inr ⟨hidle, hempty, rfl⟩

end SendInLoop

/-! ## Beginning, end and input -/

@[simp] theorem connectEstablished_state_ (c : TcpConnection) :
    c.connectEstablished.state_ = .kConnected := rfl

@[simp] theorem connectEstablished_socket_ (c : TcpConnection) :
    c.connectEstablished.socket_ = c.socket_ := rfl

@[simp] theorem connectEstablished_outputBuffer_ (c : TcpConnection) :
    c.connectEstablished.outputBuffer_ = c.outputBuffer_ := rfl

@[simp] theorem connectEstablished_upcalls (c : TcpConnection) :
    c.connectEstablished.upcalls = c.upcalls ++ [.connectioncallback_ true] := rfl

@[simp] theorem connectEstablished_pendingFuntors_ (c : TcpConnection) :
    c.connectEstablished.loop_.pendingFuntors_ = c.loop_.pendingFuntors_ := rfl

@[simp] theorem isReading_connectEstablished (c : TcpConnection) :
    c.connectEstablished.channel_.isReading = true := isReading_enableReading _

@[simp] theorem isWriting_connectEstablished (c : TcpConnection) :
    c.connectEstablished.channel_.isWriting = c.channel_.isWriting := isWriting_enableReading _

@[simp] theorem setDisconnected_state_ (c : TcpConnection) :
    c.setDisconnected.state_ = .kDisconnected := rfl

@[simp] theorem setDisconnected_socket_ (c : TcpConnection) :
    c.setDisconnected.socket_ = c.socket_ := rfl

@[simp] theorem setDisconnected_outputBuffer_ (c : TcpConnection) :
    c.setDisconnected.outputBuffer_ = c.outputBuffer_ := rfl

@[simp] theorem setDisconnected_upcalls (c : TcpConnection) :
    c.setDisconnected.upcalls = c.upcalls ++ [.connectioncallback_ false] := rfl

@[simp] theorem setDisconnected_pendingFuntors_ (c : TcpConnection) :
    c.setDisconnected.loop_.pendingFuntors_ = c.loop_.pendingFuntors_ := rfl

@[simp] theorem isWriting_setDisconnected (c : TcpConnection) :
    c.setDisconnected.channel_.isWriting = false :=
  isWriting_disableAll (c.setState .kDisconnected)

@[simp] theorem isReading_setDisconnected (c : TcpConnection) :
    c.setDisconnected.channel_.isReading = false :=
  isReading_disableAll (c.setState .kDisconnected)

theorem tracked_setDisconnected {c : TcpConnection} (h : c.Tracked) : c.setDisconnected.Tracked :=
  setEvents_tracked (c.setState .kDisconnected) kNoneEvent h

theorem tracked_connectEstablished {c : TcpConnection} (h : c.Tracked) :
    c.connectEstablished.Tracked := by
  apply setEvents_tracked _ _
  exact ⟨h.channels, h.epoll, h.running⟩

theorem tracked_remove {c : TcpConnection} (h : c.Tracked) : c.remove.Tracked :=
  EPollPoller.removeChannel_tracked h

theorem index_remove (c : TcpConnection) : c.remove.channel_.index_ = .kNew := rfl

/-- A channel that is disabled while it is added is deleted. -/
theorem index_setDisconnected {c : TcpConnection} (h : c.channel_.index_ = .kAdded) :
    c.setDisconnected.channel_.index_ = .kDeleted := by
  have hindex := setEvents_index_ (c.setState .kDisconnected) kNoneEvent
  rw [if_pos ⟨h, rfl⟩] at hindex
  exact hindex

/-- Reading touches the input buffer and calls at most the message callback. -/
theorem readInput_eq (c : TcpConnection) (r : Except Errno (List UInt8)) :
    ∃ buf calls, (∀ call ∈ calls, call = .messagecallback_) ∧
      (c.readInput r).1 = { c with inputBuffer_ := buf, upcalls := c.upcalls ++ calls } := by
  simp only [readInput]
  split
  · split
    · exact ⟨_, [.messagecallback_], by simp, rfl⟩
    · exact ⟨_, [], by simp, by rw [List.append_nil]⟩
  · exact ⟨_, [], by simp, by rw [List.append_nil]⟩

theorem count_upcalls_readInput (c : TcpConnection) (r : Except Errno (List UInt8)) {call : Upcall}
    (h : call ≠ .messagecallback_) :
    (c.readInput r).1.upcalls.count call = c.upcalls.count call := by
  obtain ⟨buf, calls, hcalls, heq⟩ := c.readInput_eq r
  have hnot : call ∉ calls := fun hmem => h (hcalls call hmem)
  rw [heq, List.count_append, List.count_eq_zero_of_not_mem hnot, Nat.add_zero]

@[simp] theorem readInput_channel_ (c : TcpConnection) (r : Except Errno (List UInt8)) :
    (c.readInput r).1.channel_ = c.channel_ := by
  obtain ⟨buf, calls, -, heq⟩ := c.readInput_eq r
  rw [heq]

@[simp] theorem readInput_state_ (c : TcpConnection) (r : Except Errno (List UInt8)) :
    (c.readInput r).1.state_ = c.state_ := by
  obtain ⟨buf, calls, -, heq⟩ := c.readInput_eq r
  rw [heq]

@[simp] theorem readInput_loop_ (c : TcpConnection) (r : Except Errno (List UInt8)) :
    (c.readInput r).1.loop_ = c.loop_ := by
  obtain ⟨buf, calls, -, heq⟩ := c.readInput_eq r
  rw [heq]

@[simp] theorem readInput_socket_ (c : TcpConnection) (r : Except Errno (List UInt8)) :
    (c.readInput r).1.socket_ = c.socket_ := by
  obtain ⟨buf, calls, -, heq⟩ := c.readInput_eq r
  rw [heq]

@[simp] theorem readInput_outputBuffer_ (c : TcpConnection) (r : Except Errno (List UInt8)) :
    (c.readInput r).1.outputBuffer_ = c.outputBuffer_ := by
  obtain ⟨buf, calls, -, heq⟩ := c.readInput_eq r
  rw [heq]

/-! ## `shutdownInLoop` and `writeOutput` -/

theorem shutdownInLoop_eq (c : TcpConnection) :
    c.shutdownInLoop = c ∨
      c.channel_.isWriting = false ∧ c.shutdownInLoop = c.onSocket .shutdownWrite := by
  cases h : c.channel_.isWriting <;> simp [shutdownInLoop, h]

@[simp] theorem shutdownInLoop_state_ (c : TcpConnection) :
    c.shutdownInLoop.state_ = c.state_ := by
  rcases c.shutdownInLoop_eq with h | ⟨-, h⟩
  · rw [h]
  · rw [h]
    rfl

@[simp] theorem shutdownInLoop_upcalls (c : TcpConnection) :
    c.shutdownInLoop.upcalls = c.upcalls := by
  rcases c.shutdownInLoop_eq with h | ⟨-, h⟩
  · rw [h]
  · rw [h]
    rfl

@[simp] theorem shutdownInLoop_channel_ (c : TcpConnection) :
    c.shutdownInLoop.channel_ = c.channel_ := by
  rcases c.shutdownInLoop_eq with h | ⟨-, h⟩
  · rw [h]
  · rw [h]
    rfl

@[simp] theorem shutdownInLoop_loop_ (c : TcpConnection) :
    c.shutdownInLoop.loop_ = c.loop_ := by
  rcases c.shutdownInLoop_eq with h | ⟨-, h⟩
  · rw [h]
  · rw [h]
    rfl

@[simp] theorem shutdownInLoop_outputBuffer_ (c : TcpConnection) :
    c.shutdownInLoop.outputBuffer_ = c.outputBuffer_ := by
  rcases c.shutdownInLoop_eq with h | ⟨-, h⟩
  · rw [h]
  · rw [h]
    rfl

/-- `shutdownWrite` adds no bytes. -/
theorem stream_shutdownInLoop (c : TcpConnection) : c.shutdownInLoop.stream = c.stream := by
  rcases c.shutdownInLoop_eq with h | ⟨-, h⟩
  · rw [h]
  · rw [h, stream, stream, onSocket, written_snoc, SocketCall.bytes, List.append_nil]

section WriteOutput

variable (c : TcpConnection) (r : Except Errno ℕ)

/-- Nothing is written without interest. -/
theorem writeOutput_of_idle (h : c.channel_.isWriting = false) : c.writeOutput r = (c, false) := by
  simp [writeOutput, h]

/-- A write that leaves bytes in the buffer, or fails. -/
theorem writeOutput_of_writing (h : c.channel_.isWriting = true)
    (hleft : (c.writeOutput r).2 = false) :
    ∃ n, (c.writeOutput r).1 =
        { c with
          socket_ := c.socket_ ++ [.write c.outputBuffer_.readable r]
          outputBuffer_ := if n = 0 then c.outputBuffer_ else c.outputBuffer_.retrieve n } ∧
      SocketCall.bytes (.write c.outputBuffer_.readable r) = c.outputBuffer_.readable.take n ∧
      (n ≠ 0 → c.outputBuffer_.readable.drop n ≠ []) := by
  cases r with
  | error e => exact ⟨0, by simp [writeOutput, h, onSocket], by simp [SocketCall.bytes], by simp⟩
  | ok n =>
      rcases Nat.eq_zero_or_pos n with rfl | hn
      · exact ⟨0, by simp [writeOutput, h, onSocket], by simp [SocketCall.bytes], by simp⟩
      · have hrest : (c.outputBuffer_.retrieve n).readableBytes ≠ 0 := by
          intro hzero
          simp [writeOutput, h, hn, onSocket, hzero] at hleft
        refine ⟨n, ?_, rfl, ?_⟩
        · simp [writeOutput, h, hn, hn.ne', onSocket, hrest]
        · intro _ hnil
          apply hrest
          rw [← Buffer.readable_eq_nil_iff, Buffer.readable_retrieve, hnil]

/-- A write that empties the buffer ends the interest in writing. -/
theorem writeOutput_of_drained (hdrained : (c.writeOutput r).2 = true) :
    c.channel_.isWriting = true ∧
    ∃ n cbs, r = .ok n ∧ (∀ cb ∈ cbs, cb.isUserCallback = true) ∧
      c.outputBuffer_.readable.drop n = [] ∧
      ∃ c' : TcpConnection, c' = { c with
          socket_ := c.socket_ ++ [.write c.outputBuffer_.readable r]
          outputBuffer_ := c.outputBuffer_.retrieve n } ∧
        (c.writeOutput r).1 = c'.disableWriting.queued cbs := by
  cases h : c.channel_.isWriting with
  | false => simp [writeOutput, h] at hdrained
  | true =>
      refine ⟨rfl, ?_⟩
      cases r with
      | error e => simp [writeOutput, h] at hdrained
      | ok n =>
          rcases Nat.eq_zero_or_pos n with rfl | hn
          · simp [writeOutput, h] at hdrained
          · have hzero : (c.outputBuffer_.retrieve n).readableBytes = 0 := by
              by_contra hne
              simp [writeOutput, h, hn, onSocket, hne] at hdrained
            have hnil : c.outputBuffer_.readable.drop n = [] := by
              rw [← Buffer.readable_retrieve, Buffer.readable_eq_nil_iff, hzero]
            by_cases hcb : c.writeCompleteCallback_ = true
            · refine ⟨n, [.writeCompleteCallback_], rfl, by simp [Functor.isUserCallback], hnil, _,
                rfl, ?_⟩
              simp [writeOutput, h, hn, onSocket, hzero, hcb, queueInLoop_eq]
            · refine ⟨n, [], rfl, by simp, hnil, _, rfl, ?_⟩
              simp [writeOutput, h, hn, onSocket, hzero, hcb, queued_nil]

/-- What holds of the connection as it was, after a write that leaves bytes, and after a write
that drains the buffer, holds after `writeOutput`. -/
theorem writeOutput_rule {P : TcpConnection → Prop}
    (idle : c.channel_.isWriting = false → P c)
    (left : ∀ n, c.channel_.isWriting = true →
      SocketCall.bytes (.write c.outputBuffer_.readable r) = c.outputBuffer_.readable.take n →
      (n ≠ 0 → c.outputBuffer_.readable.drop n ≠ []) →
      P { c with
        socket_ := c.socket_ ++ [.write c.outputBuffer_.readable r]
        outputBuffer_ := if n = 0 then c.outputBuffer_ else c.outputBuffer_.retrieve n })
    (drained : ∀ n cbs, r = .ok n → (∀ cb ∈ cbs, cb.isUserCallback = true) →
      c.channel_.isWriting = true → c.outputBuffer_.readable.drop n = [] →
      P ((disableWriting { c with
        socket_ := c.socket_ ++ [.write c.outputBuffer_.readable r]
        outputBuffer_ := c.outputBuffer_.retrieve n }).queued cbs)) :
    P (c.writeOutput r).1 := by
  cases hwriting : c.channel_.isWriting with
  | false =>
      rw [writeOutput_of_idle c r hwriting]
      exact idle hwriting
  | true =>
      cases hdrained : (c.writeOutput r).2 with
      | false =>
          obtain ⟨n, heq, hbytes, hleft⟩ := c.writeOutput_of_writing r hwriting hdrained
          rw [heq]
          exact left n hwriting hbytes hleft
      | true =>
          obtain ⟨-, n, cbs, hr, hcbs, hnil, c', rfl, heq⟩ := c.writeOutput_of_drained r hdrained
          rw [heq]
          exact drained n cbs hr hcbs hwriting hnil

@[simp] theorem writeOutput_state_ : (c.writeOutput r).1.state_ = c.state_ := by
  apply writeOutput_rule (P := fun c' => c'.state_ = c.state_)
  · exact fun _ => rfl
  · exact fun _ _ _ _ => rfl
  · exact fun _ _ _ _ _ _ => rfl

@[simp] theorem writeOutput_upcalls : (c.writeOutput r).1.upcalls = c.upcalls := by
  apply writeOutput_rule (P := fun c' => c'.upcalls = c.upcalls)
  · exact fun _ => rfl
  · exact fun _ _ _ _ => rfl
  · exact fun _ _ _ _ _ _ => rfl

@[simp] theorem isReading_writeOutput :
    (c.writeOutput r).1.channel_.isReading = c.channel_.isReading := by
  apply writeOutput_rule (P := fun c' => c'.channel_.isReading = c.channel_.isReading)
  · exact fun _ => rfl
  · exact fun _ _ _ _ => rfl
  · exact fun _ _ _ _ _ _ => isReading_disableWriting _

theorem writeOutput_socket_ :
    (c.writeOutput r).1.socket_ = c.socket_ ∨
      c.channel_.isWriting = true ∧
        (c.writeOutput r).1.socket_ = c.socket_ ++ [.write c.outputBuffer_.readable r] := by
  apply writeOutput_rule (P := fun c' => c'.socket_ = c.socket_ ∨ c.channel_.isWriting = true ∧
    c'.socket_ = c.socket_ ++ [SocketCall.write c.outputBuffer_.readable r])
  · exact fun _ => .inl rfl
  · exact fun _ hwriting _ _ => .inr ⟨hwriting, rfl⟩
  · exact fun _ _ _ _ hwriting _ => .inr ⟨hwriting, rfl⟩

/-- What leaves the buffer has been written. -/
@[simp] theorem stream_writeOutput : (c.writeOutput r).1.stream = c.stream := by
  apply writeOutput_rule (P := fun c' => c'.stream = c.stream)
  · exact fun _ => rfl
  · intro n _ hbytes _
    rw [stream, written_snoc, hbytes, List.append_assoc]
    rcases Nat.eq_zero_or_pos n with rfl | hn
    · rfl
    · simp [hn.ne', stream]
  · intro n cbs hr _ _ hnil
    have hall := List.take_of_length_le (List.drop_eq_nil_iff.mp hnil)
    simp [stream, queued, disableWriting, SocketCall.bytes, hall, hnil, hr]

theorem interested_writeOutput (h : c.Interested) : (c.writeOutput r).1.Interested := by
  apply writeOutput_rule
  · exact fun _ => h
  · intro n hwriting _ hleft
    apply iff_of_true hwriting
    rcases Nat.eq_zero_or_pos n with rfl | hn
    · exact h.mp hwriting
    · simpa [hn.ne'] using hleft hn.ne'
  · intro n cbs _ _ _ hnil
    refine iff_of_false (by simp [queued]) ?_
    simp [queued, disableWriting, hnil]

@[simp] theorem handleWrite_state_ : (c.handleWrite r).state_ = c.state_ := by
  simp only [handleWrite]
  split
  · rw [shutdownInLoop_state_, writeOutput_state_]
  · rw [writeOutput_state_]

@[simp] theorem stream_handleWrite : (c.handleWrite r).stream = c.stream := by
  simp only [handleWrite]
  split
  · rw [stream_shutdownInLoop, stream_writeOutput]
  · rw [stream_writeOutput]

/-- A channel that goes on reading stays registered. -/
theorem index_writeOutput (h : c.channel_.isReading = true) :
    (c.writeOutput r).1.channel_.index_ = c.channel_.index_ ∨
      (c.writeOutput r).1.channel_.index_ = .kAdded := by
  apply writeOutput_rule
    (P := fun c' => c'.channel_.index_ = c.channel_.index_ ∨ c'.channel_.index_ = .kAdded)
  · exact fun _ => .inl rfl
  · exact fun _ _ _ _ => .inl rfl
  · intro n cbs _ _ _ _
    right
    simp only [queued, disableWriting]
    rw [setEvents_index_, if_neg]
    rintro ⟨-, hnone⟩
    have hread := and_not_kWriteEvent_and_kReadEvent c.channel_.events_
    rw [hnone] at hread
    simp [Channel.isReading, ← hread, kNoneEvent] at h

theorem tracked_writeOutput (h : c.Tracked) : (c.writeOutput r).1.Tracked := by
  apply writeOutput_rule
  · exact fun _ => h
  · exact fun _ _ _ _ => h
  · exact fun _ _ _ _ _ _ => setEvents_tracked _ _ h

end WriteOutput

end TcpConnection

end CkServer
