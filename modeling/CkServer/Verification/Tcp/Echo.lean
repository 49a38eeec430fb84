import CkServer.Model.EchoServer
import CkServer.Verification.Tcp.Ending

/-! # The echo server

`onMessage` sends back what has come, and shuts down. So a client gets the bytes of the first read
and then the end of the stream, whatever it writes later. -/

namespace CkServer

namespace EchoConnection

/-- A write takes no more than it is given, and does not find the connection broken. -/
def Enabled (h : EchoConnection) : EchoEvent → Prop
  | .handleRead received written =>
      Writable (h.conn.inputBuffer_.readFd received).1.readableBytes written
  | .handleWrite r => Writable h.conn.outputBuffer_.readableBytes r
  | .handleClose => True

instance (h : EchoConnection) : ∀ e, Decidable (h.Enabled e)
  | .handleRead received written =>
      inferInstanceAs
        (Decidable (Writable (h.conn.inputBuffer_.readFd received).1.readableBytes written))
  | .handleWrite r => inferInstanceAs (Decidable (Writable h.conn.outputBuffer_.readableBytes r))
  | .handleClose => .isTrue trivial

/-- What the first read has got. -/
def message (h : EchoConnection) : List UInt8 := h.received.headD []

end EchoConnection

/-- The events of a connection of the echo server. -/
def echoServer : Machine EchoConnection EchoEvent where
  enabled := EchoConnection.Enabled
  next := EchoConnection.next

instance (h : EchoConnection) (e : EchoEvent) : Decidable (echoServer.enabled h e) :=
  inferInstanceAs (Decidable (h.Enabled e))

namespace EchoConnection

variable {h : EchoConnection}

/-- The message has been sent, or not yet come. -/
structure Echoing (h : EchoConnection) : Prop where
  output : ∃ asked, OutputInvariant ⟨h.conn, h.message, asked⟩
  ended : h.conn.Ended
  input : h.conn.inputBuffer_.readable = []
  waiting : h.conn.state_ = .kConnected → h.received = []
  got : h.conn.state_ = .kDisconnecting → h.received ≠ []
  beginning : written h.conn.socket_ <+: h.message
  whole : .shutdownWrite ∈ h.conn.socket_ → written h.conn.socket_ = h.message ∧ h.received ≠ []

theorem echoing_new (address fd : ℕ) : (new address fd).Echoing where
  output := ⟨false, OutputInvariant.established address fd {}⟩
  ended hstate := by cases hstate
  input := Buffer.readable_new _ (by decide)
  waiting _ := rfl
  got hstate := by cases hstate
  beginning := List.nil_prefix
  whole hmem := by
    have hnone : (new address fd).conn.socket_ = [] := rfl
    simp [hnone] at hmem

/-- What is to be shown while the connection is open. -/
theorem Echoing.of_open {asked : Bool} (hinv : OutputInvariant ⟨h.conn, h.message, asked⟩)
    (hended : h.conn.Ended) (hinput : h.conn.inputBuffer_.readable = [])
    (hopen : h.conn.state_ = .kConnected ∨ h.conn.state_ = .kDisconnecting)
    (hwaiting : h.conn.state_ = .kConnected → h.received = [])
    (hgot : h.conn.state_ = .kDisconnecting → h.received ≠ []) : h.Echoing where
  output := ⟨asked, hinv⟩
  ended := hended
  input := hinput
  waiting := hwaiting
  got := hgot
  beginning := ⟨_, hinv.stream hopen⟩
  whole hmem := by
    have hstream := hinv.stream hopen
    have hempty : h.conn.outputBuffer_.readable = [] := (hinv.drained hmem).1
    have hstate := hopen.resolve_left (hinv.closing hmem)
    simp only [hempty, List.append_nil] at hstream
    exact ⟨hstream, hgot hstate⟩

theorem Echoing.withInput (he : h.Echoing) {buf : Buffer} (hbuf : buf.readable = []) :
    Echoing { h with conn := { h.conn with inputBuffer_ := buf } } where
  output := he.output.imp fun _ hinv => hinv.of_conn rfl rfl rfl rfl
  ended := he.ended
  input := hbuf
  waiting := he.waiting
  got := he.got
  beginning := he.beginning
  whole := he.whole

theorem Echoing.handleClose (he : h.Echoing) :
    Echoing { h with conn := h.conn.handleClose } where
  output := he.output.imp fun _ hinv => hinv.handleClose
  ended hstate := by cases hstate
  input := he.input
  waiting hstate := by cases hstate
  got hstate := by cases hstate
  beginning := he.beginning
  whole := he.whole

theorem Echoing.handleWrite (he : h.Echoing) (r : Except Errno ℕ) :
    Echoing { h with conn := h.conn.handleWrite r } := by
  obtain ⟨asked, hinv⟩ := he.output
  have hstate := h.conn.handleWrite_state_ r
  by_cases hopen : h.conn.state_ = .kConnected ∨ h.conn.state_ = .kDisconnecting
  · refine .of_open (hinv.handleWrite r) (he.ended.handleWrite r) ?_ ?_ ?_ ?_
    · rw [show (h.conn.handleWrite r).inputBuffer_ = h.conn.inputBuffer_ from
        h.conn.handleWrite_inputBuffer_ r]
      exact he.input
    · rwa [show (h.conn.handleWrite r).state_ = h.conn.state_ from hstate]
    · exact fun hconn => he.waiting (hstate ▸ hconn)
    · exact fun hclosing => he.got (hstate ▸ hclosing)
  · -- a connection without interest is left as it is
    have hidle : h.conn.channel_.isWriting = false := by
      apply hinv.idle
      cases hs : h.conn.state_ with
      | kDisconnected => rfl
      | kconnecting => exact absurd hs hinv.begun
      | kConnected => exact absurd (.inl hs) hopen
      | kDisconnecting => exact absurd (.inr hs) hopen
    have hsame : h.conn.handleWrite r = h.conn := by
      simp [TcpConnection.handleWrite, h.conn.writeOutput_of_idle r hidle]
    rwa [hsame]

/-- Once the connection is closed, what has come no longer matters. -/
theorem Echoing.later (he : h.Echoing) (hnot : h.conn.state_ ≠ .kConnected) (c : TcpConnection)
    (hstate : c.state_ = h.conn.state_) (hsocket : c.socket_ = h.conn.socket_)
    (hchannel : c.channel_ = h.conn.channel_) (hout : c.outputBuffer_ = h.conn.outputBuffer_)
    (hinput : c.inputBuffer_.readable = []) (data : List UInt8) :
    Echoing { conn := c, received := h.received ++ [data] } := by
  obtain ⟨asked, hinv⟩ := he.output
  have hinv' := hinv.of_conn hstate hsocket hchannel hout
  have hended := he.ended.of_eq hstate hchannel hsocket
  cases hreceived : h.received with
  | nil =>
      have hclosed : c.state_ = .kDisconnected := by
        rw [hstate]
        cases hs : h.conn.state_ with
        | kDisconnected => rfl
        | kconnecting => exact absurd hs hinv.begun
        | kConnected => exact absurd hs hnot
        | kDisconnecting => exact absurd hreceived (he.got hs)
      have hnone : written c.socket_ = [] := by
        have hprefix := he.beginning
        rw [message, hreceived] at hprefix
        rw [hsocket]
        exact List.prefix_nil.mp hprefix
      have hsilent : .shutdownWrite ∉ c.socket_ := fun hmem =>
        (he.whole (hsocket ▸ hmem)).2 hreceived
      refine ⟨⟨asked, ⟨⟨?_, ?_, hinv'.drained, hinv'.last⟩, hinv'.begun, hinv'.idle,
        hinv'.requested, hinv'.closing⟩⟩, hended, hinput, ?_, by simp, ?_,
        fun hmem => absurd hmem hsilent⟩
      · rintro (hs | hs) <;> rw [show c.state_ = _ from hs] at hclosed <;> cases hclosed
      · rintro (hs | hs) <;> rw [show c.state_ = _ from hs] at hclosed <;> cases hclosed
      · intro hs
        rw [show c.state_ = _ from hs] at hclosed
        cases hclosed
      · rw [show written c.socket_ = [] from hnone]
        exact List.nil_prefix
  | cons first rest =>
      have hsame : message { conn := c, received := first :: rest ++ [data] } = h.message := by
        rw [message, message, hreceived]
        rfl
      refine ⟨⟨asked, ?_⟩, hended, hinput, ?_, by simp, ?_, fun hmem => ⟨?_, by simp⟩⟩
      · rw [hsame]
        exact hinv'
      · intro hs
        exact absurd (hstate.symm.trans hs) hnot
      · rw [hsame, show written c.socket_ = written h.conn.socket_ by rw [hsocket]]
        exact he.beginning
      · rw [hsame, show written c.socket_ = written h.conn.socket_ by rw [hsocket]]
        exact (he.whole (hsocket ▸ hmem)).1

/-- The first message is sent and the output is to end. A later one is dropped. -/
theorem Echoing.onMessage (he : h.Echoing) {buf : Buffer} {data : List UInt8}
    {w : Except Errno ℕ} (hbuf : buf.readable = data) (hw : Writable data.length w) :
    Echoing
      { conn := EchoConnection.onMessage
          (({ h.conn with inputBuffer_ := buf } : TcpConnection).invoke .messagecallback_) buf w
        received := h.received ++ [data] } := by
  have hmsg : buf.retrieveAllAsString.1 = data := hbuf
  have hrest : buf.retrieveAllAsString.2.readable = [] := by
    rw [show buf.retrieveAllAsString.2 = buf.retrieve buf.readableBytes from rfl,
      Buffer.readable_retrieve, ← Buffer.length_readable, List.drop_length]
  let c : TcpConnection :=
    { (({ h.conn with inputBuffer_ := buf } : TcpConnection).invoke .messagecallback_) with
      inputBuffer_ := buf.retrieveAllAsString.2 }
  have hcall : EchoConnection.onMessage
      (({ h.conn with inputBuffer_ := buf } : TcpConnection).invoke .messagecallback_) buf w =
        (c.send data w).shutdown := by
    rw [EchoConnection.onMessage, ← hmsg]
  rw [hcall]
  by_cases hconn : h.conn.state_ = .kConnected
  · have hnone := he.waiting hconn
    obtain ⟨asked, hinv⟩ := he.output
    rw [message, hnone] at hinv
    have hc : OutputInvariant ⟨c, [], asked⟩ := hinv.of_conn rfl rfl rfl rfl
    have hsend := hc.send hw
    simp only [LoopState.next, show c.state_ = .kConnected from hconn, if_true,
      List.nil_append] at hsend
    have hshutdown := hsend.shutdown
    have hstate : (c.send data w).shutdown.state_ = .kDisconnecting := by
      have hsent : (c.send data w).state_ = .kConnected := by
        rw [TcpConnection.send, if_pos (show c.state_ = .kConnected from hconn),
          TcpConnection.sendInLoop_state_]
        exact hconn
      rw [TcpConnection.shutdown, if_pos hsent, TcpConnection.shutdownInLoop_state_]
      rfl
    have hended : c.Ended := he.ended.of_eq rfl rfl rfl
    rw [hnone]
    refine .of_open hshutdown (hended.send data w).shutdown ?_ (.inr hstate) (fun hs => ?_)
      fun _ => by simp
    · rw [show (c.send data w).shutdown.inputBuffer_ = c.inputBuffer_ from
        ((c.send data w).shutdown_inputBuffer_).trans (c.send_inputBuffer_ data w)]
      exact hrest
    · rw [show (c.send data w).shutdown.state_ = _ from hs] at hstate
      cases hstate
  · have hsame : (c.send data w).shutdown = c := by
      have hnot : c.state_ ≠ .kConnected := hconn
      simp [TcpConnection.send, TcpConnection.shutdown, hnot]
    rw [hsame]
    exact he.later hconn c rfl rfl rfl rfl hrest data

theorem Echoing.next (he : h.Echoing) {e : EchoEvent} (hen : h.Enabled e) :
    (h.next e).Echoing := by
  cases e with
  | handleWrite r => exact he.handleWrite r
  | handleClose => exact he.handleClose
  | handleRead received w =>
      rw [EchoConnection.next, EchoConnection.handleRead]
      cases received with
      | error e =>
          rw [Buffer.readFd_error]
          exact he.withInput he.input
      | ok data =>
          have hbuf : (h.conn.inputBuffer_.readFd (.ok data)).1.readable = data := by
            rw [Buffer.readable_readFd_ok, he.input, List.nil_append]
          have hw : Writable (h.conn.inputBuffer_.readFd (.ok data)).1.readableBytes w := hen
          rw [← Buffer.length_readable, hbuf] at hw
          rw [show h.conn.inputBuffer_.readFd (.ok data) =
            ((h.conn.inputBuffer_.readFd (.ok data)).1, .ok data.length) from
              Prod.ext rfl (Buffer.readFd_snd_ok _ _)]
          simp only
          split_ifs with hlen
          · exact he.onMessage hbuf hw
          · obtain rfl : data = [] := List.length_eq_zero_iff.mp (by omega)
            exact (he.withInput hbuf).handleClose

/-- In every run, what a client of the echo server has got is a beginning of what the first read
has got, and while the connection is open the rest of it waits. The output ends when all of it has
been written, and nothing is written after that. As many writable events as bytes wait, at each of
which the kernel takes one, bring it to its end. -/
theorem echoed_of_runs (address fd : ℕ) {es : List EchoEvent}
    (hruns : echoServer.Runs (new address fd) es) :
    let h := echoServer.run (new address fd) es
    written h.conn.socket_ <+: h.message ∧ NoWriteAfterShutdown h.conn.socket_ ∧
      (h.conn.state_ ≠ .kDisconnected →
        written h.conn.socket_ ++ h.conn.outputBuffer_.readable = h.message) ∧
      (.shutdownWrite ∈ h.conn.socket_ →
        written h.conn.socket_ = h.message ∧ h.received ≠ []) ∧
      (h.conn.state_ ≠ .kDisconnected → h.received ≠ [] →
        ∀ ns, (∀ n ∈ ns, 0 < n) → h.conn.outputBuffer_.readableBytes ≤ ns.length →
          written (h.conn.writes ns).socket_ = h.message ∧
            .shutdownWrite ∈ (h.conn.writes ns).socket_) := by
  intro h
  have he : h.Echoing :=
    echoServer.invariant_of_runs (I := Echoing) (fun h e he hen => he.next hen)
      (echoing_new address fd) hruns
  obtain ⟨asked, hinv⟩ := he.output
  have hopen (hnot : h.conn.state_ ≠ .kDisconnected) :
      h.conn.state_ = .kConnected ∨ h.conn.state_ = .kDisconnecting := by
    cases hs : h.conn.state_ with
    | kDisconnected => exact absurd hs hnot
    | kconnecting => exact absurd hs hinv.begun
    | kConnected => exact .inl rfl
    | kDisconnecting => exact .inr rfl
  refine ⟨he.beginning, hinv.last, fun hnot => hinv.stream (hopen hnot), he.whole, ?_⟩
  intro hnot hgot ns hpos hlen
  have hstate : h.conn.state_ = .kDisconnecting :=
    (hopen hnot).resolve_left fun hconn => hgot (he.waiting hconn)
  have hstate' : (h.conn.writes ns).state_ = .kDisconnecting := by
    rwa [TcpConnection.writes_state_]
  have hdrained := hinv.writes ns
  have hempty := hinv.drained_writes (hopen hnot) hpos (by rwa [Buffer.length_readable])
  have hstream := hdrained.stream (.inr hstate')
  simp only [hempty, List.append_nil] at hstream
  refine ⟨hstream, he.ended.writes ns hstate' ?_⟩
  have hinterest := hdrained.interest (.inr hstate')
  simpa [hempty] using hinterest

/-- Two bytes come, one of them is written at once, and a third one comes too late. -/
def twoPieces : List EchoEvent :=
  [.handleRead (.ok [104, 105]) (.ok 1), .handleRead (.ok [33]) (.ok 0), .handleWrite (.ok 1)]

theorem echoed_twoPieces :
    let h := echoServer.run (new 1 7) twoPieces
    h.received = [[104, 105], [33]] ∧ written h.conn.socket_ = [104, 105] ∧
      .shutdownWrite ∈ h.conn.socket_ := by
  intro h
  have hruns : echoServer.Runs (new 1 7) twoPieces := by decide +kernel
  obtain ⟨-, -, -, hwhole, -⟩ := echoed_of_runs 1 7 hruns
  have hreceived : h.received = [[104, 105], [33]] := by decide +kernel
  have hmessage : h.message = [104, 105] := by
    rw [message, hreceived]
    rfl
  have hend : .shutdownWrite ∈ h.conn.socket_ := by decide +kernel
  exact ⟨hreceived, (hwhole hend).1.trans hmessage, hend⟩

end EchoConnection

end CkServer
