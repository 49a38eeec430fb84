import CkServer.Model.Channel
import Mathlib.Logic.Function.Basic

/-! # The epoll poller

`updateChannel` and `removeChannel` keep the kernel's set of watched descriptors. The set is
a map from descriptors to masks, in which `epoll_ctl` refuses to add what is there and to
change or delete what is not. -/

namespace CkServer

inductive EpollOp where
  | EPOLL_CTL_ADD
  | EPOLL_CTL_MOD
  | EPOLL_CTL_DEL
  deriving DecidableEq, Repr

/-- `epoll_ctl`, or `none` where it fails. -/
def epollCtl (op : EpollOp) (fd : ℕ) (events : Events) (epoll : ℕ → Option Events) :
    Option (ℕ → Option Events) :=
  match op, epoll fd with
  | .EPOLL_CTL_ADD, none => some (Function.update epoll fd (some events))
  | .EPOLL_CTL_ADD, some _ => none
  | .EPOLL_CTL_MOD, none => none
  | .EPOLL_CTL_MOD, some _ => some (Function.update epoll fd (some events))
  | .EPOLL_CTL_DEL, none => none
  | .EPOLL_CTL_DEL, some _ => some (Function.update epoll fd none)

/-- `channels_` gives the address of the channel kept for a descriptor, `epoll` is the
kernel's set behind `epollfd_`, and `aborted` tells that `LOG_FATAL` has ended the process. -/
structure EPollPoller where
  channels_ : ℕ → Option ℕ := fun _ => none
  epoll : ℕ → Option Events := fun _ => none
  aborted : Bool := false

namespace EPollPoller

/-- A failed deletion is only logged. -/
def update (p : EPollPoller) (op : EpollOp) (ch : Channel) : EPollPoller :=
  match epollCtl op ch.fd_ ch.events_ p.epoll with
  | some epoll => { p with epoll := epoll }
  | none => if op = .EPOLL_CTL_DEL then p else { p with aborted := true }

def updateChannel (p : EPollPoller) (ch : Channel) : EPollPoller × Channel :=
  match ch.index_ with
  | .kNew =>
      let p := { p with channels_ := Function.update p.channels_ ch.fd_ (some ch.address) }
      let ch := ch.setindex .kAdded
      (p.update .EPOLL_CTL_ADD ch, ch)
  | .kDeleted =>
      let ch := ch.setindex .kAdded
      (p.update .EPOLL_CTL_ADD ch, ch)
  | .kAdded =>
      if ch.isNoneEvent then
        (p.update .EPOLL_CTL_DEL ch, ch.setindex .kDeleted)
      else
        (p.update .EPOLL_CTL_MOD ch, ch)

def removeChannel (p : EPollPoller) (ch : Channel) : EPollPoller × Channel :=
  let p := { p with channels_ := Function.update p.channels_ ch.fd_ none }
  let p := if ch.index_ = .kAdded then p.update .EPOLL_CTL_DEL ch else p
  (p, ch.setindex .kNew)

end EPollPoller

end CkServer
