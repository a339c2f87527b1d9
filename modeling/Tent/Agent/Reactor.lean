import Mathlib.Logic.Function.Basic
import Mathlib.Data.List.Basic

/-!
# The reactor and the timer

`net_reactor` keeps which client is registered under which descriptor and tells `epoll` which
events each of them waits for; the mask that was asked for last is also kept in the client.  `timer`
keeps the clients that wait for a timeout.  Clients are known by a number.

The interest list of `epoll` is modelled as the kernel keeps it: adding a descriptor that is listed
and changing one that is not both fail, and closing a descriptor takes it off the list.
-/

set_option autoImplicit false

namespace Tent

/-- A mask of `epoll` events. -/
structure Events where
  /-- `EPOLLIN`. -/
  epollin : Bool
  /-- `EPOLLOUT`. -/
  epollout : Bool
deriving DecidableEq, Repr

namespace Events

/-- `EPOLLIN` alone. -/
def readable : Events := ⟨true, false⟩

/-- `EPOLLOUT` alone. -/
def writable : Events := ⟨false, true⟩

/-- `flags | events`. -/
def union (flags events : Events) : Events :=
  ⟨flags.epollin || events.epollin, flags.epollout || events.epollout⟩

/-- `flags & ~events`. -/
def diff (flags events : Events) : Events :=
  ⟨flags.epollin && !events.epollin, flags.epollout && !events.epollout⟩

end Events

/-- The state of a `net_reactor` and of its `epoll` instance. -/
structure NetReactor where
  /-- `clients_`. -/
  clients : ℕ → Option ℕ
  /-- The interest list of the `epoll` instance: the mask each descriptor is listed with. -/
  epoll : ℕ → Option Events

namespace NetReactor

/-- `ctl_add`; none if it fails. -/
def ctlAdd (fd : ℕ) (events : Events) (r : NetReactor) : Option NetReactor :=
  if (r.epoll fd).isSome then none
  else some { r with epoll := Function.update r.epoll fd (some events) }

/-- `ctl_mod`; nothing happens if it fails. -/
def ctlMod (fd : ℕ) (events : Events) (r : NetReactor) : NetReactor :=
  if (r.epoll fd).isSome then { r with epoll := Function.update r.epoll fd (some events) } else r

/-- The kernel takes a descriptor off the interest list. -/
def ctlDel (fd : ℕ) (r : NetReactor) : NetReactor :=
  { r with epoll := Function.update r.epoll fd none }

/-- `net_reactor::reg`, for a client whose descriptor and mask are given: the reactor and the mask
of the client after it.  `none` stands for the descriptor `-1`. -/
def reg (client : ℕ) (fd : Option ℕ) (flags events : Events) (r : NetReactor) :
    NetReactor × Events :=
  match fd with
  | none => (r, flags)
  | some fd =>
    match r.clients fd with
    | none =>
      match r.ctlAdd fd events with
      | none => (r, flags)
      | some r => ({ r with clients := Function.update r.clients fd (some client) }, events)
    | some _ => (r.ctlMod fd (flags.union events), flags.union events)

/-- `net_reactor::unreg` without events. -/
def unreg (fd : Option ℕ) (r : NetReactor) : NetReactor :=
  match fd with
  | none => r
  | some fd => { r.ctlDel fd with clients := Function.update r.clients fd none }

/-- `net_reactor::unreg` of some events: the reactor and the mask of the client after it. -/
def unregEvents (fd : Option ℕ) (flags events : Events) (r : NetReactor) : NetReactor × Events :=
  match fd with
  | none => (r, flags)
  | some fd =>
    match r.clients fd with
    | none => (r, flags)
    | some _ => (r.ctlMod fd (flags.diff events), flags.diff events)

/-- Closing a descriptor takes it off the interest list. -/
def close (fd : Option ℕ) (r : NetReactor) : NetReactor :=
  match fd with
  | none => r
  | some fd => r.ctlDel fd

end NetReactor

/-- The registered clients of a `timer`. -/
structure Timer where
  /-- `clients_`. -/
  clients : List ℕ
deriving DecidableEq, Repr

namespace Timer

/-- `timer::reg`. -/
def reg (client : ℕ) (t : Timer) : Timer := ⟨t.clients ++ [client]⟩

/-- `timer::unreg`. -/
def unreg (client : ℕ) (t : Timer) : Timer := ⟨t.clients.filter (· ≠ client)⟩

end Timer

end Tent
