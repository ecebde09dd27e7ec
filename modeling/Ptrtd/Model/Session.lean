import Ptrtd.Library.Run
import Ptrtd.Model.HandleTcp

/-! # One connection in the daemon

The inputs of a connection are the segments that reach its block, the events that
`event_loop` finds due or ready, the calls of an application other than the relay, and
whatever the rest of the daemon does to the event lists. Any order is admitted; the order
`event_loop` chooses is one of them. -/

namespace Ptrtd

/-- What the system reports to a socket callback. -/
inductive Io
  | read (r : ReadResult)
  | write (r : WriteResult)
  | connect (ok : Bool)
  deriving DecidableEq, Repr

/-- A call through the interface of `tcp.h`. -/
inductive AppCall
  | accept
  | send (data : List Uchar)
  | read (len : ℕ)
  | close (hard : Bool)
  deriving DecidableEq, Repr

inductive Input
  | packet (s : Segment) (now : Timeval)
  | timeEvent (addr : ℕ)
  | fdEvent (addr : ℕ) (io : Io)
  | alwaysEvent (addr : ℕ) (now : Timeval)
  | call (a : AppCall)
  | others (ev : EventLists)
  deriving DecidableEq, Repr

/-- The event of a list with the given address, if its data is `d`. -/
def findEvent (l : List Event) (addr : ℕ) (d : DataRef) : Option Event :=
  l.find? fun e => e.addr = addr ∧ e.data = d

/-- `event_loop` runs a time event of this block and unlinks it. -/
def runTimeEvent (c : Conn) (addr : ℕ) : Option Conn :=
  (findEvent c.ev.timeEventList addr (.tcb c.self)).bind fun e =>
    let finish (c : Conn) : Conn := { c with ev := removeTimeEvent c.ev addr }
    match e.func with
    | .tcpTimeout => some (finish (tcpTimeout c))
    | .tcpRemove => some (finish (tcpRemove c))
    | _ => none

/-- `event_loop` runs a socket event of this map and unlinks it when the callback returns 0. -/
def runFdEvent (c : Conn) (addr : ℕ) (io : Io) : Option Conn :=
  (findEvent c.ev.fdEventList addr (.tcpMap c.self)).bind fun e =>
    let finish (r : Conn × Bool) : Conn :=
      if r.2 then r.1 else { r.1 with ev := removeFdEvent r.1.ev addr }
    match e.func, io with
    | .handleFdCanRead, .read r => (handleFdCanRead c r).map finish
    | .handleFdCanWrite, .write r => (handleFdCanWrite c r).map finish
    | .handleFdDidConnect, .connect ok => (handleFdDidConnect c ok).map finish
    | _, _ => none

/-- `event_loop` runs the write event of this block and unlinks it when the callback returns 0. -/
def runAlwaysEvent (c : Conn) (addr : ℕ) (now : Timeval) : Option Conn :=
  (findEvent c.ev.alwaysEventList addr (.tcb c.self)).bind fun e =>
    match e.func with
    | .doTcbWrite => (doTcbWrite c now).map fun (c, again) =>
        if again then c else { c with ev := removeAlwaysEvent c.ev addr }
    | _ => none

/-- An application other than the relay calls `tcp.c`. It keeps to the interface: it uses a
block only until it has closed it, accepts once, and sends in `ESTABLISHED` and no more
than there is space for. -/
def appCall (c : Conn) : AppCall → Option Conn
  | .accept =>
      if c.tcb.state = .synRecvd ∧ c.trace.acceptCalled = false then some (tcpAccept c) else none
  | .send data =>
      if c.tcb.state = .established ∧ data.length ≤ tcpGetOutputSpace c.tcb then tcpSend c data
      else none
  | .read len => (tcpRead c len).map Prod.fst
  | .close hard => some (tcpClose c hard)

/-- The rest of the daemon has changed the event lists, but no event of this connection. -/
def othersChanged (c : Conn) (ev : EventLists) : Prop :=
  c.ev.next ≤ ev.next ∧ ev.timeEventList.filter c.owns = c.ev.timeEventList.filter c.owns ∧
    ev.fdEventList.filter c.owns = c.ev.fdEventList.filter c.owns ∧
    ev.alwaysEventList.filter c.owns = c.ev.alwaysEventList.filter c.owns

instance (c : Conn) (ev : EventLists) : Decidable (othersChanged c ev) :=
  inferInstanceAs (Decidable (_ ∧ _ ∧ _ ∧ _))

/-- A segment has arrived at the block. -/
def Conn.receive (c : Conn) (s : Segment) : Conn :=
  { c with trace := { c.trace with received := c.trace.received ++ [s] } }

/-- One input of the connection, as long as its block is allocated. -/
def step (c : Conn) (i : Input) : Option Conn :=
  if c.live then
    match i with
    | .packet s now => handleTcp (c.receive s) s now
    | .timeEvent addr => runTimeEvent c addr
    | .fdEvent addr io => runFdEvent c addr io
    | .alwaysEvent addr now => runAlwaysEvent c addr now
    | .call a => if c.tcb.cb = some .otherCb then appCall c a else none
    | .others ev => if othersChanged c ev then some { c with ev } else none
  else none

/-- No event of the daemon refers to the addresses that a new connection gets. -/
def freshAddr (self : ℕ) (ev : EventLists) : Prop :=
  ∀ e ∈ ev.timeEventList ++ ev.fdEventList ++ ev.alwaysEventList,
    e.data ≠ .tcb self ∧ e.data ≠ .tcpMap self

/-- A connection that has just been made, for the given application. -/
def Start (app : TcpCallback) (c : Conn) : Prop :=
  ∃ self isn ev syn res, freshAddr self ev ∧ handleSyn self app isn ev syn res = some c

/-- The connections reached from a new one by steps that satisfy `ok`. -/
def Reached (ok : Conn → Input → Prop) (c : Conn) : Prop :=
  ∃ app c₀, Start app c₀ ∧ Transition.Run step ok c₀ c

end Ptrtd
