import Mathlib.Data.Int.Notation
import Mathlib.Data.Nat.Notation

/-! # The event lists of `event.c`

An event is known by its address, a number that is never used twice (`remove_event` does
not free events). The doubly linked lists are lists here, which is what the code's pointers
lead to as long as only events that are in a list are unlinked: `Ptrtd.Model.EventMem` and
`Ptrtd.Model.RelayMem` have the links, and what a second `remove_event` does to them. The wall
clock is an argument of the operations that read it. -/

namespace Ptrtd

/-- `time_ref`, that is `struct timeval`. -/
structure Timeval where
  sec : ℤ
  usec : ℤ
  deriving DecidableEq, Repr

/-- Milliseconds from `start` to `stop`, rounded. The code returns an `int`: what is cut off from
it is left out here, and put back by `intOfLong` where `event_loop` uses the result. -/
def timeDiff (start stop : Timeval) : ℤ :=
  ((stop.sec - start.sec) * 1000000 + stop.usec - start.usec + 500).tdiv 1000

def timeAgo (now tr : Timeval) : ℤ := timeDiff tr now

def timeAdd (tr : Timeval) (msec : ℤ) : Timeval :=
  ⟨tr.sec + msec.tdiv 1000, tr.usec + msec.tmod 1000 * 1000⟩

def timeFuture (now : Timeval) (msec : ℤ) : Timeval := timeAdd now msec

/-- The callbacks that the daemon registers. -/
inductive Callback
  | doTcbWrite | tcpTimeout | tcpRemove
  | handleFdCanRead | handleFdCanWrite | handleFdDidConnect
  | removeUdpMap | handleUdpRead
  | ifReadCallback
  deriving DecidableEq, Repr

/-- The `data` pointer of an event: what it points to and its address. -/
inductive DataRef
  | tcb (addr : ℕ) | tcpMap (addr : ℕ) | udpMap (addr : ℕ) | iface
  deriving DecidableEq, Repr

/-- The `type` of an event together with the member of the union `ev` that it selects. -/
inductive EventKind
  | time (t : Timeval)
  | fd (fd : ℤ) (write : Bool)
  | always
  deriving DecidableEq, Repr

/-- `struct event`, without the list links. -/
structure Event where
  addr : ℕ
  func : Callback
  data : DataRef
  kind : EventKind
  deriving DecidableEq, Repr

/-- `ev.time.time`. -/
def Event.time (e : Event) : Timeval :=
  match e.kind with
  | .time t => t
  | _ => ⟨0, 0⟩

/-- The three lists of pending events, and the address of the next event to be allocated. -/
structure EventLists where
  timeEventList : List Event
  fdEventList : List Event
  alwaysEventList : List Event
  next : ℕ
  deriving DecidableEq, Repr

/-- The insertion loop of `resched_time_event`: before the first event that is later by
more than half a millisecond, else at the end. -/
def insertTimeEvent (e : Event) : List Event → List Event
  | [] => [e]
  | t :: rest =>
      if timeDiff e.time t.time > 0 then e :: t :: rest else t :: insertTimeEvent e rest

/-- Register a time event and return its address, which is `ev.next`. -/
def addTimeEvent (ev : EventLists) (t : Timeval) (f : Callback) (d : DataRef) : EventLists :=
  { ev with
    timeEventList := insertTimeEvent ⟨ev.next, f, d, .time t⟩ ev.timeEventList
    next := ev.next + 1 }

/-- Register a file descriptor event; its address is `ev.next`. -/
def addFdEvent (ev : EventLists) (fd : ℤ) (write : Bool) (f : Callback) (d : DataRef) :
    EventLists :=
  { ev with
    fdEventList := ⟨ev.next, f, d, .fd fd write⟩ :: ev.fdEventList
    next := ev.next + 1 }

/-- Register an event that runs in every iteration; its address is `ev.next`. -/
def addAlwaysEvent (ev : EventLists) (f : Callback) (d : DataRef) : EventLists :=
  { ev with
    alwaysEventList := ⟨ev.next, f, d, .always⟩ :: ev.alwaysEventList
    next := ev.next + 1 }

/-- `del_event` on a list: unlink the event with the given address. On an event that is in no list
the code follows the links that are left in it; this leaves the list as it is. -/
def delEvent (addr : ℕ) (l : List Event) : List Event := l.filter fun e => e.addr ≠ addr

/-- `remove_event` on an event of type `EVENT_TIME`. -/
def removeTimeEvent (ev : EventLists) (addr : ℕ) : EventLists :=
  { ev with timeEventList := delEvent addr ev.timeEventList }

/-- `remove_event` on an event of type `EVENT_FD`. -/
def removeFdEvent (ev : EventLists) (addr : ℕ) : EventLists :=
  { ev with fdEventList := delEvent addr ev.fdEventList }

/-- `remove_event` on an event of type `EVENT_ALWAYS`. -/
def removeAlwaysEvent (ev : EventLists) (addr : ℕ) : EventLists :=
  { ev with alwaysEventList := delEvent addr ev.alwaysEventList }

@[simp] theorem mem_insertTimeEvent {e x : Event} {l : List Event} :
    x ∈ insertTimeEvent e l ↔ x = e ∨ x ∈ l := by
  induction l with
  | nil => simp [insertTimeEvent]
  | cons t rest ih =>
      rw [insertTimeEvent]
      split
      · simp
      · simp only [List.mem_cons, ih]
        exact or_left_comm

@[simp] theorem mem_delEvent {x : Event} {addr : ℕ} {l : List Event} :
    x ∈ delEvent addr l ↔ x ∈ l ∧ x.addr ≠ addr := by
  simp [delEvent]

end Ptrtd
