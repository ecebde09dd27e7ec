import Ptrtd.Library.LinkedList
import Ptrtd.Library.Run
import Ptrtd.Model.Event

/-! # The event lists of `event.c` in memory

The doubly linked lists with the pointers that the source writes. The lists of `EventLists` are
what these pointers lead to. -/

namespace Ptrtd

open LinkedList

/-- The list that events of a type are in. -/
inductive ListKind
  | time | fd | always
  deriving DecidableEq, Repr

instance {p : ListKind → Prop} [DecidablePred p] : Decidable (∀ k, p k) :=
  decidable_of_iff (p .time ∧ p .fd ∧ p .always)
    ⟨fun ⟨ht, hf, ha⟩ k => match k with
      | .time => ht
      | .fd => hf
      | .always => ha, fun h => ⟨h .time, h .fd, h .always⟩⟩

instance {p : ListKind → Prop} [DecidablePred p] : Decidable (∃ k, p k) :=
  decidable_of_iff (¬∀ k, ¬p k) not_forall_not

def EventKind.list : EventKind → ListKind
  | .time _ => .time
  | .fd _ _ => .fd
  | .always => .always

/-- The events by address: their links, the other fields, and `remove`. Then the three heads, and
the address of the next event to be allocated. -/
structure EventMem where
  links : Links ℕ
  event : ℕ → Event
  remove : ℕ → Bool
  timeEventList : Option ℕ
  fdEventList : Option ℕ
  alwaysEventList : Option ℕ
  next : ℕ

namespace EventMem

def head (m : EventMem) : ListKind → Option ℕ
  | .time => m.timeEventList
  | .fd => m.fdEventList
  | .always => m.alwaysEventList

def setHead (m : EventMem) (k : ListKind) (p : Option ℕ) : EventMem :=
  match k with
  | .time => { m with timeEventList := p }
  | .fd => { m with fdEventList := p }
  | .always => { m with alwaysEventList := p }

/-- `new_event`, with the type and the union that its callers fill in. -/
def newEvent (m : EventMem) (f : Callback) (d : DataRef) (kind : EventKind) : EventMem :=
  { m with
    links := (m.links.setNext m.next none).setPrev m.next none
    event := Function.update m.event m.next ⟨m.next, f, d, kind⟩
    remove := Function.update m.remove m.next false
    next := m.next + 1 }

/-- `del_event`, and the assignment of what it returns to the list. -/
def delEvent (m : EventMem) (e : ℕ) (k : ListKind) : EventMem :=
  let links := m.links.unlink e
  { m with links }.setHead k (if m.head k = some e then links.next e else m.head k)

/-- The loop of `resched_time_event` from `t` on. -/
def placeTimeEvent (m : EventMem) (e : ℕ) : ℕ → Option ℕ → Option EventMem
  | _, none => some m
  | 0, some _ => none
  | fuel + 1, some t =>
      if timeDiff (m.event e).time (m.event t).time > 0 then
        let links := m.links.insertBefore e t
        some { m with
          links
          timeEventList := if links.prev e = none then some e else m.timeEventList }
      else if m.links.next t = none then some { m with links := m.links.insertLast e t }
      else m.placeTimeEvent e fuel (m.links.next t)

/-- What `resched_time_event` does after `del_event`. The events allocated so far bound the turns
of the loop. -/
def linkTimeEvent (m : EventMem) (e : ℕ) : Option EventMem :=
  match m.timeEventList with
  | none => some { m with timeEventList := some e }
  | some t => m.placeTimeEvent e m.next (some t)

/-- `resched_time_event` -/
def reschedTimeEvent (m : EventMem) (e : ℕ) (t : Timeval) : Option EventMem :=
  let m := { m with
    event := Function.update m.event e { m.event e with kind := .time t }
    remove := Function.update m.remove e false }
  (m.delEvent e .time).linkTimeEvent e

/-- `add_time_event`; the address of the event is `m.next`. -/
def addTimeEvent (m : EventMem) (t : Timeval) (f : Callback) (d : DataRef) : Option EventMem :=
  (m.newEvent f d (.time t)).reschedTimeEvent m.next t

/-- What `add_fd_event` and `add_always_event` do after `new_event`. -/
def pushEvent (m : EventMem) (e : ℕ) (k : ListKind) : EventMem :=
  { m with links := m.links.pushFront e (m.head k) }.setHead k (some e)

/-- `add_fd_event`; the address of the event is `m.next`. -/
def addFdEvent (m : EventMem) (fd : ℤ) (write : Bool) (f : Callback) (d : DataRef) : EventMem :=
  (m.newEvent f d (.fd fd write)).pushEvent m.next .fd

/-- `add_always_event`; the address of the event is `m.next`. -/
def addAlwaysEvent (m : EventMem) (f : Callback) (d : DataRef) : EventMem :=
  (m.newEvent f d .always).pushEvent m.next .always

/-- `remove_event` -/
def removeEvent (m : EventMem) (e : ℕ) : EventMem := m.delEvent e (m.event e).kind.list

end EventMem

/-- A call of one of the functions that `event.h` offers. -/
inductive EventOp
  | addTime (t : Timeval) (f : Callback) (d : DataRef)
  | addFd (fd : ℤ) (write : Bool) (f : Callback) (d : DataRef)
  | addAlways (f : Callback) (d : DataRef)
  | resched (e : ℕ) (t : Timeval)
  | remove (e : ℕ)
  deriving DecidableEq, Repr

/-- What has happened to an event. -/
inductive EventEntry
  | added (e : ℕ) (k : ListKind)
  | removed (e : ℕ)
  | called (e : ℕ)
  deriving DecidableEq, Repr

/-- The events, and what has happened to them so far. -/
structure EventState where
  mem : EventMem
  log : List EventEntry

/-- The event is registered: it has been added to the list and not removed. -/
def Pending (log : List EventEntry) (k : ListKind) (e : ℕ) : Prop :=
  .added e k ∈ log ∧ .removed e ∉ log

instance (log : List EventEntry) (k : ListKind) (e : ℕ) : Decidable (Pending log k e) :=
  inferInstanceAs (Decidable (_ ∧ _))

/-- The functions are applied to registered events. -/
def EventOp.Allowed (s : EventState) : EventOp → Prop
  | .resched e _ => Pending s.log .time e
  | .remove e => ∃ k, Pending s.log k e
  | _ => True

instance (s : EventState) (op : EventOp) : Decidable (op.Allowed s) :=
  match op with
  | .addTime _ _ _ => isTrue trivial
  | .addFd _ _ _ _ => isTrue trivial
  | .addAlways _ _ => isTrue trivial
  | .resched e _ => inferInstanceAs (Decidable (Pending s.log .time e))
  | .remove e => inferInstanceAs (Decidable (∃ k, Pending s.log k e))

def eventStep (s : EventState) : EventOp → Option EventState
  | .addTime t f d =>
      (s.mem.addTimeEvent t f d).map fun m => ⟨m, s.log ++ [.added s.mem.next .time]⟩
  | .addFd fd write f d =>
      some ⟨s.mem.addFdEvent fd write f d, s.log ++ [.added s.mem.next .fd]⟩
  | .addAlways f d => some ⟨s.mem.addAlwaysEvent f d, s.log ++ [.added s.mem.next .always]⟩
  | .resched e t => (s.mem.reschedTimeEvent e t).map (⟨·, s.log⟩)
  | .remove e => some ⟨s.mem.removeEvent e, s.log ++ [.removed e]⟩

/-- Nothing is registered. -/
def EventState.Empty (s : EventState) : Prop := (∀ k, s.mem.head k = none) ∧ s.log = []

/-! ## The passes of `event_loop` -/

/-- What the callback of an event does: the functions of `event.h` that it calls, and whether it
returns nonzero. -/
abbrev Behaviour := EventState → ℕ → List EventOp × Bool

/-- The loop over a list from the event `e` on. A callback is called for the events that are
`ready`, and `e->next` is read after it. -/
def eventPass (ready : Event → Bool) (b : Behaviour) :
    ℕ → Option ℕ → EventState → Option EventState
  | _, none, s => some s
  | 0, some _, _ => none
  | fuel + 1, some e, s =>
      if ready (s.mem.event e) then
        let s := { s with log := s.log ++ [.called e] }
        ((b s e).1.foldlM eventStep s).bind fun s' =>
          if (b s e).2 then eventPass ready b fuel (s'.mem.links.next e) s'
          else
            let n := s'.mem.links.next e
            eventPass ready b fuel n ⟨s'.mem.removeEvent e, s'.log ++ [.removed e]⟩
      else eventPass ready b fuel (s.mem.links.next e) s

/-- The loops of an iteration over the descriptors' events, with the sets that `select` has
filled in, and over the always events. -/
inductive LoopPass
  | fd (rfds wfds : ℤ → Bool)
  | always

namespace LoopPass

def kind : LoopPass → ListKind
  | .fd _ _ => .fd
  | .always => .always

/-- `FD_ISSET (e->ev.fd.fd, e->ev.fd.write ? &wfds : &rfds)`; an always event is always run. -/
def ready : LoopPass → Event → Bool
  | .fd rfds wfds, e =>
      match e.kind with
      | .fd n write => if write then wfds n else rfds n
      | _ => false
  | .always, _ => true

/-- A pass. The events allocated before it bound its turns. -/
def run (p : LoopPass) (b : Behaviour) (s : EventState) : Option EventState :=
  eventPass p.ready b s.mem.next (s.mem.head p.kind) s

end LoopPass

/-- A callback adds events, and removes or reschedules registered ones, but does not remove its
own. -/
def MayDo (own : ℕ) (s : EventState) (op : EventOp) : Prop := op.Allowed s ∧ op ≠ .remove own

def MayDoAll (own : ℕ) : EventState → List EventOp → Prop
  | _, [] => True
  | s, op :: ops => MayDo own s op ∧ ∀ s', eventStep s op = some s' → MayDoAll own s' ops

/-- The callbacks keep to the rules. What they do may depend on all that has happened. -/
def Behaviour.Obeys (b : Behaviour) : Prop := ∀ s e, MayDoAll e s (b s e).1

/-- The states that are reached from an empty one by calls of the functions and by passes. -/
inductive EventState.Reached : EventState → Prop where
  | start {s : EventState} : s.Empty → Reached s
  | op {s s' : EventState} {o : EventOp} :
      Reached s → o.Allowed s → eventStep s o = some s' → Reached s'
  | pass {s s' : EventState} {p : LoopPass} {b : Behaviour} :
      Reached s → b.Obeys → p.run b s = some s' → Reached s'

/-! ## The lists -/

namespace EventLists

def list (ev : EventLists) : ListKind → List Event
  | .time => ev.timeEventList
  | .fd => ev.fdEventList
  | .always => ev.alwaysEventList

def setList (ev : EventLists) (k : ListKind) (l : List Event) : EventLists :=
  match k with
  | .time => { ev with timeEventList := l }
  | .fd => { ev with fdEventList := l }
  | .always => { ev with alwaysEventList := l }

/-- `resched_time_event` on an event of the list. -/
def reschedTimeEvent (ev : EventLists) (addr : ℕ) (t : Timeval) : EventLists :=
  match ev.timeEventList.find? fun e => e.addr = addr with
  | none => ev
  | some e =>
      { ev with
        timeEventList :=
          insertTimeEvent { e with kind := .time t } (delEvent addr ev.timeEventList) }

/-- `remove_event`; an address is in one list only. -/
def removeEvent (ev : EventLists) (addr : ℕ) : EventLists :=
  { ev with
    timeEventList := delEvent addr ev.timeEventList
    fdEventList := delEvent addr ev.fdEventList
    alwaysEventList := delEvent addr ev.alwaysEventList }

def apply (ev : EventLists) : EventOp → EventLists
  | .addTime t f d => addTimeEvent ev t f d
  | .addFd fd write f d => addFdEvent ev fd write f d
  | .addAlways f d => addAlwaysEvent ev f d
  | .resched e t => ev.reschedTimeEvent e t
  | .remove e => ev.removeEvent e

/-- The events of a list have different addresses, all of them allocated. -/
def Addressed (ev : EventLists) : Prop :=
  ∀ k, ((ev.list k).map Event.addr).Nodup ∧ ∀ e ∈ ev.list k, e.addr < ev.next

instance (ev : EventLists) : Decidable ev.Addressed :=
  inferInstanceAs (Decidable (∀ k, ((ev.list k).map Event.addr).Nodup ∧
    ∀ e ∈ ev.list k, e.addr < ev.next))

variable {ev : EventLists} {k j : ListKind} {l : List Event}

@[simp] theorem list_setList : (ev.setList k l).list k = l := by cases k <;> rfl

theorem list_setList_of_ne (h : j ≠ k) : (ev.setList k l).list j = ev.list j := by
  cases j <;> cases k <;> first | rfl | exact absurd rfl h

theorem removeEvent_list (addr : ℕ) : (ev.removeEvent addr).list k = delEvent addr (ev.list k) := by
  cases k <;> rfl

@[simp] theorem setList_next : (ev.setList k l).next = ev.next := by cases k <;> rfl

end EventLists

namespace EventMem

variable {m : EventMem} {k j : ListKind} {p : Option ℕ}

@[simp] theorem head_setHead : (m.setHead k p).head k = p := by cases k <;> rfl

theorem head_setHead_of_ne (h : j ≠ k) : (m.setHead k p).head j = m.head j := by
  cases j <;> cases k <;> first | rfl | exact absurd rfl h

@[simp] theorem setHead_links : (m.setHead k p).links = m.links := by cases k <;> rfl

@[simp] theorem setHead_event : (m.setHead k p).event = m.event := by cases k <;> rfl

@[simp] theorem setHead_next : (m.setHead k p).next = m.next := by cases k <;> rfl

end EventMem

end Ptrtd
