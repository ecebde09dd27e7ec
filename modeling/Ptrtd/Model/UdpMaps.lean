import Ptrtd.Model.EventMem
import Ptrtd.Model.Udp

/-! # The UDP maps in memory (`ptrtd-udp.c`)

The doubly linked list of maps, the descriptors that are open, and the events that the maps have
registered. `ALLOC` may give the address of a map that has been freed, and `socket` a descriptor
that has been closed. -/

namespace Ptrtd.Wire

open Circular (load)
open Table (Addr)
open LinkedList

/-- `struct udp_map` without the links: what `UdpMap` has, and the two events. -/
structure UdpCell where
  map : UdpMap
  eFdRead : ℕ
  eStale : ℕ
  deriving DecidableEq

/-- What has happened to a socket: it was created on account of a client's datagram, or closed. -/
inductive UdpEntry
  | created (fd : ℤ) (raddr : Addr) (rport : ℕ)
  | closed (fd : ℤ)
  deriving DecidableEq

def UdpEntry.fd : UdpEntry → ℤ
  | .created fd _ _ => fd
  | .closed fd => fd

/-- The client whose datagram the open socket was created for. The last entry comes first. -/
def owner (fd : ℤ) : List UdpEntry → Option (Addr × ℕ)
  | [] => none
  | .created fd' raddr rport :: log => if fd' = fd then some (raddr, rport) else owner fd log
  | .closed fd' :: log => if fd' = fd then none else owner fd log

/-- The maps by address, those that are allocated, `ulist`, the descriptors that are open and the
events. The rest is as in `Udp`, and a trace of the sockets, the last entry first. -/
structure UdpMem where
  links : Links ℕ
  cell : ℕ → UdpCell
  allocated : List ℕ
  ulist : Option ℕ
  opened : ℤ → Bool
  ev : EventLists
  listening : Bool
  sent4 : List Sendto
  sent6 : List Pbuf
  log : List UdpEntry

namespace UdpMem

/-- The loop of `udp_get_map` from `um` on. -/
def findMap (s : UdpMem) (raddr : Addr) (rport : ℕ) : ℕ → Option ℕ → Option (Option ℕ)
  | _, none => some none
  | 0, some _ => none
  | fuel + 1, some um =>
      if (s.cell um).map.rport = rport ∧ (s.cell um).map.raddr = raddr then some (some um)
      else s.findMap raddr rport fuel (s.links.next um)

/-- `udp_get_map` for a new client; `ALLOC` yields `um` and `socket` yields `fd`. -/
def createMap (s : UdpMem) (raddr : Addr) (rport : ℕ) (um : ℕ) (fd : ℤ) (now : Timeval) :
    UdpMem :=
  let links := s.links.setNext um s.ulist
  let links := links.setPrev um none
  let links := links.setPrev? s.ulist (some um)
  let eFdRead := s.ev.next
  let ev := addFdEvent s.ev fd false .handleUdpRead (.udpMap um)
  let eStale := ev.next
  { s with
    links
    cell := Function.update s.cell um ⟨⟨fd, raddr, rport⟩, eFdRead, eStale⟩
    allocated := um :: s.allocated
    ulist := some um
    opened := Function.update s.opened fd true
    ev := addTimeEvent ev (timeFuture now 600000) .removeUdpMap (.udpMap um)
    log := .created fd raddr rport :: s.log }

/-- `udp_get_map`. The allocated maps bound the turns of its loop. -/
def getMap (s : UdpMem) (raddr : Addr) (rport : ℕ) (um : ℕ) (fd : ℤ) (now : Timeval) :
    Option (UdpMem × ℕ) :=
  (s.findMap raddr rport s.allocated.length s.ulist).map fun
    | some found => (s, found)
    | none => (s.createMap raddr rport um fd now, um)

/-- `time_future (&tr, 600000); resched_time_event (um->e_stale, &tr);` -/
def refresh (s : UdpMem) (um : ℕ) (now : Timeval) : UdpMem :=
  { s with ev := s.ev.reschedTimeEvent (s.cell um).eStale (timeFuture now 600000) }

/-- `incoming`; the clock is read for a new map and at the end. -/
def incoming (s : UdpMem) (data : List Uchar) (len : ℤ) (laddr : Addr) (lport : ℕ) (raddr : Addr)
    (rport : ℕ) (um : ℕ) (fd : ℤ) (now now' : Timeval) : Option UdpMem :=
  (s.getMap raddr rport um fd now).map fun (s, um) =>
    let sendto := ⟨(s.cell um).map.fd, data, len, embedded laddr, lport⟩
    { s with sent4 := s.sent4 ++ [sendto] }.refresh um now'

/-- `handle_udp` -/
def handleUdp (s : UdpMem) (r : Recv) (um : ℕ) (fd : ℤ) (now now' : Timeval) : Option UdpMem :=
  if s.listening then
    s.incoming (load r.d 48 (r.len - 48)) (r.len - 48) (getAddr r.d 24) (get16 r.d 42) r.src
      (get16 r.d 40) um fd now now'
  else some s

/-- `handle_udp_read`, which returns 1. -/
def handleUdpRead (s : UdpMem) (um : ℕ) (data : List Uchar) (src : InAddr) (sport : ℕ)
    (pfx : Addr) (now : Timeval) : UdpMem :=
  let map := (s.cell um).map
  let laddr := embed pfx src
  { s with sent6 := s.sent6 ++ [udpSend data laddr sport map.raddr map.rport] }.refresh um now

/-- `remove_udp_map`, which returns 0. -/
def removeUdpMap (s : UdpMem) (um : ℕ) : UdpMem :=
  let fd := (s.cell um).map.fd
  { s with
    ulist := if s.ulist = some um then s.links.next um else s.ulist
    links := s.links.unlink um
    ev := removeFdEvent s.ev (s.cell um).eFdRead
    opened := Function.update s.opened fd false
    allocated := s.allocated.erase um
    log := .closed fd :: s.log }

end UdpMem

/-- An event of a map. -/
def isUdp (e : Event) : Bool :=
  match e.data with
  | .udpMap _ => true
  | _ => false

/-- The rest of the daemon has changed the event lists and the descriptors, but no event and no
socket of a map. -/
def UdpMem.othersChanged (s : UdpMem) (ev : EventLists) (opened : ℤ → Bool) : Prop :=
  s.ev.next ≤ ev.next ∧ ev.Addressed ∧
    (∀ k, (ev.list k).filter isUdp = (s.ev.list k).filter isUdp) ∧
    ∀ x ∈ s.log, owner x.fd s.log ≠ none → opened x.fd = s.opened x.fd

instance (s : UdpMem) (ev : EventLists) (opened : ℤ → Bool) :
    Decidable (s.othersChanged ev opened) :=
  inferInstanceAs (Decidable (_ ∧ _ ∧ _ ∧ _))

/-- What happens to the maps: a packet is received over IPv6; `event_loop` finds data at a map's
socket, or runs its stale event, given the event's address; or the rest of the daemon is at
work. -/
inductive UdpMemInput
  | packet (r : Recv) (um : ℕ) (fd : ℤ) (now now' : Timeval)
  | readable (e : ℕ) (data : List Uchar) (src : InAddr) (sport : ℕ) (pfx : Addr) (now : Timeval)
  | stale (e : ℕ)
  | others (ev : EventLists) (opened : ℤ → Bool)

/-- The map of the registered event that has the address and the callback. -/
def eventMap (l : List Event) (e : ℕ) (f : Callback) : Option ℕ :=
  (l.find? fun x => x.addr = e ∧ x.func = f).bind fun x =>
    match x.data with
    | .udpMap um => some um
    | _ => none

/-- `ALLOC` and `socket` yield what is not in use. The stale event is unlinked by `event_loop`:
nothing schedules it again, so that its `remove` is still 1 after the callback. -/
def udpMemStep (s : UdpMem) : UdpMemInput → Option UdpMem
  | .packet r um fd now now' =>
      if um ∉ s.allocated ∧ s.opened fd = false then s.handleUdp r um fd now now' else none
  | .readable e data src sport pfx now =>
      (eventMap s.ev.fdEventList e .handleUdpRead).map fun um =>
        s.handleUdpRead um data src sport pfx now
  | .stale e =>
      (eventMap s.ev.timeEventList e .removeUdpMap).map fun um =>
        let s := s.removeUdpMap um
        { s with ev := removeTimeEvent s.ev e }
  | .others ev opened => if s.othersChanged ev opened then some { s with ev, opened } else none

/-- `ptrtd_udp_init` has been called. There are no maps yet, and no events of maps. -/
structure UdpMem.Start (s : UdpMem) : Prop where
  ulist : s.ulist = none
  listening : s.listening = true
  addressed : s.ev.Addressed
  events : ∀ k, ∀ e ∈ s.ev.list k, isUdp e = false
  sent4 : s.sent4 = []
  sent6 : s.sent6 = []
  log : s.log = []

end Ptrtd.Wire
