import Mathlib.Logic.Function.Basic
import Ptrtd.Library.LinkedList
import Ptrtd.Model.EventMem
import Ptrtd.Model.Session

/-! # Maps and blocks in memory (`ptrtd-tcp.c`, `tcp.c`)

The doubly linked list of maps, the pointers between a map and its block, and the links of the
socket events, for any number of connections. Every function that follows one of these pointers
stands here a second time; the others, which change a block and its timers only, are those of
`Ptrtd.Model.Tcp` and `Ptrtd.Model.HandleTcp`. A block that is being worked on is a `Conn`, whose
`map` and `fdEventList` stay empty here. `ALLOC` may yield an address again that has been freed,
and the use of what has been freed yields `none`. -/

namespace Ptrtd

open LinkedList

/-- `struct tcp_map` without the links: what `TcpMap` has, and `tcb`. -/
structure MapCell where
  map : TcpMap
  tcb : ℕ

/-- The maps by address, those that are allocated, `tlist` with the links and `num_tcp_maps`; the
`app_data` of the blocks; and the socket events by address, with `fd_event_list` and the links. -/
structure RelayMem where
  cell : ℕ → MapCell
  links : Links ℕ
  allocated : List ℕ
  tlist : Option ℕ
  numTcpMaps : ℤ
  appData : ℕ → Option ℕ
  event : ℕ → Event
  eventLinks : Links ℕ
  fdEventList : Option ℕ

/-- An event has been allocated. -/
def Conn.newEvent (c : Conn) : Conn := { c with ev := { c.ev with next := c.ev.next + 1 } }

namespace RelayMem

/-! ## Events and maps -/

/-- `add_fd_event`, where `ALLOC` yields `e`. -/
def addFdEvent (m : RelayMem) (e : ℕ) (fd : ℤ) (write : Bool) (f : Callback) (d : DataRef) :
    RelayMem :=
  let links := (m.eventLinks.setNext e none).setPrev e none
  { m with
    event := Function.update m.event e ⟨e, f, d, .fd fd write⟩
    eventLinks := links.pushFront e m.fdEventList
    fdEventList := some e }

/-- `remove_event` on an event of type `EVENT_FD`, whether or not it is in the list. -/
def removeFdEvent (m : RelayMem) (e : ℕ) : RelayMem :=
  let links := m.eventLinks.unlink e
  { m with
    eventLinks := links
    fdEventList := if m.fdEventList = some e then links.next e else m.fdEventList }

/-- `if (e) remove_event (e);` -/
def removeFd? (m : RelayMem) (e : Option ℕ) : RelayMem := e.elim m m.removeFdEvent

/-- Assign the descriptor and the events of a map. -/
def setMap (m : RelayMem) (p : ℕ) (map : TcpMap) : RelayMem :=
  { m with cell := Function.update m.cell p { m.cell p with map } }

/-- `kill_map`; `c` is the block of the map, and may have been freed. -/
def killMap (m : RelayMem) (c : Conn) (p : ℕ) : Option (Conn × RelayMem) :=
  if p ∈ m.allocated then
    let map := (m.cell p).map
    let m := (m.removeFd? map.eFdWrite).removeFd? map.eFdRead
    let links := m.links.unlink p
    some
      ({ c with trace := { c.trace with closed := c.trace.closed || decide ((0 : ℤ) ≤ map.fd) } },
        { m with
          links
          tlist := if m.tlist = some p then links.next p else m.tlist
          numTcpMaps := m.numTcpMaps - 1
          allocated := m.allocated.erase p })
  else none

/-- `output_space` -/
def outputSpace (m : RelayMem) (c : Conn) (p : ℕ) (space : ℤ) : Option (Conn × RelayMem) :=
  if p ∈ m.allocated then
    let map := (m.cell p).map
    if space > 0 ∧ map.eFdRead.isNone then
      let e := c.ev.next
      let m := m.addFdEvent e map.fd false .handleFdCanRead (.tcpMap p)
      some (c.newEvent, m.setMap p { map with eFdRead := some e })
    else some (c, m)
  else none

/-- `can_read` -/
def canRead (m : RelayMem) (c : Conn) (p : ℕ) : Option (Conn × RelayMem) :=
  if p ∈ m.allocated then
    let map := (m.cell p).map
    if map.eFdWrite.isNone then
      let e := c.ev.next
      let m := m.addFdEvent e map.fd true .handleFdCanWrite (.tcpMap p)
      some (c.newEvent, m.setMap p { map with eFdWrite := some e })
    else some (c, m)
  else none

/-- A new map at `p` for the block at `t`, in front of `tlist`; `*d = map` and `map->fd = fd`. -/
def newMap (m : RelayMem) (t p : ℕ) (fd : ℤ) : RelayMem :=
  let links := (m.links.setNext p m.tlist).setPrev p none
  { m with
    cell := Function.update m.cell p ⟨⟨fd, none, none⟩, t⟩
    links := links.setPrev? m.tlist (some p)
    allocated := p :: m.allocated
    tlist := some p
    numTcpMaps := m.numTcpMaps + 1
    appData := Function.update m.appData t (some p) }

/-- `incoming`, where `ALLOC` yields `p`. -/
def incoming (m : RelayMem) (c : Conn) (p : ℕ) : ConnectResult → Option (Conn × RelayMem)
  | .noSocket => (m.newMap c.self p (-1)).killMap (tcpClose c false) p
  | .connected fd => some (tcpAccept c, m.newMap c.self p fd)
  | .inProgress fd =>
      let e := c.ev.next
      let m := (m.newMap c.self p fd).addFdEvent e fd true .handleFdDidConnect (.tcpMap p)
      some (c.newEvent, m.setMap p ⟨fd, none, some e⟩)
  | .failed fd => (m.newMap c.self p fd).killMap (tcpClose c false) p

/-! ## Calls through `t->cb` -/

/-- `t->cb->incoming_session (t, &t->app_data, t->fp)` -/
def cbIncomingSession (m : RelayMem) (c : Conn) (p : ℕ) (res : ConnectResult) :
    Option (Conn × RelayMem) :=
  match c.tcb.cb with
  | none => none
  | some .tcpMapCb => m.incoming c p res
  | some .otherCb => some (c, m)

/-- `t->cb->output_buffer_space (t->app_data, space)` -/
def cbOutputBufferSpace (m : RelayMem) (c : Conn) (space : ℤ) : Option (Conn × RelayMem) :=
  match c.tcb.cb with
  | none => none
  | some .tcpMapCb => (m.appData c.self).bind fun p => m.outputSpace c p space
  | some .otherCb => some (c, m)

/-- `t->cb->data_available (t->app_data, length)` -/
def cbDataAvailable (m : RelayMem) (c : Conn) : Option (Conn × RelayMem) :=
  match c.tcb.cb with
  | none => none
  | some .tcpMapCb => (m.appData c.self).bind fun p => m.canRead c p
  | some .otherCb => some (c, m)

/-- `if (t->cb) t->cb->closing (t->app_data, hard)` -/
def cbClosing (m : RelayMem) (c : Conn) : Option (Conn × RelayMem) :=
  match c.tcb.cb with
  | none => some (c, m)
  | some .tcpMapCb => (m.appData c.self).bind fun p => m.killMap c p
  | some .otherCb => some (c, m)

/-! ## Socket events -/

/-- `tcp_close (map->tcb, 0); kill_map (map);` -/
def closeBoth (m : RelayMem) (c : Conn) (p : ℕ) : Option (Conn × RelayMem) :=
  m.killMap (tcpClose c false) p

/-- `handle_fd_can_read` for the map at `p`; `c` is `map->tcb`. -/
def handleFdCanRead (m : RelayMem) (c : Conn) (p : ℕ) (r : ReadResult) :
    Option ((Conn × RelayMem) × Bool) :=
  let map := (m.cell p).map
  let len := tcpGetOutputSpace c.tcb
  -- the comparison with `sizeof (tb)` is unsigned
  let len := if len < 0 ∨ len > tbSize then (tbSize : ℤ) else len
  if len = 0 then some ((c, m), false)
  else
    match r with
    | .again => some ((c, m), true)
    | .eof | .error =>
        ((m.setMap p { map with eFdRead := none }).closeBoth c p).map fun x => (x, false)
    | .data d =>
        if 0 < d.length ∧ d.length ≤ len then
          (tcpSend c d).map fun c =>
            if tcpGetOutputSpace c.tcb = 0 then
              ((c, m.setMap p { map with eFdRead := none }), false)
            else ((c, m), true)
        else none

/-- `handle_fd_can_write` for the map at `p`; `c` is `map->tcb`. -/
def handleFdCanWrite (m : RelayMem) (c : Conn) (p : ℕ) (r : WriteResult) :
    Option ((Conn × RelayMem) × Bool) :=
  let map := (m.cell p).map
  (tcpRead c tbSize).bind fun (c, d) =>
    let m := if d.length < tbSize then m.setMap p { map with eFdWrite := none } else m
    let closeMap (c : Conn) :=
      ((m.setMap p { map with eFdWrite := none }).closeBoth c p).map fun x => (x, false)
    match r with
    | .again => some ((c, m), true)
    | .error => closeMap c
    | .wrote n =>
        if n ≤ d.length then
          let c := { c with trace := { c.trace with relayed := c.trace.relayed ++ d.take n } }
          if n = 0 then closeMap c else some ((c, m), (m.cell p).map.eFdWrite.isSome)
        else none

/-- `handle_fd_did_connect` for the map at `p`; `c` is `map->tcb`. -/
def handleFdDidConnect (m : RelayMem) (c : Conn) (p : ℕ) (ok : Bool) :
    Option ((Conn × RelayMem) × Bool) :=
  let m := m.setMap p { (m.cell p).map with eFdWrite := none }
  if ok then some ((tcpAccept c, m), false) else (m.closeBoth c p).map fun x => (x, false)

/-! ## Segments -/

/-- The branch of `handle_tcp` for RST. -/
def handleRst (m : RelayMem) (c : Conn) : Option (Conn × RelayMem) :=
  (m.cbClosing c).map fun (c, m) =>
    (tcbDelete { c with ev := removeTime? (removeAlways? c.ev c.tcb.eTcbSend) c.tcb.eTimeout }, m)

/-- The body of `if (ack > t->snd_una)`. -/
def handleNewAck (m : RelayMem) (c : Conn) (ack : Uint) (now : Timeval) :
    Option (Conn × RelayMem) :=
  let c := { c with tcb := ackUna c.tcb ack now }
  match c.tcb.state with
  | .established =>
      let c := { c with tcb := { c.tcb with outbuf := rbAdvance c.tcb.outbuf ack } }
      (m.cbOutputBufferSpace c (rbLeft c.tcb.outbuf)).map fun (c, m) => (ackTimer c ack now, m)
  | .finWait1 | .closing | .lastAck => some (ackTimer c ack now, m)
  | _ => some (c, m)

/-- The switch under `if (t->snd_una == t->snd_nxt)`. Only the callback needs the memory. -/
def handleAllAcked (m : RelayMem) (c : Conn) (now : Timeval) : Option (Flow × RelayMem) :=
  match c.tcb.state with
  | .synRecvd =>
      let c := { c with tcb := { c.tcb with state := .established } }
      (m.cbOutputBufferSpace c (rbLeft c.tcb.outbuf)).map fun (c, m) => (.next c, m)
  | _ => (Ptrtd.handleAllAcked c now).map fun f => (f, m)

/-- The block for ACK. -/
def handleAck (m : RelayMem) (c : Conn) (s : Segment) (now : Timeval) :
    Option (Flow × RelayMem) :=
  if s.isAck then
    (if s.ack > c.tcb.sndUna then m.handleNewAck c s.ack now else some (c, m)).bind fun (c, m) =>
      if c.tcb.sndUna = c.tcb.sndNxt then m.handleAllAcked c now else some (.next c, m)
  else some (.next c, m)

/-- The block of `tcp_recv_data` for data. -/
def recvPayload (m : RelayMem) (c : Conn) (s : Segment) : Option (Conn × RelayMem) :=
  if s.data.length > 0 then
    let c := markForIfWrite
      { c with tcb := { c.tcb with rcvNxt := c.tcb.rcvNxt + BitVec.ofNat 32 s.data.length } }
    if c.tcb.cb.isSome then
      (rbWrite c.tcb.inbuf s.data).bind fun (r, n) =>
        m.cbDataAvailable
          { c with
            tcb := { c.tcb with inbuf := r, rcvWnd := BitVec.ofInt 32 (rbLeft r) }
            trace := { c.trace with stored := c.trace.stored ++ s.data.take n } }
    else some (c, m)
  else some (c, m)

/-- `tcp_recv_data` -/
def tcpRecvData (m : RelayMem) (c : Conn) (s : Segment) : Option ((Conn × RelayMem) × Bool) :=
  (m.recvPayload c s).map fun (c, m) => ((recvFin c s, m), s.isFin)

/-- `tcp_remote_close` -/
def tcpRemoteClose (m : RelayMem) (c : Conn) : Option (Conn × RelayMem) :=
  (m.cbClosing c).map fun (c, m) => (tcpClose c false, m)

/-- The final switch of `handle_tcp`. -/
def handleData (m : RelayMem) (c : Conn) (s : Segment) (now : Timeval) :
    Option (Conn × RelayMem) :=
  match c.tcb.state with
  | .finWait2 =>
      (m.tcpRecvData c s).map fun ((c, m), fin) => (if fin then enterTimeWait c now else c, m)
  | .finWait1 =>
      (m.tcpRecvData c s).map fun ((c, m), fin) =>
        (if fin then { c with tcb := { c.tcb with state := .closing } } else c, m)
  | .established =>
      (m.tcpRecvData c s).bind fun ((c, m), fin) =>
        if fin then m.tcpRemoteClose { c with tcb := { c.tcb with state := .closeWait } }
        else some (c, m)
  | _ => some (c, m)

/-- `handle_tcp` for the block `c`, which is not listening. -/
def handleTcp (m : RelayMem) (c : Conn) (s : Segment) (now : Timeval) :
    Option (Conn × RelayMem) :=
  if s.isRst then m.handleRst c
  else
    (m.handleAck c s now).bind fun
      | (.done c, m) => some (c, m)
      | (.next c, m) =>
          if s.seq < c.tcb.rcvNxt then some (handleOld c, m)
          else m.handleData (handleWindow c s) s now

/-- `handle_tcp` on the listener, where `ALLOC` yields `t` for the block and `p` for the map. The
new block is zeroed. -/
def handleSyn (m : RelayMem) (t : ℕ) (app : TcpCallback) (isn : Uint) (ev : EventLists)
    (syn : Segment) (p : ℕ) (res : ConnectResult) : Option (Conn × RelayMem) :=
  if syn.flags = 0x2 then
    cbIncomingSession { m with appData := Function.update m.appData t none }
      { self := t, tcb := newTcb app isn syn, live := true, map := none, ev
        trace := Trace.start syn } p res
  else none

/-- The events from `e` on in the order in which `event_loop` comes to them, `fuel` at most. -/
def walk (m : RelayMem) : ℕ → Option ℕ → List ℕ
  | _, none => []
  | 0, some _ => []
  | fuel + 1, some e => e :: m.walk fuel (m.eventLinks.next e)

end RelayMem

/-! ## All connections -/

/-- `struct tcb` with its trace. -/
structure Block where
  tcb : Tcb
  trace : Trace

/-- The blocks that are allocated and not listening, by address; the maps and socket events; the
time and the always events; and the number of connections made before. -/
structure Relay where
  block : ℕ → Option Block
  mem : RelayMem
  ev : EventLists
  isn : Uint

/-- What happens to the relay: a segment for a block, a SYN on the listener, an event that
`event_loop` runs, or what the rest of the daemon does to the event lists. `tcb_find` is left out:
a segment may be for any block. -/
inductive RelayInput
  | packet (t : ℕ) (s : Segment) (now : Timeval)
  | syn (t p : ℕ) (syn : Segment) (res : ConnectResult)
  | timeEvent (e : ℕ)
  | fdEvent (e : ℕ) (io : Io)
  | alwaysEvent (e : ℕ) (now : Timeval)
  | addFd (fd : ℤ) (write : Bool) (f : Callback) (d : DataRef)
  | removeFd (e : ℕ)
  | others (ev : EventLists)
  deriving DecidableEq

/-- The event is none of a block or a map of the relay. -/
def foreign : DataRef → Bool
  | .tcb _ | .tcpMap _ => false
  | .udpMap _ | .iface => true

namespace Relay

/-- The block at `t`, unless it has been freed. -/
def load (s : Relay) (t : ℕ) : Option Conn :=
  (s.block t).map fun b =>
    { self := t, tcb := b.tcb, live := true, map := none, ev := s.ev, trace := b.trace }

/-- What a function has made of a block and of the memory. -/
def store (s : Relay) (x : Conn × RelayMem) : Relay :=
  { s with
    block := Function.update s.block x.1.self
      (if x.1.live then some ⟨x.1.tcb, x.1.trace⟩ else none)
    mem := x.2
    ev := x.1.ev }

/-- `fd_event_list`. The events allocated so far bound the turns of a loop over it. -/
def fdEvents (s : Relay) : List ℕ := s.mem.walk s.ev.next s.mem.fdEventList

/-- `event_loop` runs the socket event `e` of the map at `p`, and unlinks it when the callback
returns 0. -/
def runFdEvent (s : Relay) (e p : ℕ) (io : Io) : Option Relay :=
  if p ∈ s.mem.allocated then
    (s.load (s.mem.cell p).tcb).bind fun c =>
      let finish (r : (Conn × RelayMem) × Bool) : Relay :=
        s.store (if r.2 then r.1 else (r.1.1, r.1.2.removeFdEvent e))
      match (s.mem.event e).func, io with
      | .handleFdCanRead, .read r => (s.mem.handleFdCanRead c p r).map finish
      | .handleFdCanWrite, .write r => (s.mem.handleFdCanWrite c p r).map finish
      | .handleFdDidConnect, .connect ok => (s.mem.handleFdDidConnect c p ok).map finish
      | _, _ => none
  else none

/-- The block that an event of a list points to. -/
def blockOfEvent (l : List Event) (e : ℕ) : Option ℕ :=
  (l.find? fun x => x.addr = e).bind fun x =>
    match x.data with
    | .tcb t => some t
    | _ => none

/-- The map that a socket event points to. -/
def mapOfEvent (s : Relay) (e : ℕ) : Option ℕ :=
  if e ∈ s.fdEvents then
    match (s.mem.event e).data with
    | .tcpMap p => some p
    | _ => none
  else none

/-- The events of blocks and maps are the same, and what others have is as it was or new: an event
may be at another place, and its time another. -/
def OthersOnly (n : ℕ) (l l' : List Event) : Prop :=
  (l'.filter fun e => !foreign e.data) = (l.filter fun e => !foreign e.data) ∧
    ∀ e ∈ l', foreign e.data = true → e.addr < n → ∃ x ∈ l, x.addr = e.addr ∧ x.data = e.data

instance (n : ℕ) (l l' : List Event) : Decidable (OthersOnly n l l') :=
  inferInstanceAs (Decidable (_ ∧ _))

/-- The rest of the daemon has changed its own time and always events. -/
def OthersChanged (s : Relay) (ev : EventLists) : Prop :=
  s.ev.next ≤ ev.next ∧ ev.Addressed ∧ ev.fdEventList = s.ev.fdEventList ∧
    OthersOnly s.ev.next s.ev.timeEventList ev.timeEventList ∧
    OthersOnly s.ev.next s.ev.alwaysEventList ev.alwaysEventList

instance (s : Relay) (ev : EventLists) : Decidable (s.OthersChanged ev) :=
  inferInstanceAs (Decidable (_ ∧ _ ∧ _ ∧ _ ∧ _))

end Relay

/-- One step. `ALLOC` yields what is not allocated. -/
def relayStep (s : Relay) : RelayInput → Option Relay
  | .packet t seg now =>
      (s.load t).bind fun c => (s.mem.handleTcp (c.receive seg) seg now).map s.store
  | .syn t p syn res =>
      if s.block t = none ∧ p ∉ s.mem.allocated then
        (s.mem.handleSyn t .tcpMapCb s.isn s.ev syn p res).map fun x =>
          { s.store x with isn := s.isn + 1 }
      else none
  | .timeEvent e =>
      (Relay.blockOfEvent s.ev.timeEventList e).bind fun t =>
        (s.load t).bind fun c => (runTimeEvent c e).map fun c => s.store (c, s.mem)
  | .fdEvent e io => (s.mapOfEvent e).bind fun p => s.runFdEvent e p io
  | .alwaysEvent e now =>
      (Relay.blockOfEvent s.ev.alwaysEventList e).bind fun t =>
        (s.load t).bind fun c => (runAlwaysEvent c e now).map fun c => s.store (c, s.mem)
  | .addFd fd write f d =>
      if foreign d then
        some
          { s with
            mem := s.mem.addFdEvent s.ev.next fd write f d
            ev := { s.ev with next := s.ev.next + 1 } }
      else none
  | .removeFd e =>
      if e ∈ s.fdEvents ∧ foreign (s.mem.event e).data then
        some { s with mem := s.mem.removeFdEvent e }
      else none
  | .others ev => if s.OthersChanged ev then some { s with ev } else none

/-- `ptrtd_tcp_init` has been called. There are no connections, and no events of connections. -/
structure Relay.Start (s : Relay) : Prop where
  block : ∀ t, s.block t = none
  allocated : s.mem.allocated = []
  tlist : s.mem.tlist = none
  numTcpMaps : s.mem.numTcpMaps = 0
  fdEventList : s.mem.fdEventList = none
  addressed : s.ev.Addressed
  fd : s.ev.fdEventList = []
  time : ∀ e ∈ s.ev.timeEventList, foreign e.data = true
  always : ∀ e ∈ s.ev.alwaysEventList, foreign e.data = true
  isn : s.isn = 0

end Ptrtd
