import Ptrtd.Model.Tcp

/-! # The relay's map and its callbacks (`ptrtd-tcp.c`)

The functions that `handle_tcp` calls through `t->cb`. A callback of another application
has no effect here: its calls arrive as inputs of their own. Calling through a `NULL`
table or through a map that has been freed is undefined and yields `none`. -/

namespace Ptrtd

def killMap (c : Conn) : Option Conn :=
  c.map.map fun m =>
    { c with
      map := none
      ev := removeFd? (removeFd? c.ev m.eFdWrite) m.eFdRead
      trace := { c.trace with closed := c.trace.closed || decide ((0 : ℤ) ≤ m.fd) } }

def outputSpace (c : Conn) (space : ℤ) : Option Conn :=
  c.map.map fun m =>
    if space > 0 ∧ m.eFdRead.isNone then
      { c with
        ev := addFdEvent c.ev m.fd false .handleFdCanRead (.tcpMap c.self)
        map := some { m with eFdRead := some c.ev.next } }
    else c

def canRead (c : Conn) : Option Conn :=
  c.map.map fun m =>
    if m.eFdWrite.isNone then
      { c with
        ev := addFdEvent c.ev m.fd true .handleFdCanWrite (.tcpMap c.self)
        map := some { m with eFdWrite := some c.ev.next } }
    else c

/-- What the system does with `socket` and `connect`; a descriptor is given when there is one. -/
inductive ConnectResult
  | noSocket
  | connected (fd : ℕ)
  | inProgress (fd : ℕ)
  | failed (fd : ℕ)
  deriving DecidableEq, Repr

/-- `incoming`: open the IPv4 side of a new connection. -/
def incoming (c : Conn) : ConnectResult → Option Conn
  | .noSocket => killMap (tcpClose { c with map := some ⟨-1, none, none⟩ } false)
  | .connected fd => some (tcpAccept { c with map := some ⟨fd, none, none⟩ })
  | .inProgress fd =>
      some { c with
        ev := addFdEvent c.ev fd true .handleFdDidConnect (.tcpMap c.self)
        map := some ⟨fd, none, some c.ev.next⟩ }
  | .failed fd => killMap (tcpClose { c with map := some ⟨fd, none, none⟩ } false)

/-- `t->cb->incoming_session (t, &t->app_data, t->fp)` -/
def cbIncomingSession (c : Conn) (res : ConnectResult) : Option Conn :=
  match c.tcb.cb with
  | none => none
  | some .tcpMapCb => incoming c res
  | some .otherCb => some c

/-- `t->cb->output_buffer_space (t->app_data, space)` -/
def cbOutputBufferSpace (c : Conn) (space : ℤ) : Option Conn :=
  match c.tcb.cb with
  | none => none
  | some .tcpMapCb => outputSpace c space
  | some .otherCb => some c

/-- `t->cb->data_available (t->app_data, length)`; the relay ignores the length. -/
def cbDataAvailable (c : Conn) : Option Conn :=
  match c.tcb.cb with
  | none => none
  | some .tcpMapCb => canRead c
  | some .otherCb => some c

/-- `if (t->cb) t->cb->closing (t->app_data, hard)`; the relay treats both kinds alike. -/
def cbClosing (c : Conn) : Option Conn :=
  match c.tcb.cb with
  | none => some c
  | some .tcpMapCb => killMap c
  | some .otherCb => some c

/-! ## Socket events -/

/-- What `read` returns on the IPv4 socket. -/
inductive ReadResult
  | data (d : List Uchar)
  | eof
  | again
  | error
  deriving DecidableEq, Repr

/-- What `write` returns on the IPv4 socket: the count it accepted, or why it failed. -/
inductive WriteResult
  | wrote (n : ℕ)
  | again
  | error
  deriving DecidableEq, Repr

/-- The size of the transfer buffer `tb`. -/
def tbSize : ℕ := 65536

/-- Close both sides of a connection from the relay. -/
def closeBoth (c : Conn) : Option Conn := killMap (tcpClose c false)

/-- `handle_fd_can_read`; the second component is the callback's value. -/
def handleFdCanRead (c : Conn) (r : ReadResult) : Option (Conn × Bool) :=
  c.map.bind fun m =>
    let len := tcpGetOutputSpace c.tcb
    -- the comparison with `sizeof (tb)` is unsigned
    let len := if len < 0 ∨ len > tbSize then (tbSize : ℤ) else len
    if len = 0 then some (c, false)
    else
      match r with
      | .again => some (c, true)
      | .eof | .error =>
          (closeBoth { c with map := some { m with eFdRead := none } }).map fun c => (c, false)
      | .data d =>
          if 0 < d.length ∧ d.length ≤ len then
            (tcpSend c d).bind fun c =>
              if tcpGetOutputSpace c.tcb = 0 then
                some ({ c with map := some { m with eFdRead := none } }, false)
              else some (c, true)
          else none

/-- `handle_fd_can_write`; the second component is the callback's value. -/
def handleFdCanWrite (c : Conn) (r : WriteResult) : Option (Conn × Bool) :=
  c.map.bind fun m =>
    (tcpRead c tbSize).bind fun (c, d) =>
      let c := if d.length < tbSize then { c with map := some { m with eFdWrite := none } } else c
      let closeMap (c : Conn) := c.map.bind fun m =>
        (closeBoth { c with map := some { m with eFdWrite := none } }).map fun c => (c, false)
      match r with
      | .again => some (c, true)
      | .error => closeMap c
      | .wrote n =>
          if n ≤ d.length then
            let c := { c with trace := { c.trace with relayed := c.trace.relayed ++ d.take n } }
            if n = 0 then closeMap c
            else some (c, c.map.any fun m => m.eFdWrite.isSome)
          else none

/-- `handle_fd_did_connect`, given whether `SO_ERROR` reports success. -/
def handleFdDidConnect (c : Conn) (ok : Bool) : Option (Conn × Bool) :=
  c.map.bind fun m =>
    let c := { c with map := some { m with eFdWrite := none } }
    if ok then some (tcpAccept c, false) else (closeBoth c).map fun c => (c, false)

end Ptrtd
