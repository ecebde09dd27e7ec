import Ptrtd.Model.EventLoop
import Ptrtd.Model.System

/-! # The iterations of `event_loop`

An iteration waits in `select` and runs the first time event if it is due; if descriptors are ready
instead, it goes through their events. In the end it goes through the always events. `e->next` is
read after the callback of `e`, so that what is left of a pass is what was behind the event and is
still registered; new events are put in front. (A callback leaves it to `event_loop` to unlink its
own event.) The HTTP port and SIGINT are left out. -/

namespace Ptrtd.Wire

/-- Where `event_loop` is, with the events that a pass has still to visit. -/
inductive SystemPhase
  | select
  | fds (rfds wfds : ℤ → Bool) (rest : List Event)
  | always (rest : List Event)

/-- The daemon, and where `event_loop` is. -/
structure SystemLoop where
  sys : System
  phase : SystemPhase

/-- The clock and what `select` returns, with the sets that it fills in; what the system reports
to the callback of a descriptor; the clock of an always event; or that there is no callback to be
called. -/
inductive SystemLoopInput
  | wait (now : Timeval) (sel : ℤ) (rfds wfds : ℤ → Bool)
  | run (io : SystemIo)
  | visit (now : Timeval)
  | next

/-- Of the events that were behind the one that has been run, those that are still registered. -/
def System.still (s : System) (k : ListKind) (rest : List Event) : List Event :=
  (s.udp.ev.list k).filter fun e => e.addr ∈ rest.map Event.addr

namespace SystemLoop

/-- The pass over the always events begins. -/
def enterAlways (s : System) : SystemLoop := ⟨s, .always s.udp.ev.alwaysEventList⟩

/-- The event that is run. -/
def input (l : SystemLoop) (i : SystemLoopInput) : Option SystemInput :=
  match l.phase, i with
  | .select, .wait now sel _ _ =>
      (loopTimeEvent l.sys.udp.ev now sel).map fun e => .time e.addr
  | .fds rfds wfds (e :: _), .run io =>
      if (LoopPass.fd rfds wfds).ready e then some (.fd e.addr io) else none
  | .always (e :: _), .visit now => some (.always e.addr now)
  | _, _ => none

/-- `event_loop` goes on. -/
def step (rb : Table.Rebalance) (iface : Iface) (l : SystemLoop) (i : SystemLoopInput) :
    Option SystemLoop :=
  match l.phase, i with
  | .select, .wait now sel rfds wfds =>
      match loopTimeEvent l.sys.udp.ev now sel with
      | some e => (l.sys.step rb iface (.time e.addr)).map enterAlways
      | none =>
          if 0 < loopRet l.sys.udp.ev now sel then
            some ⟨l.sys, .fds rfds wfds l.sys.udp.ev.fdEventList⟩
          else some (enterAlways l.sys)
  | .fds rfds wfds (e :: rest), .run io =>
      if (LoopPass.fd rfds wfds).ready e then
        (l.sys.step rb iface (.fd e.addr io)).map fun s => ⟨s, .fds rfds wfds (s.still .fd rest)⟩
      else none
  | .fds rfds wfds (e :: rest), .next =>
      if (LoopPass.fd rfds wfds).ready e then none else some ⟨l.sys, .fds rfds wfds rest⟩
  | .fds _ _ [], .next => some (enterAlways l.sys)
  | .always (e :: rest), .visit now =>
      (l.sys.step rb iface (.always e.addr now)).map fun s => ⟨s, .always (s.still .always rest)⟩
  | .always [], .next => some ⟨l.sys, .select⟩
  | _, _ => none

/-- A side condition on the events that are run. -/
def OnSystem (ok : System → SystemInput → Prop) (l : SystemLoop) (i : SystemLoopInput) : Prop :=
  ∀ j, l.input i = some j → ok l.sys j

/-- What is reached under `event_loop` by events that satisfy `ok`. -/
def Reached (rb : Table.Rebalance) (iface : Iface) (ok : System → SystemInput → Prop)
    (l : SystemLoop) : Prop :=
  ∃ s₀, s₀.Start rb ∧ Transition.Run (step rb iface) (OnSystem ok) ⟨s₀, .select⟩ l

end SystemLoop

end Ptrtd.Wire
