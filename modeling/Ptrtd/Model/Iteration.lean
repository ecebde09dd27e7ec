import Ptrtd.Model.EventLoop
import Ptrtd.Model.Session

/-! # A connection in the iterations of `event_loop`

An iteration waits in `select`, runs the first time event if it is due and the events of the
ready descriptors, and then goes through the always events. Time events and descriptors are
admitted in any order and number here, but the always events are run as the source does:
each one that was registered when the pass began is called once, in the order of the list.
(`add_always_event` puts a new one in front of it.) -/

namespace Ptrtd

/-- Where `event_loop` is: about to call `select`, before the always events, or going through
them, with those that are still to be called. -/
inductive LoopPhase
  | select
  | events
  | always (rest : List Event)
  deriving DecidableEq, Repr

/-- A connection, and where `event_loop` is. -/
structure LoopState where
  conn : Conn
  phase : LoopPhase

inductive LoopInput
  | selected
  | event (i : Input)
  | turn
  | visit (now : Timeval)
  | pass (ev : EventLists)
  | again
  deriving DecidableEq, Repr

/-- An always event is run. -/
def Input.isAlways : Input → Bool
  | .alwaysEvent _ _ => true
  | _ => false

/-- What happens to the connection when `event_loop` goes on. -/
def LoopState.input (l : LoopState) (i : LoopInput) : Option Input :=
  match l.phase, i with
  | .events, .event i => if i.isAlways then none else some i
  | .always (e :: _), .visit now => if l.conn.owns e then some (.alwaysEvent e.addr now) else none
  | .always (e :: _), .pass ev => if l.conn.owns e then none else some (.others ev)
  | _, _ => none

/-- One step of `event_loop`, from the point of view of a connection. -/
def loopStep (l : LoopState) (i : LoopInput) : Option LoopState :=
  match l.phase, i with
  | .select, .selected => some { l with phase := .events }
  | .events, .event _ => ((l.input i).bind (step l.conn)).map (⟨·, .events⟩)
  | .events, .turn => some { l with phase := .always l.conn.ev.alwaysEventList }
  | .always (_ :: rest), .visit _ => ((l.input i).bind (step l.conn)).map (⟨·, .always rest⟩)
  | .always (_ :: rest), .pass _ => ((l.input i).bind (step l.conn)).map (⟨·, .always rest⟩)
  | .always [], .again => some { l with phase := .select }
  | _, _ => none

/-- A side condition on the steps of the connection. -/
def OnConn (ok : Conn → Input → Prop) (l : LoopState) (i : LoopInput) : Prop :=
  ∀ j, l.input i = some j → ok l.conn j

instance (ok : Conn → Input → Prop) [∀ c i, Decidable (ok c i)] (l : LoopState) (i : LoopInput) :
    Decidable (OnConn ok l i) :=
  match h : l.input i with
  | none => isTrue fun j hj => by rw [h] at hj; cases hj
  | some j =>
      if hok : ok l.conn j then isTrue fun k hk => by rw [h] at hk; cases hk; exact hok
      else isFalse fun hall => hok (hall j h)

/-- The states reached under `event_loop` from a new connection by steps that satisfy `ok`. -/
def Looped (ok : Conn → Input → Prop) (l : LoopState) : Prop :=
  ∃ app c₀, Start app c₀ ∧ Transition.Run loopStep (OnConn ok) ⟨c₀, .events⟩ l

end Ptrtd
