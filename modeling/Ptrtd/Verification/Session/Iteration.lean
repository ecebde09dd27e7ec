import Ptrtd.Model.Iteration
import Ptrtd.Verification.Session.Events

/-! # Runs under `event_loop`

A run under `event_loop` is a run of the connection, in an order that the loop allows. What is
special about the order is kept by an invariant on the phase. -/

namespace Ptrtd

variable {ok : Conn → Input → Prop} {l l' : LoopState} {i : LoopInput}

/-- The steps of `event_loop`. -/
inductive Iterated (ok : Conn → Input → Prop) (l : LoopState) : LoopState → Prop where
  | selected : l.phase = .select → Iterated ok l ⟨l.conn, .events⟩
  | event {j : Input} {c : Conn} : l.phase = .events → ok l.conn j → step l.conn j = some c →
      Iterated ok l ⟨c, .events⟩
  | turn : l.phase = .events → Iterated ok l ⟨l.conn, .always l.conn.ev.alwaysEventList⟩
  | visit {e : Event} {rest : List Event} {now : Timeval} {c : Conn} :
      l.phase = .always (e :: rest) → l.conn.owns e = true →
      ok l.conn (.alwaysEvent e.addr now) → step l.conn (.alwaysEvent e.addr now) = some c →
      Iterated ok l ⟨c, .always rest⟩
  | pass {e : Event} {rest : List Event} {ev : EventLists} {c : Conn} :
      l.phase = .always (e :: rest) → l.conn.owns e = false → ok l.conn (.others ev) →
      step l.conn (.others ev) = some c → Iterated ok l ⟨c, .always rest⟩
  | again : l.phase = .always [] → Iterated ok l ⟨l.conn, .select⟩

/-- The part of a step that concerns the connection. -/
theorem input_step {p : LoopPhase} (h : ((l.input i).bind (step l.conn)).map (⟨·, p⟩) = some l') :
    ∃ j c, l.input i = some j ∧ step l.conn j = some c ∧ l' = ⟨c, p⟩ := by
  obtain ⟨c, hc, rfl⟩ := Option.map_eq_some_iff.mp h
  obtain ⟨j, hj, hc⟩ := Option.bind_eq_some_iff.mp hc
  exact ⟨j, c, hj, hc, rfl⟩

theorem loopStep_cases (hok : OnConn ok l i) (h : loopStep l i = some l') : Iterated ok l l' := by
  obtain ⟨c, phase⟩ := l
  rw [loopStep.eq_def] at h
  split at h
  · next hp =>
      cases h
      exact .selected hp
  · next j hp =>
      obtain ⟨k, c', hj, hstep, rfl⟩ := input_step h
      exact .event hp (hok k hj) hstep
  · next hp =>
      cases h
      exact .turn hp
  · next e rest now hp =>
      obtain ⟨k, c', hj, hstep, rfl⟩ := input_step h
      have hk := hok k hj
      obtain rfl : phase = .always (e :: rest) := hp
      simp only [LoopState.input] at hj
      split at hj
      · next hown =>
          cases hj
          exact .visit rfl hown hk hstep
      · cases hj
  · next e rest ev hp =>
      obtain ⟨k, c', hj, hstep, rfl⟩ := input_step h
      have hk := hok k hj
      obtain rfl : phase = .always (e :: rest) := hp
      simp only [LoopState.input] at hj
      split at hj
      · cases hj
      · next hown =>
          cases hj
          exact .pass rfl (Bool.eq_false_iff.mpr hown) hk hstep
  · next hp =>
      cases h
      exact .again hp
  · cases h

/-- A run under `event_loop` is a run of the connection. -/
theorem Looped.reached (h : Looped ok l) : Reached ok l.conn := by
  obtain ⟨app, c₀, hstart, hrun⟩ := h
  induction hrun with
  | refl => exact ⟨app, c₀, hstart, .refl⟩
  | tail _ hok hstep ih =>
      cases loopStep_cases hok hstep with
      | selected | turn | again => exact ih
      | event _ hj hc => exact ih.tail hj hc
      | visit _ _ hj hc => exact ih.tail hj hc
      | pass _ _ hj hc => exact ih.tail hj hc

/-- A property of new connections that every allowed step of `event_loop` keeps holds
throughout. -/
theorem Looped.invariant {inv : LoopState → Prop} (h : Looped ok l)
    (hstart : ∀ app c, Start app c → inv ⟨c, .events⟩)
    (hstep : ∀ l l', Looped ok l → inv l → Iterated ok l l' → inv l') : inv l := by
  obtain ⟨app, c₀, hs, hrun⟩ := h
  induction hrun with
  | refl => exact hstart app c₀ hs
  | tail hrun hok hnext ih => exact hstep _ _ ⟨app, c₀, hs, hrun⟩ ih (loopStep_cases hok hnext)

theorem Looped.tail (h : Looped ok l) (hok : OnConn ok l i) (hstep : loopStep l i = some l') :
    Looped ok l' := by
  obtain ⟨app, c₀, hstart, hrun⟩ := h
  exact ⟨app, c₀, hstart, hrun.tail hok hstep⟩

theorem Looped.mono {ok' : Conn → Input → Prop} (h : Looped ok l)
    (himp : ∀ c i, ok c i → ok' c i) : Looped ok' l := by
  obtain ⟨app, c₀, hstart, hrun⟩ := h
  exact ⟨app, c₀, hstart, hrun.mono fun _ _ hok j hj => himp _ _ (hok j hj)⟩

variable {c c' : Conn} {j : Input} {e : Event} {rest : List Event} {now : Timeval}

theorem Looped.of_start {app : TcpCallback} (h : Start app c) : Looped ok ⟨c, .events⟩ :=
  ⟨app, c, h, .refl⟩

theorem Looped.selected (h : Looped ok ⟨c, .select⟩) : Looped ok ⟨c, .events⟩ :=
  h.tail (i := .selected) nofun rfl

/-- A time event or a descriptor's event. -/
theorem Looped.event (h : Looped ok ⟨c, .events⟩) (hj : j.isAlways = false) (hok : ok c j)
    (hstep : step c j = some c') : Looped ok ⟨c', .events⟩ := by
  have hin : (⟨c, .events⟩ : LoopState).input (.event j) = some j := by simp [LoopState.input, hj]
  apply h.tail (i := .event j)
  · intro k hk
    rw [hin] at hk
    cases hk
    exact hok
  · simp only [loopStep, hin, Option.bind_some, hstep, Option.map_some]

/-- The pass over the always events begins. -/
theorem Looped.turn (h : Looped ok ⟨c, .events⟩) : Looped ok ⟨c, .always c.ev.alwaysEventList⟩ :=
  h.tail (i := .turn) nofun rfl

/-- The connection's own always event. -/
theorem Looped.visit (h : Looped ok ⟨c, .always (e :: rest)⟩) (hown : c.owns e = true)
    (hok : ok c (.alwaysEvent e.addr now)) (hstep : step c (.alwaysEvent e.addr now) = some c') :
    Looped ok ⟨c', .always rest⟩ := by
  have hin : (⟨c, .always (e :: rest)⟩ : LoopState).input (.visit now) =
      some (.alwaysEvent e.addr now) := by simp [LoopState.input, hown]
  apply h.tail (i := .visit now)
  · intro k hk
    rw [hin] at hk
    cases hk
    exact hok
  · simp only [loopStep, hin, Option.bind_some, hstep, Option.map_some]

/-- The always event of another connection. -/
theorem Looped.pass {ev : EventLists} (h : Looped ok ⟨c, .always (e :: rest)⟩)
    (hown : c.owns e = false) (hok : ok c (.others ev)) (hstep : step c (.others ev) = some c') :
    Looped ok ⟨c', .always rest⟩ := by
  have hin : (⟨c, .always (e :: rest)⟩ : LoopState).input (.pass ev) = some (.others ev) := by
    simp [LoopState.input, hown]
  apply h.tail (i := .pass ev)
  · intro k hk
    rw [hin] at hk
    cases hk
    exact hok
  · simp only [loopStep, hin, Option.bind_some, hstep, Option.map_some]

theorem Looped.again (h : Looped ok ⟨c, .always []⟩) : Looped ok ⟨c, .select⟩ :=
  h.tail (i := .again) nofun rfl

/-- The pass over the always events when there is only the connection's own. -/
theorem Looped.written (h : Looped ok ⟨c, .events⟩) (hlist : c.ev.alwaysEventList = [e])
    (hown : c.owns e = true) (hok : ok c (.alwaysEvent e.addr now))
    (hstep : step c (.alwaysEvent e.addr now) = some c') : Looped ok ⟨c', .select⟩ := by
  have hturn := h.turn
  rw [hlist] at hturn
  exact (hturn.visit hown hok hstep).again

/-! ## Executions -/

/-- Execute steps of `event_loop` on a connection made by `syn` in a daemon without pending
events. -/
def loopExec (ok : Conn → Input → Prop) [∀ c i, Decidable (ok c i)] (app : TcpCallback)
    (isn : Uint) (syn : Segment) (res : ConnectResult) (is : List LoopInput) : Option LoopState :=
  (handleSyn 0 app isn ⟨[], [], [], 0⟩ syn res).bind fun c =>
    Transition.exec loopStep (OnConn ok) ⟨c, .events⟩ is

/-- What is computed about an execution holds of some state reached. -/
theorem looped_of_exec [∀ c i, Decidable (ok c i)] {app : TcpCallback} {isn : Uint}
    {syn : Segment} {res : ConnectResult} {is : List LoopInput} {p : LoopState → Bool}
    (h : (loopExec ok app isn syn res is).any p = true) : ∃ l, Looped ok l ∧ p l = true := by
  obtain ⟨l, hl, hp⟩ := (Option.any_eq_true p _).mp h
  obtain ⟨c₀, hstart, hrun⟩ := Option.bind_eq_some_iff.mp hl
  exact ⟨l, ⟨app, c₀, ⟨0, isn, _, syn, res, freshAddr_empty 0 0, hstart⟩,
    Transition.run_of_exec hrun⟩, hp⟩

end Ptrtd
