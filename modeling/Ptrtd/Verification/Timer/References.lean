import Ptrtd.Verification.Timer.Bookkeeping

/-! # Which events refer to a block

The always event and the timer of a block are those that it points to, no socket event refers
to it, and whoever deletes it takes its events along. -/

namespace Ptrtd

open Registry

variable {a c c' : Conn} {i : Input} {s : Segment} {now : Timeval}

/-! ## Deletion -/

/-- A block that has been deleted has no timers. -/
def Cleared (c : Conn) : Prop := c.live = false → c.timers = []

/-- `e_timeout` points to the timers of the block. -/
def Pointed (c : Conn) : Prop := Points Event.addr c.owns c.ev.timeEventList c.tcb.eTimeout

namespace Cleared

theorem of_live (h : c.live = true) : Cleared c := fun hdead => by
  rw [h] at hdead
  cases hdead

theorem of_eq (h : Cleared c) (hself : c'.self = c.self) (hlive : c'.live = c.live)
    (htime : c'.ev.timeEventList = c.ev.timeEventList) : Cleared c' := fun hdead =>
  (timers_eq hself htime).trans (h (hlive ▸ hdead))

/-- Whoever deletes the block removes its timer first. -/
theorem deleted (h : Pointed c) (hself : c'.self = c.self)
    (htime : c'.ev.timeEventList =
      (removeTime? (removeAlways? c.ev c.tcb.eTcbSend) c.tcb.eTimeout).timeEventList) :
    Cleared c' := by
  intro _
  have halways : (removeAlways? c.ev c.tcb.eTcbSend).timeEventList = c.ev.timeEventList := by
    cases c.tcb.eTcbSend <;> rfl
  have hlist : (removeTime? (removeAlways? c.ev c.tcb.eTcbSend) c.tcb.eTimeout).timeEventList =
      c.ev.timeEventList.filter fun e => some e.addr ≠ c.tcb.eTimeout := by
    cases c.tcb.eTimeout with
    | none => simp [removeTime?, halways]
    | some e => simp [removeTime?, removeTimeEvent, delEvent, halways]
  rw [Conn.timers, owns_congr hself, htime, hlist]
  exact points_none.mp (Points.clear h)

theorem pointed_of_eq (h : Pointed c) (hself : c'.self = c.self)
    (htime : c'.ev.timeEventList = c.ev.timeEventList) (he : c'.tcb.eTimeout = c.tcb.eTimeout) :
    Pointed c' := by
  rw [Pointed, owns_congr hself, htime, he]
  exact h

theorem tcpClose (h : Pointed c) (hlive : c.live = true) (hard : Bool) :
    Cleared (tcpClose c hard) := by
  rw [Ptrtd.tcpClose]
  split
  · exact deleted h rfl rfl
  · obtain ⟨_, _, _, -, heq⟩ := markForIfWrite_eq
      { c with
        tcb := { c.tcb with
          cb := none, rcvWnd := 1000
          state := if c.tcb.state = .established then .finWait1 else .lastAck } }
    rw [heq]
    exact of_live hlive

theorem closeBoth (h : Pointed c) (hlive : c.live = true) (hclose : closeBoth c = some c') :
    Cleared c' := by
  obtain ⟨-, l, b, rfl⟩ := killMap_eq hclose
  exact (tcpClose h hlive false).of_eq rfl rfl rfl

theorem handleAllAcked (h : Pointed c) (hlive : c.live = true)
    (hf : handleAllAcked c now = some (.done c')) : Cleared c' := by
  rw [Ptrtd.handleAllAcked] at hf
  split at hf
  · obtain ⟨x, -, hx⟩ := Option.map_eq_some_iff.mp hf
    cases hx
  · cases hf
    exact deleted h rfl rfl
  · split at hf <;> cases hf
  · split at hf
    · cases hf
      exact of_live hlive
    · cases hf
      exact of_live hlive
  · cases hf

theorem handleTcp (h : Rested c) (htimer : TimerOk False c) (hqueue : Queued c)
    (hlive : c.live = true) (htcp : handleTcp c s now = some c') : Cleared c' := by
  rcases handleTcp_cases htcp with ⟨-, hrst⟩ | ⟨-, hdone⟩ | ⟨-, x, hnext, hrest⟩
  · obtain ⟨x, hx, rfl⟩ := Option.map_eq_some_iff.mp hrst
    have hp : Pointed c := (h.points htimer hlive).1
    have hpx : Pointed x := by
      rcases cbClosing_cases hx with ⟨rfl, -⟩ | ⟨-, hkill⟩
      · exact hp
      · obtain ⟨-, l, b, rfl⟩ := killMap_eq hkill
        exact pointed_of_eq hp rfl rfl rfl
    exact deleted hpx rfl rfl
  · rcases handleAck_cases hdone with ⟨-, hno⟩ | ⟨-, x, hnew, hall⟩
    · cases hno
    · obtain ⟨hx, htx, hlx⟩ : Rested x ∧ TimerOk False x ∧ x.live = true := by
        rcases hnew with ⟨hlt, hnew⟩ | ⟨-, rfl⟩
        · exact ⟨h.handleNewAck hnew, handleNewAck_timerOk htimer hlt hnew,
            (Wakes.handleNewAck hnew).live.trans hlive⟩
        · exact ⟨h, htimer, hlive⟩
      rcases hall with ⟨-, hall⟩ | ⟨-, hno⟩
      · exact handleAllAcked (hx.points htx hlx).1 hlx hall
      · cases hno
  · have hx := ((hqueue.handleAck hlive hnext).2 x rfl).live.trans hlive
    rcases hrest with ⟨-, rfl⟩ | ⟨-, hdata⟩
    · exact of_live ((Wakes.handleOld x).live.trans hx)
    · exact of_live (((Wakes.handleWindow x s).trans (.handleData hdata)).live.trans hx)

theorem fdEvent {addr : ℕ} {io : Io} (h : Pointed c) (hlive : c.live = true)
    (hrun : runFdEvent c addr io = some c') : Cleared c' := by
  obtain ⟨e, -, -, -, x, again, rfl, hcases⟩ := runFdEvent_cases hrun
  have hx : Cleared x := by
    rcases hcases with ⟨r, -, -, hread⟩ | ⟨r, -, -, hwrite⟩ | ⟨ok, -, -, hconn⟩
    · obtain ⟨m, -, hread⟩ := handleFdCanRead_cases hread
      cases hread with
      | full => exact of_live hlive
      | again => exact of_live hlive
      | closed _ hclose =>
          have hp : Pointed { c with map := some { m with eFdRead := none } } :=
            pointed_of_eq h rfl rfl rfl
          exact closeBoth hp hlive hclose
      | @filled _ y _ hsend _ =>
          have hy : y.live = true := (Wakes.tcpSend hsend).live.trans hlive
          exact of_live hy
      | sent _ hsend => exact of_live ((Wakes.tcpSend hsend).live.trans hlive)
    · obtain ⟨m, -, hwrite⟩ := handleFdCanWrite_cases hwrite
      cases hwrite with
      | @again y _ _ hread =>
          have hy : y.live = true := (Wakes.tcpRead hread).live.trans hlive
          exact of_live hy
      | @closed y _ _ _ hread hclose =>
          have hy : y.live = true := (Wakes.tcpRead hread).live.trans hlive
          have hp : Pointed { y with map := some { m with eFdWrite := none } } := by
            obtain ⟨_, _, _, _, -, rfl⟩ := tcpRead_eq hread
            exact pointed_of_eq h rfl rfl rfl
          exact closeBoth hp hy hclose
      | @wrote y _ _ _ _ _ hread =>
          have hy : y.live = true := (Wakes.tcpRead hread).live.trans hlive
          exact of_live hy
    · obtain ⟨-, m, -, ⟨-, rfl⟩ | ⟨-, hclose⟩⟩ := handleFdDidConnect_cases hconn
      · exact of_live ((Wakes.tcpAccept _).live.trans hlive)
      · have hp : Pointed { c with map := some { m with eFdWrite := none } } :=
          pointed_of_eq h rfl rfl rfl
        exact closeBoth hp hlive hclose
  rw [finishFd]
  split
  · exact hx
  · exact hx.of_eq rfl rfl rfl

theorem call {k : AppCall} (h : Pointed c) (hlive : c.live = true)
    (hcall : CallExact c k c') : Cleared c' := by
  cases hcall with
  | accept => exact of_live ((Wakes.tcpAccept c).live.trans hlive)
  | send _ _ hsend => exact of_live ((Wakes.tcpSend hsend).live.trans hlive)
  | read hread => exact of_live ((Wakes.tcpRead hread).live.trans hlive)
  | @close hard => exact tcpClose h hlive hard

theorem step (h : Rested c) (htimer : TimerOk False c) (hqueue : Queued c) (hlive : c.live = true)
    (hstep : Ptrtd.step c i = some c') : Cleared c' := by
  have hp : Pointed c := (h.points htimer hlive).1
  obtain ⟨-, hexact⟩ := step_exact hstep
  cases hexact with
  | @packet s now _ htcp =>
      have hr : Rested (c.receive s) := h.of_eq rfl rfl rfl rfl rfl rfl rfl
      have htr : TimerOk False (c.receive s) := htimer.of_eq rfl rfl rfl rfl rfl rfl rfl
      have hqr : Queued (c.receive s) := hqueue.of_eq rfl rfl rfl rfl
      exact handleTcp hr htr hqr hlive htcp
  | @timeEvent addr _ hrun =>
      obtain ⟨e, -, -, -, ⟨-, rfl⟩ | ⟨-, rfl⟩⟩ := runTimeEvent_cases hrun
      · exact of_live ((Wakes.tcpTimeout c).live.trans hlive)
      · have hremoved : (tcpRemove c).timers = [] :=
          deleted hp rfl rfl rfl
        intro _
        refine filter_delEvent.trans ?_
        exact (congrArg (delEvent addr) hremoved).trans rfl
  | fdEvent hrun => exact fdEvent hp hlive hrun
  | @alwaysEvent addr now _ hrun =>
      obtain ⟨e, -, -, -, x, again, hw, rfl⟩ := runAlwaysEvent_cases hrun
      have hx : x.live = true := by
        cases hw with
        | syn => exact hlive
        | nothing => exact hlive
        | segment _ _ hy _ =>
            obtain ⟨_, _, _, _, _, _, _, _, heq⟩ := emitSegment_eq c _ _ now
            rw [heq] at hy
            subst hy
            exact hlive
      split
      · exact of_live hx
      · exact of_live hx
  | call _ hcall => exact call hp hlive hcall
  | others => exact of_live hlive

theorem of_start {app : TcpCallback} (h : Start app c) : Cleared c := by
  obtain ⟨self, isn, ev, syn, hfresh, hopen⟩ := start_exact h
  cases hopen with
  | other => exact of_live rfl
  | connected => exact of_live ((Wakes.tcpAccept _).live.trans rfl)
  | inProgress => exact of_live rfl
  | @failed fd _ _ hclose =>
      have hnone : ev.timeEventList.filter (Conn.fresh self app isn ev syn).owns = [] :=
        (filter_owns_fresh hfresh).1
      have hp : Pointed { Conn.fresh self app isn ev syn with map := some ⟨fd, none, none⟩ } :=
        points_none.mpr hnone
      exact closeBoth hp rfl hclose

end Cleared

/-! ## Socket events -/

/-- No socket event refers to the block. -/
def Apart (c : Conn) : Prop := ∀ e ∈ c.ev.fdEventList, e.data ≠ .tcb c.self

namespace Apart

/-- Events only go, or are registered for the map. -/
theorem of_mem (h : Apart c) (hself : c'.self = c.self)
    (hlist : ∀ e ∈ c'.ev.fdEventList, e ∈ c.ev.fdEventList ∨ e.data = .tcpMap c.self) :
    Apart c' := by
  intro e he
  rw [hself]
  rcases hlist e he with hold | hnew
  · exact h e hold
  · rw [hnew]
    nofun

theorem of_eq (h : Apart c) (hself : c'.self = c.self)
    (hlist : c'.ev.fdEventList = c.ev.fdEventList) : Apart c' :=
  h.of_mem hself fun _ he => .inl (hlist ▸ he)

theorem removed_mem {ev : EventLists} {p : Option ℕ} {e : Event}
    (he : e ∈ (removeFd? ev p).fdEventList) : e ∈ ev.fdEventList := by
  cases p with
  | none => exact he
  | some addr => exact (mem_delEvent.mp he).1

theorem fdStep (h : Apart c) (hstep : FdStep c c') : Apart c' := by
  cases hstep with
  | same hself _ hlist _ _ => exact h.of_eq hself hlist
  | read | write =>
      refine h.of_mem rfl fun e he => ?_
      rcases List.mem_cons.mp he with rfl | hold
      · exact .inr rfl
      · exact .inl hold
  | killed => exact h.of_mem rfl fun e he => .inl (removed_mem (removed_mem he))

theorem steps (h : Apart c) (hsteps : FdSteps c c') : Apart c' := by
  induction hsteps with
  | refl => exact h
  | tail _ hstep ih => exact ih.fdStep hstep

theorem fdEvent {addr : ℕ} {io : Io} (h : Apart c) (hrun : runFdEvent c addr io = some c') :
    Apart c' := by
  obtain ⟨e, -, -, -, x, again, rfl, hcases⟩ := runFdEvent_cases hrun
  have hmap : ∀ {y : Conn}, Apart y → ∀ m, Apart { y with map := m } :=
    fun hy m => hy.of_eq rfl rfl
  have hread : ∀ {y : Conn} {len : ℤ} {d : List Uchar}, Ptrtd.tcpRead c len = some (y, d) →
      Apart y := by
    intro y len d hy
    obtain ⟨hself, -, hlist, -⟩ := tcpRead_fd hy
    exact h.of_eq hself hlist
  have hx : Apart x := by
    rcases hcases with ⟨r, -, -, hcall⟩ | ⟨r, -, -, hcall⟩ | ⟨ok, -, -, hcall⟩
    · obtain ⟨m, -, hcall⟩ := handleFdCanRead_cases hcall
      cases hcall with
      | full => exact h
      | again => exact h
      | closed _ hclose => exact (hmap h _).steps (.closeBoth hclose)
      | filled _ hsend _ => exact hmap (h.steps (.tcpSend hsend)) _
      | sent _ hsend => exact h.steps (.tcpSend hsend)
    · obtain ⟨m, -, hcall⟩ := handleFdCanWrite_cases hcall
      cases hcall with
      | again _ hy => exact hmap (hread hy) _
      | closed _ hy hclose => exact (hmap (hread hy) _).steps (.closeBoth hclose)
      | wrote _ _ _ hy => exact (hread hy).of_eq rfl rfl
    · obtain ⟨-, m, -, ⟨-, rfl⟩ | ⟨-, hclose⟩⟩ := handleFdDidConnect_cases hcall
      · exact (hmap h _).steps (.tcpAccept _)
      · exact (hmap h _).steps (.closeBoth hclose)
  rw [finishFd]
  split
  · exact hx
  · exact hx.of_mem rfl fun e he => .inl (mem_delEvent.mp he).1

theorem wrote {again : Bool} (h : Apart c) (hw : Wrote c now a again) : Apart a := by
  cases hw with
  | syn => exact h.of_eq rfl rfl
  | nothing => exact h.of_eq rfl rfl
  | @segment data b _ _ _ hb _ =>
      have hemit : FdSteps c b := hb ▸ .emitSegment c data _ now
      exact (h.steps hemit).of_eq rfl rfl

theorem call {k : AppCall} (h : Apart c) (hcall : CallExact c k c') : Apart c' := by
  cases hcall with
  | accept => exact h.steps (.tcpAccept c)
  | send _ _ hsend => exact h.steps (.tcpSend hsend)
  | read hread =>
      obtain ⟨hself, -, hlist, -⟩ := tcpRead_fd hread
      exact h.of_eq hself hlist
  | @close hard => exact h.steps (.tcpClose c hard)

theorem others {ev : EventLists} (h : Apart c) (hev : othersChanged c ev) :
    Apart { c with ev := ev } := by
  intro e he hdata
  have hown : c.owns e = true := owns_of_tcb hdata
  have hmem : e ∈ ev.fdEventList.filter c.owns := List.mem_filter.mpr ⟨he, hown⟩
  rw [hev.2.2.1] at hmem
  exact h e (List.mem_filter.mp hmem).1 hdata

theorem step (h : Apart c) (hwf : WellFormed c) (hstep : Ptrtd.step c i = some c') : Apart c' := by
  obtain ⟨-, hexact⟩ := step_exact hstep
  cases hexact with
  | @packet s now _ htcp =>
      have hr : Apart (c.receive s) := h.of_eq rfl rfl
      exact hr.steps (.handleTcp (hwf.receive s) htcp)
  | timeEvent hrun =>
      obtain ⟨e, -, -, -, ⟨-, rfl⟩ | ⟨-, rfl⟩⟩ := runTimeEvent_cases hrun
      · exact (h.steps (.tcpTimeout c)).of_eq rfl rfl
      · exact (h.steps (.tcpRemove c)).of_eq rfl rfl
  | fdEvent hrun => exact h.fdEvent hrun
  | alwaysEvent hrun =>
      obtain ⟨e, -, -, -, b, again, hw, rfl⟩ := runAlwaysEvent_cases hrun
      split
      · exact h.wrote hw
      · exact (h.wrote hw).of_eq rfl rfl
  | call _ hcall => exact h.call hcall
  | others hev => exact h.others hev

theorem of_start {app : TcpCallback} (h : Start app c) : Apart c := by
  obtain ⟨self, isn, ev, syn, hfresh, hopen⟩ := start_exact h
  have hnew : ∀ m, Apart { Conn.fresh self app isn ev syn with map := m } :=
    fun _ e he => (hfresh e (by simp_all [Conn.fresh])).1
  cases hopen with
  | other => exact hnew none
  | connected => exact (hnew _).steps (.tcpAccept _)
  | inProgress =>
      refine (hnew none).of_mem rfl fun e he => ?_
      rcases List.mem_cons.mp he with rfl | hold
      · exact .inr rfl
      · exact .inl hold
  | failed _ hclose => exact (hnew _).steps (.closeBoth hclose)

end Apart

/-! ## All lists -/

/-- The ways in which `handle_tcp` overwrites `e_timeout` to enter `TIME_WAIT`, with the
connection before. -/
inductive EntersTimeWait (c : Conn) (s : Segment) (now : Timeval) : Conn → Prop where
  | bothClosed {a : Conn} : s.isRst = false → s.isAck = true →
      (if s.ack > c.tcb.sndUna then handleNewAck c s.ack now else some c) = some a →
      a.tcb.sndUna = a.tcb.sndNxt → a.tcb.state = .closing →
      rbAvail a.tcb.outbuf a.tcb.sndNxt = -1 → EntersTimeWait c s now a
  | finReceived {x a : Conn} : s.isRst = false → handleAck c s now = some (.next x) →
      ¬s.seq < x.tcb.rcvNxt → (handleWindow x s).tcb.state = .finWait2 →
      tcpRecvData (handleWindow x s) s = some (a, true) → EntersTimeWait c s now a

theorem EntersTimeWait.handleTcp (h : EntersTimeWait c s now a) :
    handleTcp c s now = some (enterTimeWait a now) := by
  cases h with
  | bothClosed hrst hack hnew heq hstate havail =>
      have hdone : handleAck c s now = some (.done (enterTimeWait a now)) := by
        rw [handleAck, if_pos hack, hnew, Option.bind_some, if_pos heq, handleAllAcked, hstate]
        dsimp only
        rw [if_pos havail]
      rw [Ptrtd.handleTcp, hrst, hdone]
      rfl
  | finReceived hrst hnext hseq hstate hrecv =>
      rw [Ptrtd.handleTcp, hrst, hnext]
      simp only [Bool.false_eq_true, if_false, Option.bind_some, if_neg hseq]
      rw [handleData, hstate, hrecv]
      rfl

/-- There is no other way into `TIME_WAIT`. -/
theorem entersTimeWait_of_handleTcp (h : handleTcp c s now = some c')
    (hold : c.tcb.state ≠ .timeWait) (hnew : c'.tcb.state = .timeWait) :
    ∃ a, EntersTimeWait c s now a ∧ c' = enterTimeWait a now := by
  have hack : ∀ x ack, handleNewAck c ack now = some x → x.tcb.state = c.tcb.state := by
    intro x ack hx
    obtain ⟨_, _, _, _, _, _, _, _, -, -, -, rfl⟩ := handleNewAck_eq hx
    rfl
  rcases handleTcp_cases h with ⟨-, hrst⟩ | ⟨hrst, hdone⟩ | ⟨hrst, x, hnext, hrest⟩
  · obtain ⟨m, ev, b, -, -, rfl⟩ := handleRst_eq hrst
    exact absurd hnew hold
  · rcases handleAck_cases hdone with ⟨-, hno⟩ | ⟨hisAck, x, hx, hall⟩
    · cases hno
    · rcases hall with ⟨heq, hall⟩ | ⟨-, hno⟩
      · have hgo : (if s.ack > c.tcb.sndUna then handleNewAck c s.ack now else some c) =
          some x := by
          rcases hx with ⟨hlt, hx⟩ | ⟨hnot, rfl⟩
          · rw [if_pos hlt, hx]
          · rw [if_neg hnot]
        cases handleAllAcked_effect hall with
        | deleted hstate => rw [hstate] at hnew; cases hnew
        | bothClosed hstate havail =>
            exact ⟨x, .bothClosed hrst hisAck hgo heq hstate havail, rfl⟩
        | stillClosing hstate _ => rw [hstate] at hnew; cases hnew
      · cases hno
  · have hx : x.tcb.state ≠ .timeWait := by
      rcases handleAck_cases hnext with ⟨-, hsame⟩ | ⟨-, y, hy, hall⟩
      · cases hsame
        exact hold
      · have hykeep : y.tcb.state ≠ .timeWait := by
          rcases hy with ⟨-, hy⟩ | ⟨-, rfl⟩
          · rw [hack y _ hy]
            exact hold
          · exact hold
        rcases hall with ⟨-, hall⟩ | ⟨-, hsame⟩
        · cases handleAllAcked_effect hall with
          | opened _ _ hchange =>
              obtain ⟨_, _, _, -, rfl⟩ := hchange
              nofun
          | finAcked => nofun
          | other => exact hykeep
        · cases hsame
          exact hykeep
    rcases hrest with ⟨-, rfl⟩ | ⟨hseq, hdata⟩
    · obtain ⟨_, _, _, _, heq⟩ := handleOld_eq x
      rw [heq] at hnew
      exact absurd hnew hx
    · have hwin : (handleWindow x s).tcb.state = x.tcb.state := by
        obtain ⟨_, _, _, heq⟩ := handleWindow_eq x s
        rw [heq]
        rfl
      have hkeep : ∀ y fin, tcpRecvData (handleWindow x s) s = some (y, fin) →
          y.tcb.state = x.tcb.state := by
        intro y fin hy
        obtain ⟨-, _, _, _, _, _, _, -, -, -, rfl⟩ := tcpRecvData_eq hy
        exact hwin
      cases handleData_effect hdata with
      | ignored => exact absurd (hwin ▸ hnew) hx
      | data _ hrecv _ => exact absurd (hkeep _ _ hrecv ▸ hnew) hx
      | finWait2 hstate hrecv => exact ⟨_, .finReceived hrst hnext hseq hstate hrecv, rfl⟩
      | finWait1 => cases hnew
      | closeWait _ _ _ hclose =>
          obtain ⟨_, _, _, _, -, -, -, -, rfl⟩ := tcpRemoteClose_eq rfl hclose
          cases hnew

/-- The always events and the timers of a block are what it points to, nothing refers to a block
that has been deleted, and `TIME_WAIT` does not overwrite a timer that is pending. -/
structure Booked (c : Conn) : Prop where
  always : Points Event.addr (fun e => e.data = .tcb c.self) c.ev.alwaysEventList
    (if c.live then c.tcb.eTcbSend else none)
  time : Points Event.addr (fun e => e.data = .tcb c.self) c.ev.timeEventList
    (if c.live then c.tcb.eTimeout else none)
  fd : ∀ e ∈ c.ev.fdEventList, e.data ≠ .tcb c.self
  overwritten : ∀ s now a, c.live = true → SentOnly c (.packet s now) →
    EntersTimeWait (c.receive s) s now a → a.tcb.eTimeout = none

theorem not_owns_data {e : Event} (h : c.owns e = false) : e.data ≠ .tcb c.self := by
  intro hdata
  rw [owns_of_tcb hdata] at h
  cases h

theorem EntersTimeWait.eTimeout (h : EntersTimeWait c s now a) (hrested : Rested c)
    (htimer : TimerOk False c) (hqueue : Queued c) (hlive : c.live = true) :
    a.tcb.eTimeout = none := by
  cases h with
  | bothClosed _ _ hnew heq hstate _ =>
      obtain ⟨ha, hta, hla⟩ : Rested a ∧ TimerOk False a ∧ a.live = true := by
        split at hnew
        · next hlt =>
            exact ⟨hrested.handleNewAck hnew, handleNewAck_timerOk htimer hlt hnew,
              (Wakes.handleNewAck hnew).live.trans hlive⟩
        · cases hnew
          exact ⟨hrested, htimer, hlive⟩
      have hret : retransmits a.tcb.state = true := by rw [hstate]; rfl
      exact ((hta.guarded hla hret).unarmed (ha.mark hret) heq).eTimeout
  | @finReceived x _ _ hnext _ hstate hrecv =>
      have hx : x.live = true := ((hqueue.handleAck hlive hnext).2 x rfl).live.trans hlive
      have hkept : Rested (handleWindow x s) :=
        (hrested.handleAck htimer hlive hnext hx).handleWindow s
      have hfin : a.tcb.state = .finWait2 := by
        obtain ⟨-, _, _, _, _, _, _, -, -, -, rfl⟩ := tcpRecvData_eq hrecv
        exact hstate
      exact ((hkept.tcpRecvData hrecv).fin hfin).eTimeout

/-- In every run in which no ACK number lies beyond what was sent and `snd_nxt` does not wrap,
the events of a block are the ones it points to, and none is left when it is deleted. -/
theorem booked_of_sentOnly (h : Reached SentOnly c) (hspace : InSpace c) : Booked c := by
  have hinv : Queued c ∧ AcceptOnce c ∧ TimerOk False c ∧ Located c ∧
      (c.live = true → InSpace c → Rested c) ∧ Cleared c ∧ Apart c := by
    apply h.run_invariant
    · exact fun _ _ hs => ⟨.of_start hs, .of_start hs, .of_start hs, .of_start hs,
        fun hlive _ => .of_start hs hlive, .of_start hs, .of_start hs⟩
    · intro c i c' hwf ⟨hqueue, honce, htimer, hloc, hrest, hclear, hapart⟩ hok hstep
      obtain ⟨hlive, hstepped⟩ := step_cases hstep
      have hrested := hrest hlive hok.inSpace
      obtain ⟨b, w, u, n, hw, hkept⟩ := hloc hlive
      refine ⟨hqueue.step hstep, honce.step hwf hstep,
        htimer.stepped hwf hlive False.elim hstepped,
        hloc.stepped hwf hqueue honce htimer hok hlive hstepped, fun hlive' hspace' => ?_,
        .step hrested htimer hqueue hlive hstep, hapart.step hwf hstep⟩
      exact hrested.stepped hwf htimer hw hkept hok.inSpace hlive hstepped hlive' hspace'
  obtain ⟨hqueue, -, htimer, -, hrest, hclear, hapart⟩ := hinv
  refine ⟨?_, ?_, hapart, fun s now a hlive hok henter => ?_⟩
  · refine hqueue.points.congr (List.filter_congr fun e he => ?_)
    cases hown : c.owns e with
    | false => simp [not_owns_data hown]
    | true =>
        have hdata : e.data = .tcb c.self := by
          rw [hqueue.event e he hown]
          rfl
        simp [hdata]
  · obtain ⟨hpoints, hdata⟩ : Points Event.addr c.owns c.ev.timeEventList
        (if c.live then c.tcb.eTimeout else none) ∧ ∀ e ∈ c.timers, e.data = .tcb c.self := by
      cases hlive : c.live with
      | true => exact (hrest hlive hspace).points htimer hlive
      | false =>
          rw [hclear hlive]
          exact ⟨points_none.mpr (hclear hlive), nofun⟩
    refine hpoints.congr (List.filter_congr fun e he => ?_)
    cases hown : c.owns e with
    | false => simp [not_owns_data hown]
    | true => simp [hdata e (List.mem_filter.mpr ⟨he, hown⟩)]
  · have hr : Rested (c.receive s) := (hrest hlive hspace).of_eq rfl rfl rfl rfl rfl rfl rfl
    have htr : TimerOk False (c.receive s) := htimer.of_eq rfl rfl rfl rfl rfl rfl rfl
    have hqr : Queued (c.receive s) := hqueue.of_eq rfl rfl rfl rfl
    exact henter.eTimeout hr htr hqr hlive

/-- After both sides have closed, the ACK and the end of `TIME_WAIT` are pending. -/
theorem booked_of_sentOnly_timeWait : ∃ c, Reached SentOnly c ∧ c.tcb.state = .timeWait ∧
    c.tcb.eTcbSend = some 3 ∧ c.tcb.eTimeout = some 4 ∧ Booked c := by
  have hexec : (execFrom SentOnly .tcpMapCb 0 (clientSyn 8192) (.connected 5)
      (handshake ++ [.fdEvent 1 (.read .eof), .alwaysEvent 2 ⟨0, 0⟩,
        client 1001 0x10002 0x10 8192 [], client 1001 0x10002 0x11 8192 []])).any
      (fun c => InSpace c ∧ c.tcb.state = .timeWait ∧ c.tcb.eTcbSend = some 3 ∧
        c.tcb.eTimeout = some 4) = true := by
    decide +kernel
  obtain ⟨c, hreach, hc⟩ := reached_of_exec hexec
  obtain ⟨hspace, hstate, hsend, htimeout⟩ := of_decide_eq_true hc
  exact ⟨c, hreach, hstate, hsend, htimeout, booked_of_sentOnly hreach hspace⟩

end Ptrtd
