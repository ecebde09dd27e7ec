import Ptrtd.Verification.Session.WellFormed

/-! # Callbacks of the event loop

What the callback of an event does and whether the event stays registered. Unlike the
steps of a connection, these cases keep the lists of events as they are. -/

namespace Ptrtd

variable {c c' : Conn} {addr : ℕ}

theorem runTimeEvent_cases (h : runTimeEvent c addr = some c') :
    ∃ e ∈ c.ev.timeEventList, e.addr = addr ∧ e.data = .tcb c.self ∧
      (e.func = .tcpTimeout ∧
          c' = { tcpTimeout c with ev := removeTimeEvent (tcpTimeout c).ev addr } ∨
        e.func = .tcpRemove ∧
          c' = { tcpRemove c with ev := removeTimeEvent (tcpRemove c).ev addr }) := by
  obtain ⟨e, he, h⟩ := Option.bind_eq_some_iff.mp h
  obtain ⟨hmem, haddr, hdata⟩ := findEvent_spec he
  refine ⟨e, hmem, haddr, hdata, ?_⟩
  dsimp only at h
  split at h
  · next hfunc =>
      cases h
      exact .inl ⟨hfunc, rfl⟩
  · next hfunc =>
      cases h
      exact .inr ⟨hfunc, rfl⟩
  · cases h

/-- The write event is unlinked unless the callback asks to be called again. -/
theorem runAlwaysEvent_cases {now : Timeval} (h : runAlwaysEvent c addr now = some c') :
    ∃ e ∈ c.ev.alwaysEventList, e.addr = addr ∧ e.data = .tcb c.self ∧ ∃ a again,
      Wrote c now a again ∧
        c' = if again then a else { a with ev := removeAlwaysEvent a.ev addr } := by
  obtain ⟨e, he, h⟩ := Option.bind_eq_some_iff.mp h
  obtain ⟨hmem, haddr, hdata⟩ := findEvent_spec he
  refine ⟨e, hmem, haddr, hdata, ?_⟩
  split at h
  · obtain ⟨⟨a, again⟩, ha, rfl⟩ := Option.map_eq_some_iff.mp h
    exact ⟨a, again, doTcbWrite_effect ha, rfl⟩
  · cases h

/-- `event_loop` unlinks a socket event when its callback returns 0. -/
def finishFd (addr : ℕ) (c : Conn) (again : Bool) : Conn :=
  if again then c else { c with ev := removeFdEvent c.ev addr }

theorem runFdEvent_cases {io : Io} (h : runFdEvent c addr io = some c') :
    ∃ e ∈ c.ev.fdEventList, e.addr = addr ∧ e.data = .tcpMap c.self ∧ ∃ a again,
      c' = finishFd addr a again ∧
        ((∃ r, e.func = .handleFdCanRead ∧ io = .read r ∧
            handleFdCanRead c r = some (a, again)) ∨
          (∃ r, e.func = .handleFdCanWrite ∧ io = .write r ∧
            handleFdCanWrite c r = some (a, again)) ∨
          ∃ ok, e.func = .handleFdDidConnect ∧ io = .connect ok ∧
            handleFdDidConnect c ok = some (a, again)) := by
  obtain ⟨e, he, hrun⟩ := Option.bind_eq_some_iff.mp h
  obtain ⟨hmem, haddr, hdata⟩ := findEvent_spec he
  refine ⟨e, hmem, haddr, hdata, ?_⟩
  dsimp only at hrun
  split at hrun
  · next hfunc =>
      obtain ⟨⟨a, again⟩, ha, rfl⟩ := Option.map_eq_some_iff.mp hrun
      exact ⟨a, again, rfl, .inl ⟨_, hfunc, rfl, ha⟩⟩
  · next hfunc =>
      obtain ⟨⟨a, again⟩, ha, rfl⟩ := Option.map_eq_some_iff.mp hrun
      exact ⟨a, again, rfl, .inr (.inl ⟨_, hfunc, rfl, ha⟩)⟩
  · next hfunc =>
      obtain ⟨⟨a, again⟩, ha, rfl⟩ := Option.map_eq_some_iff.mp hrun
      exact ⟨a, again, rfl, .inr (.inr ⟨_, hfunc, rfl, ha⟩)⟩
  · cases hrun

/-! ## Socket callbacks -/

/-- The ways through `handle_fd_can_read`. -/
inductive CanReadExact (c : Conn) (m : TcpMap) (r : ReadResult) : Conn → Bool → Prop where
  | full : rbLeft c.tcb.outbuf = 0 → CanReadExact c m r c false
  | again : r = .again → CanReadExact c m r c true
  | closed {a : Conn} : r = .eof ∨ r = .error →
      closeBoth { c with map := some { m with eFdRead := none } } = some a →
      CanReadExact c m r a false
  | filled {d : List Uchar} {a : Conn} : r = .data d → tcpSend c d = some a →
      rbLeft a.tcb.outbuf = 0 →
      CanReadExact c m r { a with map := some { m with eFdRead := none } } false
  | sent {d : List Uchar} {a : Conn} : r = .data d → tcpSend c d = some a →
      CanReadExact c m r a true

theorem handleFdCanRead_cases {r : ReadResult} {again : Bool}
    (h : handleFdCanRead c r = some (c', again)) :
    ∃ m, c.map = some m ∧ CanReadExact c m r c' again := by
  obtain ⟨m, hm, h⟩ := Option.bind_eq_some_iff.mp h
  refine ⟨m, hm, ?_⟩
  dsimp only at h
  generalize hlen : (if tcpGetOutputSpace c.tcb < 0 ∨ tcpGetOutputSpace c.tcb > tbSize then
    (tbSize : ℤ) else tcpGetOutputSpace c.tcb) = len at h
  split at h
  · next hzero =>
      cases h
      refine .full ?_
      rw [hzero] at hlen
      split at hlen
      · cases hlen
      · exact hlen
  · cases r with
    | again =>
        cases h
        exact .again rfl
    | eof =>
        obtain ⟨a, ha, h⟩ := Option.map_eq_some_iff.mp h
        cases h
        exact .closed (.inl rfl) ha
    | error =>
        obtain ⟨a, ha, h⟩ := Option.map_eq_some_iff.mp h
        cases h
        exact .closed (.inr rfl) ha
    | data d =>
        dsimp only at h
        split at h
        · obtain ⟨a, ha, h⟩ := Option.bind_eq_some_iff.mp h
          split at h
          · next hfull =>
              cases h
              exact .filled rfl ha hfull
          · cases h
            exact .sent rfl ha
        · cases h

/-- The map after `handle_fd_can_write` has read: its event is forgotten when `tcp_read` left
room in the transfer buffer. -/
def afterRead (m : TcpMap) (d : List Uchar) : TcpMap :=
  if d.length < tbSize then { m with eFdWrite := none } else m

/-- The ways through `handle_fd_can_write`. -/
inductive CanWriteExact (c : Conn) (m : TcpMap) (r : WriteResult) : Conn → Bool → Prop where
  | again {a : Conn} {d : List Uchar} : r = .again → tcpRead c tbSize = some (a, d) →
      CanWriteExact c m r { a with map := some (afterRead m d) } true
  | closed {a a' : Conn} {d : List Uchar} : r = .error ∨ r = .wrote 0 →
      tcpRead c tbSize = some (a, d) →
      closeBoth { a with map := some { m with eFdWrite := none } } = some a' →
      CanWriteExact c m r a' false
  | wrote {a : Conn} {d : List Uchar} {n : ℕ} : r = .wrote n → n ≠ 0 → n ≤ d.length →
      tcpRead c tbSize = some (a, d) →
      CanWriteExact c m r
        { a with
          map := some (afterRead m d)
          trace := { a.trace with relayed := a.trace.relayed ++ d.take n } }
        (afterRead m d).eFdWrite.isSome

theorem handleFdCanWrite_cases {r : WriteResult} {again : Bool}
    (h : handleFdCanWrite c r = some (c', again)) :
    ∃ m, c.map = some m ∧ CanWriteExact c m r c' again := by
  obtain ⟨m, hm, h⟩ := Option.bind_eq_some_iff.mp h
  refine ⟨m, hm, ?_⟩
  obtain ⟨⟨a, d⟩, hread, h⟩ := Option.bind_eq_some_iff.mp h
  have hmap : a.map = some m := by
    obtain ⟨_, _, _, _, -, rfl⟩ := tcpRead_eq hread
    exact hm
  have hif : (if d.length < tbSize then { a with map := some { m with eFdWrite := none } } else a) =
      { a with map := some (afterRead m d) } := by
    rw [afterRead]
    split
    · rfl
    · rw [← hmap]
  have hclear : { afterRead m d with eFdWrite := none } = { m with eFdWrite := none } := by
    rw [afterRead]
    split <;> rfl
  dsimp only at h
  rw [hif] at h
  split at h
  · cases h
    exact .again rfl hread
  · obtain ⟨a', ha', h⟩ := Option.map_eq_some_iff.mp h
    cases h
    rw [hclear] at ha'
    exact .closed (.inl rfl) hread ha'
  · next n =>
      split at h
      · next hn =>
          split at h
          · next hzero =>
              subst hzero
              obtain ⟨a', ha', h⟩ := Option.map_eq_some_iff.mp h
              cases h
              rw [hclear, List.take_zero, List.append_nil] at ha'
              exact .closed (.inr rfl) hread ha'
          · next hne =>
              cases h
              exact CanWriteExact.wrote (a := a) rfl hne hn hread
      · cases h

theorem handleFdDidConnect_cases {ok again : Bool}
    (h : handleFdDidConnect c ok = some (c', again)) : again = false ∧ ∃ m, c.map = some m ∧
      (ok = true ∧ c' = tcpAccept { c with map := some { m with eFdWrite := none } } ∨
        ok = false ∧ closeBoth { c with map := some { m with eFdWrite := none } } = some c') := by
  obtain ⟨m, hm, h⟩ := Option.bind_eq_some_iff.mp h
  dsimp only at h
  split at h
  · next hok =>
      cases h
      exact ⟨rfl, m, hm, .inl ⟨hok, rfl⟩⟩
  · next hok =>
      obtain ⟨a, ha, h⟩ := Option.map_eq_some_iff.mp h
      cases h
      exact ⟨rfl, m, hm, .inr ⟨Bool.eq_false_iff.mpr hok, ha⟩⟩

end Ptrtd
