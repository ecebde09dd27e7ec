import Ptrtd.Verification.Session.Effects

/-! # The steps of a connection

One case for each way a step can be taken, with what it says about the events that ran.
Every invariant of the daemon is proved along these cases. -/

namespace Ptrtd

variable {c c' : Conn}

/-- The steps of a connection. -/
inductive Stepped (c : Conn) : Input → Conn → Prop where
  | packet {s : Segment} {now : Timeval} {a : Conn} :
      handleTcp (c.receive s) s now = some a → Stepped c (.packet s now) a
  | timeout {e : Event} : e ∈ c.ev.timeEventList → c.owns e = true → e.func = .tcpTimeout →
      Stepped c (.timeEvent e.addr)
        { tcpTimeout c with ev := removeTimeEvent (tcpTimeout c).ev e.addr }
  | removed {e : Event} : e ∈ c.ev.timeEventList → c.owns e = true → e.func = .tcpRemove →
      Stepped c (.timeEvent e.addr)
        { tcpRemove c with ev := removeTimeEvent (tcpRemove c).ev e.addr }
  | canRead {e : Event} {r : ReadResult} {a : Conn} {again : Bool} {l : List Event} :
      e ∈ c.ev.fdEventList → c.owns e = true → e.func = .handleFdCanRead → c.map.isSome = true →
      CanRead c r a again → (∀ x ∈ l, x ∈ a.ev.fdEventList) →
      Stepped c (.fdEvent e.addr (.read r)) { a with ev := { a.ev with fdEventList := l } }
  | canWrite {e : Event} {r : WriteResult} {a : Conn} {again : Bool} {l : List Event} :
      e ∈ c.ev.fdEventList → c.owns e = true → e.func = .handleFdCanWrite → c.map.isSome = true →
      CanWrite c r a again → (∀ x ∈ l, x ∈ a.ev.fdEventList) →
      Stepped c (.fdEvent e.addr (.write r)) { a with ev := { a.ev with fdEventList := l } }
  | didConnect {e : Event} {ok : Bool} {a : Conn} {again : Bool} {l : List Event} :
      e ∈ c.ev.fdEventList → c.owns e = true → e.func = .handleFdDidConnect →
      c.map.isSome = true → DidConnect c ok a again → (∀ x ∈ l, x ∈ a.ev.fdEventList) →
      Stepped c (.fdEvent e.addr (.connect ok)) { a with ev := { a.ev with fdEventList := l } }
  | write {e : Event} {now : Timeval} {a : Conn} {again : Bool} {l : List Event} :
      e ∈ c.ev.alwaysEventList → c.owns e = true → e.func = .doTcbWrite → Wrote c now a again →
      (∀ x ∈ l, x ∈ a.ev.alwaysEventList) →
      Stepped c (.alwaysEvent e.addr now) { a with ev := { a.ev with alwaysEventList := l } }
  | accept : c.tcb.cb = some .otherCb → c.tcb.state = .synRecvd → c.trace.acceptCalled = false →
      Stepped c (.call .accept) (tcpAccept c)
  | send {d : List Uchar} {a : Conn} : c.tcb.cb = some .otherCb → c.tcb.state = .established →
      (d.length : ℤ) ≤ rbLeft c.tcb.outbuf → tcpSend c d = some a → Stepped c (.call (.send d)) a
  | read {n : ℕ} {a : Conn} {d : List Uchar} : c.tcb.cb = some .otherCb →
      tcpRead c n = some (a, d) → Stepped c (.call (.read n)) a
  | close {hard : Bool} : c.tcb.cb = some .otherCb →
      Stepped c (.call (.close hard)) (tcpClose c hard)
  | others {ev : EventLists} : othersChanged c ev → Stepped c (.others ev) { c with ev := ev }

theorem findEvent_spec {l : List Event} {addr : ℕ} {d : DataRef} {e : Event}
    (h : findEvent l addr d = some e) : e ∈ l ∧ e.addr = addr ∧ e.data = d := by
  have hp := List.find?_some h
  simp only [decide_eq_true_eq] at hp
  exact ⟨List.mem_of_find?_eq_some h, hp⟩

theorem owns_of_tcb {e : Event} (h : e.data = .tcb c.self) : c.owns e = true := by
  simp [Conn.owns, h]

theorem owns_of_tcpMap {e : Event} (h : e.data = .tcpMap c.self) : c.owns e = true := by
  simp [Conn.owns, h]

theorem owns_congr (h : c'.self = c.self) : c'.owns = c.owns := by
  funext e
  simp only [Conn.owns, h]

/-- Whether or not a socket event is unlinked after its callback, the list only shrinks. -/
theorem finishFd_eq (r : Conn × Bool) (addr : ℕ) : ∃ l, (∀ x ∈ l, x ∈ r.1.ev.fdEventList) ∧
    (if r.2 then r.1 else { r.1 with ev := removeFdEvent r.1.ev addr }) =
      { r.1 with ev := { r.1.ev with fdEventList := l } } := by
  split
  · exact ⟨_, fun _ hx => hx, rfl⟩
  · exact ⟨_, fun _ hx => (mem_delEvent.mp hx).1, rfl⟩

theorem runTimeEvent_steps {addr : ℕ} (h : runTimeEvent c addr = some c') :
    Stepped c (.timeEvent addr) c' := by
  obtain ⟨e, he, h⟩ := Option.bind_eq_some_iff.mp h
  obtain ⟨hmem, rfl, hdata⟩ := findEvent_spec he
  dsimp only at h
  split at h
  · next hfunc =>
      cases h
      exact .timeout hmem (owns_of_tcb hdata) hfunc
  · next hfunc =>
      cases h
      exact .removed hmem (owns_of_tcb hdata) hfunc
  · cases h

theorem runFdEvent_steps {addr : ℕ} {io : Io} (h : runFdEvent c addr io = some c') :
    Stepped c (.fdEvent addr io) c' := by
  obtain ⟨e, he, hrun⟩ := Option.bind_eq_some_iff.mp h
  obtain ⟨hmem, rfl, hdata⟩ := findEvent_spec he
  have hown := owns_of_tcpMap hdata
  dsimp only at hrun
  split at hrun
  · next hfunc =>
      obtain ⟨⟨a, again⟩, ha, rfl⟩ := Option.map_eq_some_iff.mp hrun
      obtain ⟨l, hl, heq⟩ := finishFd_eq (a, again) e.addr
      obtain ⟨hm, ha⟩ := handleFdCanRead_effect ha
      rw [heq]
      exact .canRead hmem hown hfunc hm ha hl
  · next hfunc =>
      obtain ⟨⟨a, again⟩, ha, rfl⟩ := Option.map_eq_some_iff.mp hrun
      obtain ⟨l, hl, heq⟩ := finishFd_eq (a, again) e.addr
      obtain ⟨hm, ha⟩ := handleFdCanWrite_effect ha
      rw [heq]
      exact .canWrite hmem hown hfunc hm ha hl
  · next hfunc =>
      obtain ⟨⟨a, again⟩, ha, rfl⟩ := Option.map_eq_some_iff.mp hrun
      obtain ⟨l, hl, heq⟩ := finishFd_eq (a, again) e.addr
      obtain ⟨hm, ha⟩ := handleFdDidConnect_effect ha
      rw [heq]
      exact .didConnect hmem hown hfunc hm ha hl
  · cases hrun

theorem runAlwaysEvent_steps {addr : ℕ} {now : Timeval} (h : runAlwaysEvent c addr now = some c') :
    Stepped c (.alwaysEvent addr now) c' := by
  obtain ⟨e, he, h⟩ := Option.bind_eq_some_iff.mp h
  obtain ⟨hmem, rfl, hdata⟩ := findEvent_spec he
  split at h
  · next hfunc =>
      obtain ⟨⟨a, again⟩, ha, h⟩ := Option.map_eq_some_iff.mp h
      have ha := doTcbWrite_effect ha
      dsimp only at h
      split at h
      · cases h
        exact Stepped.write hmem (owns_of_tcb hdata) hfunc ha fun _ hx => hx
      · cases h
        exact Stepped.write hmem (owns_of_tcb hdata) hfunc ha
          fun _ hx => (mem_delEvent.mp hx).1
  · cases h

/-- The calls of an application other than the relay, which keeps to the interface. -/
inductive CallExact (c : Conn) : AppCall → Conn → Prop where
  | accept : c.tcb.state = .synRecvd → c.trace.acceptCalled = false →
      CallExact c .accept (tcpAccept c)
  | send {d : List Uchar} {a : Conn} : c.tcb.state = .established →
      (d.length : ℤ) ≤ rbLeft c.tcb.outbuf → tcpSend c d = some a → CallExact c (.send d) a
  | read {n : ℕ} {a : Conn} {d : List Uchar} : tcpRead c n = some (a, d) → CallExact c (.read n) a
  | close {hard : Bool} : CallExact c (.close hard) (tcpClose c hard)

theorem appCall_cases {k : AppCall} (h : appCall c k = some c') : CallExact c k c' := by
  cases k with
  | accept =>
      simp only [appCall] at h
      split at h
      · next hok =>
          cases h
          exact .accept hok.1 hok.2
      · cases h
  | send d =>
      simp only [appCall] at h
      split at h
      · next hok => exact .send hok.1 hok.2 h
      · cases h
  | read n =>
      obtain ⟨⟨b, d⟩, hb, rfl⟩ := Option.map_eq_some_iff.mp h
      exact .read hb
  | close hard =>
      cases h
      exact .close

/-- What each input runs, with the lists of events as they are. -/
inductive StepExact (c : Conn) : Input → Conn → Prop where
  | packet {s : Segment} {now : Timeval} {a : Conn} :
      handleTcp (c.receive s) s now = some a → StepExact c (.packet s now) a
  | timeEvent {addr : ℕ} {a : Conn} :
      runTimeEvent c addr = some a → StepExact c (.timeEvent addr) a
  | fdEvent {addr : ℕ} {io : Io} {a : Conn} :
      runFdEvent c addr io = some a → StepExact c (.fdEvent addr io) a
  | alwaysEvent {addr : ℕ} {now : Timeval} {a : Conn} :
      runAlwaysEvent c addr now = some a → StepExact c (.alwaysEvent addr now) a
  | call {k : AppCall} {a : Conn} : c.tcb.cb = some .otherCb → CallExact c k a →
      StepExact c (.call k) a
  | others {ev : EventLists} : othersChanged c ev → StepExact c (.others ev) { c with ev := ev }

theorem step_exact {i : Input} (h : step c i = some c') : c.live = true ∧ StepExact c i c' := by
  unfold step at h
  split at h
  · next hlive =>
      refine ⟨hlive, ?_⟩
      cases i with
      | packet s now => exact .packet h
      | timeEvent addr => exact .timeEvent h
      | fdEvent addr io => exact .fdEvent h
      | alwaysEvent addr now => exact .alwaysEvent h
      | call k =>
          dsimp only at h
          split at h
          · next hcb => exact .call hcb (appCall_cases h)
          · cases h
      | others ev =>
          dsimp only at h
          split at h
          · next hev =>
              cases h
              exact .others hev
          · cases h
  · cases h

theorem step_cases {i : Input} (h : step c i = some c') : c.live = true ∧ Stepped c i c' := by
  obtain ⟨hlive, hexact⟩ := step_exact h
  refine ⟨hlive, ?_⟩
  cases hexact with
  | packet htcp => exact .packet htcp
  | timeEvent hrun => exact runTimeEvent_steps hrun
  | fdEvent hrun => exact runFdEvent_steps hrun
  | alwaysEvent hrun => exact runAlwaysEvent_steps hrun
  | call hcb hcall =>
      cases hcall with
      | accept hsyn hfirst => exact .accept hcb hsyn hfirst
      | send hest hfits hsend => exact .send hcb hest hfits hsend
      | read hread => exact .read hcb hread
      | close => exact .close hcb
  | others hev => exact .others hev

/-! ## New connections -/

/-- The connection that `handle_tcp` builds for a SYN, before its application is told. -/
def Conn.fresh (self : ℕ) (app : TcpCallback) (isn : Uint) (ev : EventLists) (syn : Segment) :
    Conn :=
  { self, tcb := newTcb app isn syn, live := true, map := none, ev, trace := Trace.start syn }

/-- No event refers to a new connection. -/
theorem filter_owns_fresh {self : ℕ} {app : TcpCallback} {isn : Uint} {ev : EventLists}
    {syn : Segment} (h : freshAddr self ev) :
    ev.timeEventList.filter (Conn.fresh self app isn ev syn).owns = [] ∧
      ev.fdEventList.filter (Conn.fresh self app isn ev syn).owns = [] ∧
      ev.alwaysEventList.filter (Conn.fresh self app isn ev syn).owns = [] := by
  have hnot : ∀ e ∈ ev.timeEventList ++ ev.fdEventList ++ ev.alwaysEventList,
      ¬(Conn.fresh self app isn ev syn).owns e = true := by
    intro e he
    obtain ⟨h₁, h₂⟩ := h e he
    simp [Conn.owns, Conn.fresh, h₁, h₂]
  simp only [List.mem_append] at hnot
  exact ⟨List.filter_eq_nil_iff.mpr fun e he => hnot e (.inl (.inl he)),
    List.filter_eq_nil_iff.mpr fun e he => hnot e (.inl (.inr he)),
    List.filter_eq_nil_iff.mpr fun e he => hnot e (.inr he)⟩

/-- How the application opens a new connection: `incoming` of the relay makes a map. -/
inductive OpenExact (c : Conn) : Conn → Prop where
  | other : c.tcb.cb = some .otherCb → OpenExact c c
  | connected {fd : ℤ} : c.tcb.cb = some .tcpMapCb →
      OpenExact c (tcpAccept { c with map := some ⟨fd, none, none⟩ })
  | inProgress {fd : ℤ} : c.tcb.cb = some .tcpMapCb →
      OpenExact c
        { c with
          ev := addFdEvent c.ev fd true .handleFdDidConnect (.tcpMap c.self)
          map := some ⟨fd, none, some c.ev.next⟩ }
  | failed {fd : ℤ} {a : Conn} : c.tcb.cb = some .tcpMapCb →
      closeBoth { c with map := some ⟨fd, none, none⟩ } = some a → OpenExact c a

theorem start_exact {app : TcpCallback} (h : Start app c) : ∃ self isn ev syn,
    freshAddr self ev ∧ OpenExact (.fresh self app isn ev syn) c := by
  obtain ⟨self, isn, ev, syn, res, hfresh, h⟩ := h
  refine ⟨self, isn, ev, syn, hfresh, ?_⟩
  rw [handleSyn] at h
  split at h
  · cases app with
    | tcpMapCb =>
        cases res with
        | noSocket => exact .failed rfl h
        | failed fd => exact .failed rfl h
        | connected fd =>
            cases h
            exact .connected rfl
        | inProgress fd =>
            cases h
            exact .inProgress rfl
    | otherCb =>
        cases h
        exact .other rfl
  · cases h

/-- What the application does with a new connection. -/
inductive Opened (c : Conn) : Conn → Prop where
  | other : c.tcb.cb = some .otherCb → Opened c c
  | accepted {m : TcpMap} : c.tcb.cb = some .tcpMapCb →
      Opened c (tcpAccept { c with map := some m })
  | connecting {fd : ℤ} {m : TcpMap} : c.tcb.cb = some .tcpMapCb →
      Opened c
        { c with
          ev := addFdEvent c.ev fd true .handleFdDidConnect (.tcpMap c.self), map := some m }
  | failed {m : TcpMap} {a : Conn} : c.tcb.cb = some .tcpMapCb →
      ClosedBoth { c with map := some m } a → Opened c a

theorem start_cases {app : TcpCallback} (h : Start app c) : ∃ self isn ev syn,
    freshAddr self ev ∧ Opened (.fresh self app isn ev syn) c := by
  obtain ⟨self, isn, ev, syn, hfresh, hopen⟩ := start_exact h
  refine ⟨self, isn, ev, syn, hfresh, ?_⟩
  cases hopen with
  | other hcb => exact .other hcb
  | connected hcb => exact .accepted hcb
  | inProgress hcb => exact .connecting hcb
  | failed hcb hclose => exact .failed hcb (closeBoth_effect hclose)

theorem nextIsn_toNat (isn : Uint) : (nextIsn isn).toNat ≤ 0xFFFF0000 := by
  rw [nextIsn, BitVec.toNat_shiftLeft, Nat.shiftLeft_eq]
  omega

/-! ## Peers -/

/-- The peer acknowledges only what was sent: an ACK number lies between `iss + 1` and the
highest sequence number sent so far, so none arrives before the SYN/ACK was sent. -/
def AcksSent (c : Conn) : Input → Prop
  | .packet s _ => s.isRst = false → s.isAck = true →
      1 ≤ (s.ack - c.tcb.iss).toNat ∧ (s.ack - c.tcb.iss).toNat ≤ c.trace.high
  | _ => True

instance (c : Conn) (i : Input) : Decidable (AcksSent c i) := by
  unfold AcksSent
  split <;> infer_instance

/-! ## Executions -/

instance (c : Conn) (i : Input) : Decidable (Transition.Always c i) :=
  inferInstanceAs (Decidable True)

/-- Execute inputs on a connection made by `syn` in a daemon without pending events. -/
def execFrom (ok : Conn → Input → Prop) [∀ c i, Decidable (ok c i)] (app : TcpCallback)
    (isn : Uint) (syn : Segment) (res : ConnectResult) (is : List Input) : Option Conn :=
  (handleSyn 0 app isn ⟨[], [], [], 0⟩ syn res).bind fun c => Transition.exec step ok c is

theorem Reached.tail {ok : Conn → Input → Prop} {i : Input} (h : Reached ok c) (hok : ok c i)
    (hstep : step c i = some c') : Reached ok c' := by
  obtain ⟨app, c₀, hstart, hrun⟩ := h
  exact ⟨app, c₀, hstart, hrun.tail hok hstep⟩

/-- Every address is fresh while nothing is registered. -/
theorem freshAddr_empty (self n : ℕ) : freshAddr self ⟨[], [], [], n⟩ := nofun

/-- What is computed about an execution holds of some connection reached. -/
theorem reached_of_exec {ok : Conn → Input → Prop} [∀ c i, Decidable (ok c i)]
    {app : TcpCallback} {isn : Uint} {syn : Segment} {res : ConnectResult} {is : List Input}
    {p : Conn → Bool} (h : (execFrom ok app isn syn res is).any p = true) :
    ∃ c, Reached ok c ∧ p c = true := by
  obtain ⟨c, hc, hp⟩ := (Option.any_eq_true p _).mp h
  obtain ⟨c₀, hstart, hrun⟩ := Option.bind_eq_some_iff.mp hc
  exact ⟨c, ⟨app, c₀, ⟨0, isn, _, syn, res, freshAddr_empty 0 0, hstart⟩,
    Transition.run_of_exec hrun⟩, hp⟩

/-- The SYN of a client whose sequence numbers start at 1000. -/
def clientSyn (wnd : BitVec 16) : Segment :=
  { seq := 1000, ack := 0, flags := 0x2, wnd, data := [] }

/-- A later segment of that client. -/
def client (seq ack : Uint) (flags : BitVec 6) (wnd : BitVec 16) (data : List Uchar) : Input :=
  .packet { seq, ack, flags, wnd, data } ⟨0, 0⟩

/-- The rest of the handshake once the IPv4 side is connected: the SYN/ACK is sent, and the
client acknowledges it. -/
def handshake : List Input := [.alwaysEvent 0 ⟨0, 0⟩, client 1001 0x10001 0x10 8192 []]

end Ptrtd
