import Ptrtd.Verification.Timer.References

/-! # The socket of a connection

A map has one socket for as long as there is a map, and its socket events wait on that socket. -/

namespace Ptrtd

variable {fd : ℤ} {a c c' : Conn} {i : Input} {now : Timeval}

/-- The map has this socket, and the socket events of the connection wait on it. -/
structure HasSocket (fd : ℤ) (c : Conn) : Prop where
  map : ∀ m, c.map = some m → m.fd = fd
  events : ∀ e ∈ c.ev.fdEventList, c.owns e = true → ∃ w, e.kind = .fd fd w

namespace HasSocket

/-- The map keeps its socket if it stays. Events only go, or wait on the socket. -/
theorem of_mem (h : HasSocket fd c) (hself : c'.self = c.self)
    (hmap : ∀ m, c'.map = some m → ∃ x, c.map = some x ∧ x.fd = m.fd)
    (hlist : ∀ e ∈ c'.ev.fdEventList, e ∈ c.ev.fdEventList ∨ ∃ w, e.kind = .fd fd w) :
    HasSocket fd c' := by
  refine ⟨fun m hm => ?_, fun e he hown => ?_⟩
  · obtain ⟨x, hx, hfd⟩ := hmap m hm
    exact hfd.symm.trans (h.map x hx)
  · rcases hlist e he with hold | hnew
    · exact h.events e hold (owns_congr hself ▸ hown)
    · exact hnew

theorem of_eq (h : HasSocket fd c) (hself : c'.self = c.self) (hmap : c'.map = c.map)
    (hlist : c'.ev.fdEventList = c.ev.fdEventList) : HasSocket fd c' :=
  h.of_mem hself (fun m hm => ⟨m, hmap ▸ hm, rfl⟩) fun _ he => .inl (hlist ▸ he)

/-- The map forgets an event. -/
theorem forget {m x : TcpMap} (h : HasSocket fd c) (hm : c.map = some m) (hfd : x.fd = m.fd) :
    HasSocket fd { c with map := some x } := by
  refine h.of_mem rfl ?_ fun _ he => .inl he
  rintro _ ⟨⟩
  exact ⟨m, hm, hfd.symm⟩

theorem fdStep (h : HasSocket fd c) (hstep : FdStep c c') : HasSocket fd c' := by
  cases hstep with
  | same hself hmap hlist _ _ => exact h.of_eq hself hmap hlist
  | @read m hm _ =>
      refine h.of_mem rfl ?_ fun e he => ?_
      · rintro _ ⟨⟩
        exact ⟨m, hm, rfl⟩
      · rcases List.mem_cons.mp he with rfl | hold
        · exact .inr ⟨false, by rw [← h.map m hm]⟩
        · exact .inl hold
  | @write m f hm _ _ =>
      refine h.of_mem rfl ?_ fun e he => ?_
      · rintro _ ⟨⟩
        exact ⟨m, hm, rfl⟩
      · rcases List.mem_cons.mp he with rfl | hold
        · exact .inr ⟨true, by rw [← h.map m hm]⟩
        · exact .inl hold
  | killed =>
      refine h.of_mem rfl (by rintro _ ⟨⟩) fun e he => .inl ?_
      exact Apart.removed_mem (Apart.removed_mem he)

theorem steps (h : HasSocket fd c) (hsteps : FdSteps c c') : HasSocket fd c' := by
  induction hsteps with
  | refl => exact h
  | tail _ hstep ih => exact ih.fdStep hstep

theorem read {len : ℤ} {d : List Uchar} (h : HasSocket fd c) (hread : tcpRead c len = some (a, d)) :
    HasSocket fd a := by
  obtain ⟨hself, hmap, hlist, -⟩ := tcpRead_fd hread
  exact h.of_eq hself hmap hlist

/-- A callback of the socket, and what `event_loop` unlinks after it. -/
theorem fdEvent {addr : ℕ} {io : Io} (h : HasSocket fd c) (hrun : runFdEvent c addr io = some c') :
    HasSocket fd c' := by
  obtain ⟨e, -, -, -, x, again, rfl, hcases⟩ := runFdEvent_cases hrun
  have hkept : ∀ {y : Conn} {m : TcpMap} {d : List Uchar}, c.map = some m →
      tcpRead c tbSize = some (y, d) → HasSocket fd y ∧ y.map = some m := fun hm hread => by
    obtain ⟨-, hmap, -⟩ := tcpRead_fd hread
    exact ⟨h.read hread, hmap.trans hm⟩
  have hx : HasSocket fd x := by
    rcases hcases with ⟨r, -, -, hcall⟩ | ⟨r, -, -, hcall⟩ | ⟨ok, -, -, hcall⟩
    · obtain ⟨m, hm, hcall⟩ := handleFdCanRead_cases hcall
      cases hcall with
      | full => exact h
      | again => exact h
      | closed _ hclose =>
          have hforget : HasSocket fd { c with map := some { m with eFdRead := none } } :=
            h.forget hm rfl
          exact hforget.steps (.closeBoth hclose)
      | @filled _ b _ hsend _ =>
          have hmap : b.map = some m := by
            obtain ⟨_, _, _, _, _, -, rfl⟩ := tcpSend_eq hsend
            exact hm
          exact (h.steps (.tcpSend hsend)).forget hmap rfl
      | sent _ hsend => exact h.steps (.tcpSend hsend)
    · obtain ⟨m, hm, hcall⟩ := handleFdCanWrite_cases hcall
      have hafter : ∀ d, (afterRead m d).fd = m.fd := fun d => by
        rw [afterRead]
        split <;> rfl
      cases hcall with
      | again _ hread =>
          obtain ⟨hy, hmap⟩ := hkept hm hread
          exact hy.forget hmap (hafter _)
      | closed _ hread hclose =>
          obtain ⟨hy, hmap⟩ := hkept hm hread
          have hforget := hy.forget (x := { m with eFdWrite := none }) hmap rfl
          exact hforget.steps (.closeBoth hclose)
      | wrote _ _ _ hread =>
          obtain ⟨hy, hmap⟩ := hkept hm hread
          exact (hy.forget hmap (hafter _)).of_eq rfl rfl rfl
    · obtain ⟨-, m, hm, hdone⟩ := handleFdDidConnect_cases hcall
      have hforget : HasSocket fd { c with map := some { m with eFdWrite := none } } :=
        h.forget hm rfl
      rcases hdone with ⟨-, rfl⟩ | ⟨-, hclose⟩
      · exact hforget.steps (.tcpAccept _)
      · exact hforget.steps (.closeBoth hclose)
  rw [finishFd]
  split
  · exact hx
  · exact hx.of_mem rfl (fun m hm => ⟨m, hm, rfl⟩) fun e he => .inl (mem_delEvent.mp he).1

theorem wrote {again : Bool} (h : HasSocket fd c) (hw : Wrote c now a again) : HasSocket fd a := by
  cases hw with
  | syn => exact h.of_eq rfl rfl rfl
  | nothing => exact h.of_eq rfl rfl rfl
  | @segment data b _ _ _ hb _ =>
      have hemit : FdSteps c b := hb ▸ .emitSegment c data _ now
      exact (h.steps hemit).of_eq rfl rfl rfl

theorem call {k : AppCall} (h : HasSocket fd c) (hcall : CallExact c k c') : HasSocket fd c' := by
  cases hcall with
  | accept => exact h.steps (.tcpAccept c)
  | send _ _ hsend => exact h.steps (.tcpSend hsend)
  | read hread => exact h.read hread
  | @close hard => exact h.steps (.tcpClose c hard)

theorem others {ev : EventLists} (h : HasSocket fd c) (hev : othersChanged c ev) :
    HasSocket fd { c with ev := ev } := by
  refine ⟨h.map, fun e he hown => ?_⟩
  have hmem : e ∈ ev.fdEventList.filter c.owns := List.mem_filter.mpr ⟨he, hown⟩
  rw [hev.2.2.1] at hmem
  exact h.events e (List.mem_filter.mp hmem).1 hown

theorem step (h : HasSocket fd c) (hwf : WellFormed c) (hstep : Ptrtd.step c i = some c') :
    HasSocket fd c' := by
  obtain ⟨-, hexact⟩ := step_exact hstep
  cases hexact with
  | @packet s now _ htcp =>
      have hr : HasSocket fd (c.receive s) := h.of_eq rfl rfl rfl
      exact hr.steps (.handleTcp (hwf.receive s) htcp)
  | timeEvent hrun =>
      obtain ⟨e, -, -, -, ⟨-, rfl⟩ | ⟨-, rfl⟩⟩ := runTimeEvent_cases hrun
      · exact (h.steps (.tcpTimeout c)).of_eq rfl rfl rfl
      · exact (h.steps (.tcpRemove c)).of_eq rfl rfl rfl
  | fdEvent hrun => exact h.fdEvent hrun
  | alwaysEvent hrun =>
      obtain ⟨e, -, -, -, b, again, hw, rfl⟩ := runAlwaysEvent_cases hrun
      split
      · exact h.wrote hw
      · exact (h.wrote hw).of_eq rfl rfl rfl
  | call _ hcall => exact h.call hcall
  | others hev => exact h.others hev

/-- The socket that the map is made with. -/
theorem exists_of_start {app : TcpCallback} (h : Start app c) : ∃ fd, HasSocket fd c := by
  obtain ⟨self, isn, ev, syn, hfresh, hopen⟩ := start_exact h
  have hnew : ∀ m fd, (∀ x, m = some x → x.fd = fd) →
      HasSocket fd { Conn.fresh self app isn ev syn with map := m } := by
    refine fun m fd hm => ⟨hm, fun e he hown => ?_⟩
    obtain ⟨htcb, hmap⟩ := hfresh e (by simp_all [Conn.fresh])
    rcases Bool.or_eq_true_iff.mp hown with hdata | hdata
    · exact absurd (of_decide_eq_true hdata) htcb
    · exact absurd (of_decide_eq_true hdata) hmap
  cases hopen with
  | other => exact ⟨0, hnew none 0 (by rintro _ ⟨⟩)⟩
  | @connected fd => exact ⟨fd, (hnew _ fd (by rintro _ ⟨⟩; rfl)).steps (.tcpAccept _)⟩
  | @inProgress fd =>
      have hmap := hnew (some ⟨fd, none, none⟩) fd (by rintro _ ⟨⟩; rfl)
      refine ⟨fd, hmap.of_mem rfl ?_ fun e he => ?_⟩
      · rintro _ ⟨⟩
        exact ⟨_, rfl, rfl⟩
      · rcases List.mem_cons.mp he with rfl | hold
        · exact .inr ⟨true, rfl⟩
        · exact .inl hold
  | @failed fd _ _ hclose =>
      exact ⟨fd, (hnew _ fd (by rintro _ ⟨⟩; rfl)).steps (.closeBoth hclose)⟩

/-- Every connection has one socket. -/
theorem exists_of_reached {ok : Conn → Input → Prop} (h : Reached ok c) : ∃ fd, HasSocket fd c :=
  h.run_invariant (fun _ _ => exists_of_start) fun _ _ _ hwf hinv _ hstep =>
    hinv.imp fun _ hsocket => hsocket.step hwf hstep

end HasSocket

end Ptrtd
