import Ptrtd.Model.System
import Ptrtd.Verification.Session.Frame
import Ptrtd.Verification.Table.Correctness
import Ptrtd.Verification.Udp.Frame

/-! # The invariant of the daemon

Blocks, connections, events and descriptors fit together: an event belongs to a block that has
been made, to a UDP map or to the interface, a block that is allocated has its connection, and a
descriptor has one owner. -/

namespace Ptrtd

variable {ok : Conn → Input → Prop} {c c' : Conn} {ev ev' : EventLists}
  {a b : ℕ} {d : DataRef}

/-! ## What others do to a connection -/

theorem tcpOwns_inj (ha : tcpOwns a d = true) (hb : tcpOwns b d = true) : a = b := by
  simp only [tcpOwns, Bool.or_eq_true, decide_eq_true_eq] at ha hb
  rcases ha with rfl | rfl <;> simpa using hb.symm

theorem tcpOwns_of_udp (h : udpOwns d = true) : tcpOwns a d = false := by
  cases d <;> first | rfl | cases h

theorem udpOwns_of_tcp (h : tcpOwns a d = true) : udpOwns d = false := by
  cases d <;> first | rfl | cases h

theorem not_iface_of_udp (h : udpOwns d = true) : decide (d = .iface) = false := by
  cases d <;> first | rfl | cases h

theorem not_iface_of_tcp (h : tcpOwns a d = true) : decide (d = .iface) = false := by
  cases d <;> first | rfl | cases h

/-- Another owner's changes are changes by the rest of the daemon. -/
theorem othersChanged_of_changed (own : DataRef → Bool) (h : c.ev.Changed own ev)
    (hother : ∀ d, own d = true → tcpOwns c.self d = false) : othersChanged c ev :=
  ⟨h.next, (h.lists .time).others _ hother, (h.lists .fd).others _ hother,
    (h.lists .always).others _ hother⟩

theorem Tidy.others (h : Tidy c) (own : DataRef → Bool) (hev : c.ev.Changed own ev) :
    Tidy { c with ev := ev } :=
  ⟨hev.addressed h.addressed, fun k p hp =>
    (h.mine k p (by cases k <;> exact hp)).changed hev⟩

/-- The connection has been reached alone, and others have changed the lists since. It may have
been deleted before that. -/
def Past (ok : Conn → Input → Prop) (c : Conn) : Prop :=
  ∃ ev, Reached ok { c with ev } ∧ othersChanged { c with ev } c.ev

theorem Reached.past (h : Reached ok c) : Past ok c := ⟨c.ev, h, le_rfl, rfl, rfl, rfl⟩

theorem Past.others (h : Past ok c) (hev : othersChanged c ev) : Past ok { c with ev } := by
  obtain ⟨ev₀, hreach, hnext, htime, hfd, halways⟩ := h
  exact ⟨ev₀, hreach, hnext.trans hev.1, hev.2.1.trans htime, hev.2.2.1.trans hfd,
    hev.2.2.2.trans halways⟩

/-- As long as the block is there, what others do is an input of the connection. -/
theorem Past.reached (h : Past ok c) (hlive : c.live = true)
    (hothers : ∀ ev ev', ok { c with ev } (.others ev')) : Reached ok c := by
  obtain ⟨ev, hreach, hev⟩ := h
  refine hreach.tail (hothers ev c.ev) ?_
  rw [step.eq_def]
  dsimp only
  rw [if_pos hlive, if_pos hev]

/-! ## A new connection -/

theorem closeBoth_map (h : closeBoth c = some c') : c'.map = none := by
  obtain ⟨m, -, rfl⟩ := Option.map_eq_some_iff.mp (h : killMap _ = some c')
  rfl

/-- A new block with its map, before any event is registered. -/
def Conn.opening (self : ℕ) (isn : Uint) (ev : EventLists) (syn : Segment) (fd : ℤ) : Conn :=
  { Conn.fresh self .tcpMapCb isn ev syn with map := some ⟨fd, none, none⟩ }

theorem tidy_opening {self : ℕ} {isn : Uint} {syn : Segment} {fd : ℤ} (h : ev.Addressed) :
    Tidy (.opening self isn ev syn fd) := by
  refine ⟨h, fun k p hp => ?_⟩
  cases k with
  | time => cases hp
  | fd =>
      obtain ⟨m, hm, hp⟩ := hp
      obtain rfl := Option.some.inj hm
      rcases hp with hp | hp <;> cases hp
  | always => cases hp

/-- The block of a SYN and its map register events of their own only. -/
theorem kept_of_syn {self : ℕ} {isn : Uint} {syn : Segment} {res : ConnectResult}
    (haddr : ev.Addressed) (h : handleSyn self .tcpMapCb isn ev syn res = some c) :
    c.self = self ∧ ev.Changed (tcpOwns self) c.ev ∧ Tidy c ∧
      ∀ m, c.map = some m → ∃ fd : ℕ, (res = .connected fd ∨ res = .inProgress fd) ∧ m.fd = fd := by
  have hclosed : ∀ fd, closeBoth (.opening self isn ev syn fd) = some c → c.self = self ∧
      ev.Changed (tcpOwns self) c.ev ∧ Tidy c ∧ c.map = none := by
    intro fd hclose
    have hkept := Local.closeBoth hclose (tidy_opening haddr)
    exact ⟨hkept.self, hkept.ev, hkept.tidy, closeBoth_map hclose⟩
  rw [handleSyn] at h
  split at h
  · cases res with
    | noSocket =>
        obtain ⟨hself, hev, htidy, hmap⟩ := hclosed (-1) h
        exact ⟨hself, hev, htidy, fun m hm => by rw [hmap] at hm; cases hm⟩
    | connected fd =>
        obtain rfl := Option.some.inj h
        have htidy : Tidy (.opening self isn ev syn fd) := tidy_opening haddr
        have hkept := Local.tcpAccept _ htidy
        refine ⟨hkept.self, hkept.ev, hkept.tidy, fun m hm => ⟨fd, .inl rfl, ?_⟩⟩
        obtain ⟨_, _, _, -, heq⟩ := tcpAccept_eq (.opening self isn ev syn fd)
        have hmap : (tcpAccept (.opening self isn ev syn fd)).map = some ⟨fd, none, none⟩ := by
          rw [heq]
          rfl
        obtain rfl := Option.some.inj (hmap.symm.trans hm)
        rfl
    | inProgress fd =>
        obtain rfl := Option.some.inj h
        have hlocal : Local (.opening self isn ev syn fd)
            { Conn.opening self isn ev syn fd with
              ev := addFdEvent ev fd true .handleFdDidConnect (.tcpMap self)
              map := some ⟨fd, none, some ev.next⟩ } :=
          .socket rfl rfl rfl rfl rfl rfl (.inl rfl) (.inr rfl)
        have hkept := hlocal (tidy_opening haddr)
        refine ⟨rfl, hkept.ev, hkept.tidy, ?_⟩
        rintro m ⟨⟩
        exact ⟨fd, .inr rfl, rfl⟩
    | failed fd =>
        obtain ⟨hself, hev, htidy, hmap⟩ := hclosed fd h
        exact ⟨hself, hev, htidy, fun m hm => by rw [hmap] at hm; cases hm⟩
  · cases h

namespace Wire

open Table (TcbNode TableReached Formed)

/-! ## Descriptors -/

variable {m m' : Option TcpMap} {opened : ℤ → Bool} {fd : ℤ}

theorem reopen_of_ne (h : ∀ x, m = some x → x.fd ≠ fd) (h' : ∀ x, m' = some x → x.fd ≠ fd) :
    reopen m m' opened fd = opened fd := by
  have hnone : ∀ y : Option TcpMap, (∀ x, y = some x → x.fd ≠ fd) →
      ¬(y.any fun x => x.fd = fd) = true := by
    intro y hy hany
    obtain ⟨x, hx, hfd⟩ := (Option.any_eq_true _ _).mp hany
    exact hy x hx (of_decide_eq_true hfd)
  rw [reopen, if_neg (hnone m' h'), if_neg (hnone m h)]

theorem reopen_self {x : TcpMap} (h : m' = some x) : reopen m m' opened x.fd = true := by
  rw [reopen, h]
  exact if_pos (decide_eq_true rfl)

/-! ## The invariant -/

/-- What holds of the daemon in every run. -/
structure Whole (rb : Table.Rebalance) (ok : Conn → Input → Prop) (s : System) : Prop where
  table : TableReached rb s.tcbs
  formed : Formed s.tcbs
  addr : ∀ t ∈ s.tcbs.live, ∀ u ∈ s.tcbs.live, t.addr = u.addr → t = u
  self : ∀ a c, s.conn a = some c → c.self = a ∧ a < s.tcbs.next
  live : ∀ a c, s.conn a = some c → c.live = true →
    ∃ t ∈ s.tcbs.live, t.addr = a ∧ t.listening = false
  conn : ∀ t ∈ s.tcbs.live, t.listening = false → ∃ c, s.conn t.addr = some c ∧ c.live = true
  tidy : ∀ a c, s.get a = some c → Tidy c
  reached : ∀ a c, s.get a = some c → Past ok c
  data : ∀ k, ∀ e ∈ s.udp.ev.list k, ∀ a, tcpOwns a e.data = true → ∃ c, s.conn a = some c
  udp : ∃ u₀, UdpMem.Start u₀ ∧ Transition.Run udpMemStep Transition.Always u₀ s.udp
  opened : Opened s.udp
  socket : ∀ a c m, s.conn a = some c → c.map = some m →
    s.udp.opened m.fd = true ∧ owner m.fd s.udp.log = none
  apart : ∀ a b c c' m m', s.conn a = some c → s.conn b = some c' → c.map = some m →
    c'.map = some m' → m.fd = m'.fd → a = b
  iface : ∃ e fd, (s.udp.ev.fdEventList.filter fun x => x.data = .iface) = [e] ∧
    e.kind = .fd fd false ∧ e.func = .ifReadCallback ∧ s.udp.opened fd = true ∧
      owner fd s.udp.log = none ∧ ∀ a c m, s.conn a = some c → c.map = some m → m.fd ≠ fd
  only : ∀ k ≠ .fd, (s.udp.ev.list k).filter (fun x => x.data = .iface) = []

variable {rb : Table.Rebalance} {s : System}

theorem System.get_eq_some (h : s.get a = some c) :
    ∃ x, s.conn a = some x ∧ c = { x with ev := s.udp.ev } := by
  obtain ⟨x, hx, rfl⟩ := Option.map_eq_some_iff.mp h
  exact ⟨x, hx, rfl⟩

theorem Whole.maps (h : Whole rb ok s) : ∃ l, Maps s.udp l := by
  obtain ⟨u₀, hstart, hrun⟩ := h.udp
  obtain ⟨l, hmaps, -⟩ := hstart.maps_of_run hrun
  exact ⟨l, hmaps⟩

theorem Whole.addressed (h : Whole rb ok s) : s.udp.ev.Addressed := by
  obtain ⟨l, hmaps⟩ := h.maps
  exact hmaps.events.addressed

/-- Only the neighbors change. -/
theorem Whole.setNd (h : Whole rb ok s) (nd : Nd) : Whole rb ok { s with nd } :=
  ⟨h.table, h.formed, h.addr, h.self, h.live, h.conn, h.tidy, h.reached, h.data, h.udp, h.opened,
    h.socket, h.apart, h.iface, h.only⟩

/-- The UDP maps go on. -/
theorem Whole.setUdp (h : Whole rb ok s) {i : UdpMemInput} {udp : UdpMem}
    (hown : i.isOwn = true) (hudp : udpMemStep s.udp i = some udp) :
    Whole rb ok { s with udp } := by
  obtain ⟨l, hmaps⟩ := h.maps
  have hkept := hmaps.step_kept hown hudp
  have hget : ∀ a c, System.get { s with udp } a = some c → ∃ x, s.get a = some x ∧
      c = { x with ev := udp.ev } := by
    intro a c hc
    obtain ⟨x, hx, rfl⟩ := System.get_eq_some hc
    exact ⟨{ x with ev := s.udp.ev }, by rw [System.get, hx]; rfl, rfl⟩
  have hev : ∀ {a x}, s.get a = some x → x.ev = s.udp.ev := by
    intro a x hx
    obtain ⟨y, -, rfl⟩ := System.get_eq_some hx
    rfl
  refine ⟨h.table, h.formed, h.addr, h.self, h.live, h.conn, fun a c hc => ?_, fun a c hc => ?_,
    fun k e he a ha => ?_, ?_, h.opened.step hmaps hudp, fun a c m hc hm => ?_, h.apart, ?_,
    fun k hk => ?_⟩
  · obtain ⟨x, hx, rfl⟩ := hget a c hc
    exact (h.tidy a x hx).others udpOwns (by rw [hev hx]; exact hkept.ev)
  · obtain ⟨x, hx, rfl⟩ := hget a c hc
    refine (h.reached a x hx).others ?_
    refine othersChanged_of_changed udpOwns (by rw [hev hx]; exact hkept.ev) ?_
    exact fun d hd => tcpOwns_of_udp hd
  · rcases (hkept.ev.lists k).born e he with ⟨x, hx, -, hdata⟩ | ⟨hudpe, -⟩
    · exact h.data k x hx a (by rw [hdata]; exact ha)
    · rw [tcpOwns_of_udp hudpe] at ha
      cases ha
  · obtain ⟨u₀, hstart, hrun⟩ := h.udp
    exact ⟨u₀, hstart, hrun.tail trivial hudp⟩
  · obtain ⟨hopen, howner⟩ := h.socket a c m hc hm
    exact hkept.sockets m.fd hopen howner
  · obtain ⟨e, fd, he, hkind, hfunc, hopen, howner, hmaps⟩ := h.iface
    obtain ⟨hopen', howner'⟩ := hkept.sockets fd hopen howner
    refine ⟨e, fd, ?_, hkind, hfunc, hopen', howner', hmaps⟩
    exact ((hkept.ev.lists .fd).others (fun d => d = .iface) fun d => not_iface_of_udp).trans he
  · exact ((hkept.ev.lists k).others (fun d => d = .iface) fun d => not_iface_of_udp).trans
      (h.only k hk)

/-! ## A connection goes on -/

/-- The table after a block has been made, kept or freed, as its connection says. -/
structure TableAfter (rb : Table.Rebalance) (s : System) (a : ℕ) (c : Conn) (tcbs : Table.Tcbs) :
    Prop where
  table : TableReached rb tcbs
  formed : Formed tcbs
  next : s.tcbs.next ≤ tcbs.next
  lt : a < tcbs.next
  addr : ∀ t ∈ tcbs.live, ∀ u ∈ tcbs.live, t.addr = u.addr → t = u
  block : c.live = true → ∃ t ∈ tcbs.live, t.addr = a ∧ t.listening = false
  old : ∀ t ∈ tcbs.live, t.listening = false →
    t.addr = a ∧ c.live = true ∨ t.addr ≠ a ∧ t ∈ s.tcbs.live
  kept : ∀ t ∈ s.tcbs.live, t.addr ≠ a → t ∈ tcbs.live

/-- The socket of a connection afterwards: it had it before, or it has just been made. -/
def SocketAfter (s : System) (a : ℕ) (c : Conn) : Prop :=
  ∀ m, c.map = some m → (∃ x, (s.conn a).bind Conn.map = some x ∧ x.fd = m.fd) ∨
    (s.conn a).bind Conn.map = none ∧ s.udp.opened m.fd = false

/-- Descriptors of others stay as they are. -/
theorem reopen_eq (hsocket : SocketAfter s a c)
    (hopen : s.udp.opened fd = true)
    (hother : ∀ x, (s.conn a).bind Conn.map = some x → x.fd ≠ fd) :
    reopen ((s.conn a).bind Conn.map) c.map s.udp.opened fd = true := by
  rw [reopen_of_ne hother, hopen]
  intro m hm heq
  rcases hsocket m hm with ⟨x, hx, hfd⟩ | ⟨-, hclosed⟩
  · exact hother x hx (hfd.trans heq)
  · rw [heq, hopen] at hclosed
    cases hclosed

/-- A connection that has gone on, with its block, its events and its socket. -/
theorem Whole.goOn (h : Whole rb ok s) (hself : c.self = a)
    (hev : s.udp.ev.Changed (tcpOwns a) c.ev) (htidy : Tidy c)
    (hreached : Ptrtd.Reached ok c) (hsocket : SocketAfter s a c)
    {tcbs : Table.Tcbs} (htable : TableAfter rb s a c tcbs) {isn : Uint} {nd : Nd} {udp : Udp} :
    Whole rb ok (s.resume a ⟨tcbs, Function.update s.conn a (some c), c.ev, isn, udp, nd⟩) := by
  have hconn : ∀ {b x}, Function.update s.conn a (some c) b = some x →
      b = a ∧ x = c ∨ b ≠ a ∧ s.conn b = some x := by
    intro b x hx
    by_cases hb : b = a
    · subst hb
      rw [Function.update_self] at hx
      exact .inl ⟨rfl, (Option.some.inj hx).symm⟩
    · rw [Function.update_of_ne hb] at hx
      exact .inr ⟨hb, hx⟩
  have hold : ∀ {x}, (s.conn a).bind Conn.map = some x → ∃ y, s.conn a = some y ∧ y.map = some x :=
    fun hx => Option.bind_eq_some_iff.mp hx
  have hresume : s.resume a ⟨tcbs, Function.update s.conn a (some c), c.ev, isn, udp, nd⟩ =
      ⟨tcbs, Function.update s.conn a (some c), isn, { s.udp with
        ev := c.ev
        opened := reopen ((s.conn a).bind Conn.map) c.map s.udp.opened }, nd⟩ := by
    rw [System.resume]
    dsimp only
    rw [Function.update_self, Option.bind_some]
  rw [hresume]
  have hforeign : ∀ {d}, tcpOwns a d = true → ∀ b, b ≠ a → tcpOwns b d = false := by
    intro d hd b hb
    by_contra hown
    exact hb (tcpOwns_inj (Bool.of_not_eq_false hown) hd)
  -- a descriptor that is open and not the connection's stays open
  have hkeep : ∀ {fd}, s.udp.opened fd = true →
      (∀ y m, s.conn a = some y → y.map = some m → m.fd ≠ fd) →
      reopen ((s.conn a).bind Conn.map) c.map s.udp.opened fd = true := fun hopen hother =>
    reopen_eq hsocket hopen fun x hx => by
      obtain ⟨y, hy, hyx⟩ := hold hx
      exact hother y x hy hyx
  -- nor is the connection's socket the descriptor of another
  have hmine : ∀ {m}, c.map = some m → (∃ y x, s.conn a = some y ∧ y.map = some x ∧ x.fd = m.fd) ∨
      s.udp.opened m.fd = false := by
    intro m hm
    rcases hsocket m hm with ⟨x, hx, hfd⟩ | ⟨-, hclosed⟩
    · obtain ⟨y, hy, hyx⟩ := hold hx
      exact .inl ⟨y, x, hy, hyx, hfd⟩
    · exact .inr hclosed
  have hgot : ∀ {b x}, (Function.update s.conn a (some c) b).map (fun y => { y with ev := c.ev }) =
      some x → b = a ∧ x = c ∨ b ≠ a ∧ ∃ y, s.get b = some y ∧ y.ev = s.udp.ev ∧ y.self = b ∧
        x = { y with ev := c.ev } := by
    intro b x hx
    obtain ⟨y, hy, rfl⟩ := Option.map_eq_some_iff.mp hx
    rcases hconn hy with ⟨rfl, rfl⟩ | ⟨hb, hy⟩
    · exact .inl ⟨rfl, rfl⟩
    · refine .inr ⟨hb, { y with ev := s.udp.ev }, ?_, rfl, (h.self b y hy).1, rfl⟩
      rw [System.get, hy]
      rfl
  refine ⟨htable.table, htable.formed, htable.addr, fun b x hx => ?_, fun b x hx hlive => ?_,
    fun t ht hlisten => ?_, fun b x hx => ?_, fun b x hx => ?_, fun k e he b hb => ?_, ?_,
    fun fd howner => ?_, fun b x m hx hm => ?_, fun b b' x x' m m' hx hx' hm hm' hfd => ?_, ?_,
    fun k hk => ?_⟩
  · rcases hconn hx with ⟨rfl, rfl⟩ | ⟨-, hx⟩
    · exact ⟨hself, htable.lt⟩
    · exact ⟨(h.self b x hx).1, (h.self b x hx).2.trans_le htable.next⟩
  · rcases hconn hx with ⟨rfl, rfl⟩ | ⟨hb, hx⟩
    · exact htable.block hlive
    · obtain ⟨t, ht, haddr, hlisten⟩ := h.live b x hx hlive
      exact ⟨t, htable.kept t ht (haddr ▸ hb), haddr, hlisten⟩
  · rcases htable.old t ht hlisten with ⟨haddr, hlive⟩ | ⟨hne, ht⟩
    · exact ⟨c, by rw [haddr]; exact Function.update_self .., hlive⟩
    · obtain ⟨x, hx, hlive⟩ := h.conn t ht hlisten
      exact ⟨x, (Function.update_of_ne hne _ _).trans hx, hlive⟩
  · rcases hgot hx with ⟨-, rfl⟩ | ⟨-, y, hy, hyev, -, rfl⟩
    · exact htidy
    · exact (h.tidy b y hy).others (tcpOwns a) (hyev.symm ▸ hev)
  · rcases hgot hx with ⟨-, rfl⟩ | ⟨hb, y, hy, hyev, hyself, rfl⟩
    · exact hreached.past
    · refine (h.reached b y hy).others ?_
      refine othersChanged_of_changed (tcpOwns a) (hyev.symm ▸ hev) fun d hd => ?_
      rw [hyself]
      exact hforeign hd b hb
  · by_cases hba : b = a
    · exact ⟨c, by rw [hba]; exact Function.update_self ..⟩
    · rcases (hev.lists k).born e he with ⟨x, hx, -, hdata⟩ | ⟨hown, -⟩
      · obtain ⟨y, hy⟩ := h.data k x hx b (hdata ▸ hb)
        exact ⟨y, (Function.update_of_ne hba _ _).trans hy⟩
      · exact absurd (tcpOwns_inj hb hown) hba
  · obtain ⟨u₀, hstart, hrun⟩ := h.udp
    refine ⟨u₀, hstart, hrun.tail (i := .others c.ev _) trivial (if_pos ?_)⟩
    refine ⟨hev.next, hev.addressed h.addressed, fun k => ?_, fun x _ howner => ?_⟩
    · have hsame := (hev.lists k).others udpOwns fun d hd => udpOwns_of_tcp hd
      rw [List.filter_congr fun e _ => isUdp_eq e, hsame]
      exact List.filter_congr fun e _ => (isUdp_eq e).symm
    · rw [h.opened _ howner]
      refine hkeep (h.opened _ howner) fun y m hy hm heq => howner ?_
      rw [← heq]
      exact (h.socket a y m hy hm).2
  · refine hkeep (h.opened fd howner) fun y m hy hm heq => howner ?_
    rw [← heq]
    exact (h.socket a y m hy hm).2
  · rcases hconn hx with ⟨rfl, rfl⟩ | ⟨hb, hx⟩
    · refine ⟨reopen_self hm, ?_⟩
      rcases hmine hm with ⟨y, z, hy, hyz, hfd⟩ | hclosed
      · rw [← hfd]
        exact (h.socket b y z hy hyz).2
      · by_contra howner
        have hopen := h.opened m.fd howner
        rw [hclosed] at hopen
        cases hopen
    · obtain ⟨hopen, howner⟩ := h.socket b x m hx hm
      exact ⟨hkeep hopen fun y z hy hyz heq => hb (h.apart b a x y m z hx hy hm hyz heq.symm),
        howner⟩
  · -- a new socket is none that was open before
    have hnot : ∀ {b x m m'}, b ≠ a → s.conn b = some x → x.map = some m → c.map = some m' →
        m.fd ≠ m'.fd := by
      intro b x m m' hb hx hm hm' heq
      rcases hmine hm' with ⟨y, z, hy, hyz, hfd⟩ | hclosed
      · exact hb (h.apart b a x y m z hx hy hm hyz (heq.trans hfd.symm))
      · rw [← heq, (h.socket b x m hx hm).1] at hclosed
        cases hclosed
    rcases hconn hx with ⟨hba, hxc⟩ | ⟨hb, hxb⟩
    · rcases hconn hx' with ⟨hba', -⟩ | ⟨hb', hxb'⟩
      · exact hba.trans hba'.symm
      · exact absurd hfd.symm (hnot hb' hxb' hm' (hxc ▸ hm))
    · rcases hconn hx' with ⟨-, hxc'⟩ | ⟨-, hxb'⟩
      · exact absurd hfd (hnot hb hxb hm (hxc' ▸ hm'))
      · exact h.apart b b' x x' m m' hxb hxb' hm hm' hfd
  · obtain ⟨e, fd, he, hkind, hfunc, hopen, howner, hmaps⟩ := h.iface
    refine ⟨e, fd, ?_, hkind, hfunc, ?_, howner, fun b x m hx hm => ?_⟩
    · exact ((hev.lists .fd).others (fun d => d = .iface) fun d => not_iface_of_tcp).trans he
    · exact hkeep hopen fun y m hy hm => hmaps a y m hy hm
    · rcases hconn hx with ⟨rfl, rfl⟩ | ⟨-, hx⟩
      · rcases hmine hm with ⟨y, z, hy, hyz, hfd⟩ | hclosed
        · rw [← hfd]
          exact hmaps b y z hy hyz
        · rintro rfl
          rw [hopen] at hclosed
          cases hclosed
      · exact hmaps b x m hx hm
  · exact ((hev.lists k).others (fun d => d = .iface) fun d => not_iface_of_tcp).trans
      (h.only k hk)

end Wire

end Ptrtd
