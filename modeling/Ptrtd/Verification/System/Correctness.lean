import Ptrtd.Verification.System.Events
import Ptrtd.Verification.System.Steps
import Ptrtd.Verification.Table.Lookup
import Ptrtd.Verification.Udp.RoundTrip

/-! # The parts of the daemon, together

In every run of the daemon each connection is in a state that it reaches alone, and so are the UDP
maps. What is proved of one of them is true of it among all the others.

The runs are those in which `event_loop` does to its lists what `EventLists` says: the peers
acknowledge only what was sent, and no socket callback is blocked, so that no event is unlinked
twice and none is run after its map has been freed. -/

namespace Ptrtd.Wire

open LinkedList
open SearchTree (inorder)
open Table (TcbNode Exact Formed)

variable {rb : Table.Rebalance} {iface : Iface} {ok : Conn → Input → Prop} {s s' : System}
  {c : Conn} {a b : ℕ} {i : SystemInput} {e : Event} {k : ListKind}

/-! ## Runs -/

/-- No SYN has the key of the listener. -/
def SparesListener : SystemInput → Prop
  | .fd _ (.frame r _ _ _ _ _) => ¬Table.WildcardSyn r.arrival
  | _ => True

/-- The peers acknowledge only what was sent, no socket callback is blocked, and no SYN has the key
of the listener. -/
def System.Sane (s : System) (i : SystemInput) : Prop := s.OnConns Cooperative i ∧ SparesListener i

theorem System.Reached.onConns (h : System.Reached rb iface System.Sane s) :
    System.Reached rb iface (System.OnConns Cooperative) s := by
  obtain ⟨s₀, hstart, hrun⟩ := h
  exact ⟨s₀, hstart, hrun.mono fun _ _ hok => hok.1⟩

/-- Every block stays in the table until it is deleted. -/
theorem Whole.exact_step (h : Whole rb ok s) (hlaw : rb.Lawful) (hexact : Exact s.tcbs)
    (hspare : SparesListener i) (hstep : s.step rb iface i = some s') : Exact s'.tcbs := by
  have hdelete : ∀ {tcbs tcbs' : Table.Tcbs} {t : TcbNode}, Formed tcbs → Exact tcbs →
      t ∈ tcbs.live → Table.tcbDelete rb tcbs t = some tcbs' → Exact tcbs' := by
    intro tcbs tcbs' t hformed hexact ht hdelete
    obtain ⟨u, hu, hnext, -⟩ := hformed.exact_tcbDelete hlaw hexact ht
    obtain rfl := Option.some.inj (hu.symm.trans hdelete)
    exact hnext
  cases h.went hstep with
  | neighbors => exact hexact
  | maps => exact hexact
  | conn _ ht _ _ _ _ _ hput =>
      obtain ⟨tcbs, rfl, ⟨-, rfl⟩ | ⟨-, hdel⟩⟩ := put_eq hput
      · exact hexact
      · exact hdelete h.formed hexact ht hdel
  | @syn r t _ _ _ _ _ _ _ _ _ hi _ _ hfind hlisten hflags _ hput =>
      subst hi
      obtain ⟨tcbs, rfl, htcbs⟩ := put_eq hput
      have hnew := (h.formed.exact_tcbNew hlaw hexact hfind hlisten hflags).mpr hspare
      have hformed : Formed (Table.tcbNew rb s.tcbs (some r.arrival.laddr) r.arrival.lport.toNat
          (some r.arrival.raddr) r.arrival.rport.toNat false) :=
        h.formed.after_new hlaw ⟨t, r.arrival.find_mem hfind, hlisten⟩
      rcases htcbs with ⟨-, rfl⟩ | ⟨-, hdel⟩
      · exact hnew
      · exact hdelete hformed hnew List.mem_cons_self hdel

theorem System.Reached.exact (hlaw : rb.Lawful) (hs : System.Reached rb iface System.Sane s) :
    Whole rb Cooperative s ∧ Exact s.tcbs := by
  obtain ⟨s₀, hstart, hrun⟩ := hs
  apply hrun.invariant
  · exact ⟨hstart.whole hlaw, hstart.tcbs ▸ Table.exact_tcpListen hlaw⟩
  · rintro s i s' ⟨hwhole, hexact⟩ ⟨hok, hspare⟩ hstep
    exact ⟨hwhole.step hlaw hok hstep, hwhole.exact_step hlaw hexact hspare hstep⟩

/-- The daemon when it has read its configuration: no connections, no maps, and an interface. -/
def System.init : System where
  tcbs := Table.tcpListen .plain
  conn := fun _ => none
  isn := 0
  udp :=
    { UdpMem.init with
      ev := ⟨[], [⟨0, .ifReadCallback, .iface, .fd 3 false⟩], [], 1⟩
      opened := fun fd => fd = 3 }
  nd := .init

theorem System.start_init : System.init.Start .plain := by
  have haddr : System.init.udp.ev.Addressed := by
    intro k
    cases k <;> decide +kernel
  refine ⟨rfl, fun _ => rfl, ⟨rfl, rfl, haddr, fun k e he => ?_, rfl, rfl, rfl⟩, rfl,
    ⟨0, 3, rfl, rfl⟩, rfl⟩
  cases k with
  | time => cases he
  | fd =>
      rw [List.mem_singleton.mp he]
      rfl
  | always => cases he

/-- A SYN from the router's port 1024 to port 80 of a host behind the prefix. -/
def synPacket : Recv where
  bytes := [0x60, 0, 0, 0, 0, 20, 6, 64] ++ otherlladdr.bytes ++ translated.bytes ++
    [4, 0, 0, 80, 0, 0, 0, 0, 0, 0, 0, 0, 0x50, 2, 0x20, 0, 0, 0, 0, 0]
  cap := 60
  fits := by decide

/-- The SYN arrives, and `connect` does not return at once. -/
def synFrame : SystemInput := .fd 0 (.frame synPacket 0 9 ⟨0, 0⟩ ⟨0, 0⟩ (.inProgress 5))

/-- A datagram arrives from a new client. -/
def queryFrame : SystemInput := .fd 0 (.frame query 0 6 ⟨0, 0⟩ ⟨0, 0⟩ .noSocket)

theorem System.Reached.inSpace (hs : System.Reached .plain tapIface System.Sane s)
    (hall : ∀ a < s.tcbs.next, (s.conn a).all (fun c => InSpace c) = true) :
    ∀ a c, s.conn a = some c → InSpace c := by
  intro a c hc
  have hlt := ((hs.onConns.whole Table.Rebalance.lawful_plain).self a c hc).2
  have hcheck := hall a hlt
  rw [hc] at hcheck
  exact of_decide_eq_true hcheck

/-- A client that opens a connection and sends a datagram. -/
theorem exists_served : ∃ s s', System.Reached .plain tapIface System.Sane s ∧
    s.step .plain tapIface queryFrame = some s' ∧
      System.Reached .plain tapIface System.Sane s' ∧
        s.concerns queryFrame = none ∧ (s.get 1).any Conn.live = true ∧
          (∀ a c, s'.conn a = some c → InSpace c) ∧
            s'.udp.ev.fdEventList.map Event.data = [.udpMap 0, .tcpMap 1, .iface] ∧
              (s'.get 1).any Conn.live = true ∧ System.Sane s queryFrame := by
  have hfirst : (System.init.step .plain tapIface synFrame).any (fun s =>
      s.concerns queryFrame = none ∧ (s.get 1).any Conn.live = true ∧
        (∀ a < s.tcbs.next, (s.conn a).all (fun c => InSpace c) = true) ∧
          (s.step .plain tapIface queryFrame).any (fun s' =>
            s'.udp.ev.fdEventList.map Event.data = [.udpMap 0, .tcpMap 1, .iface] ∧
              (∀ a < s'.tcbs.next, (s'.conn a).all (fun c => InSpace c) = true) ∧
                (s'.get 1).any Conn.live = true) = true) = true := by
    decide +kernel
  have hsyn : ¬Table.WildcardSyn synPacket.arrival := by decide +kernel
  have hquery : ¬Table.WildcardSyn query.arrival := by decide +kernel
  obtain ⟨s, hs, hall⟩ := (Option.any_eq_true _ _).mp hfirst
  obtain ⟨hnone, hlive, hspace, hsecond⟩ := of_decide_eq_true hall
  obtain ⟨s', hs', hall'⟩ := (Option.any_eq_true _ _).mp hsecond
  obtain ⟨hevents, hspace', hlive'⟩ := of_decide_eq_true hall'
  have hstart : System.Sane System.init synFrame :=
    ⟨⟨fun _ _ _ _ hc => (by cases hc), fun _ _ hc => (by cases hc)⟩, hsyn⟩
  have hreach : System.Reached .plain tapIface System.Sane s :=
    ⟨_, System.start_init, .single hstart hs⟩
  have hnext : System.Sane s queryFrame := by
    refine ⟨⟨fun a c j hj => ?_, fun a c hc _ ev ev' => ?_⟩, hquery⟩
    · rw [hnone] at hj
      cases hj
    · obtain ⟨x, hx, rfl⟩ := System.get_eq_some hc
      exact ⟨hreach.inSpace hspace a x hx, trivial⟩
  obtain ⟨s₀, hinit, hrun⟩ := hreach
  have hreach' : System.Reached .plain tapIface System.Sane s' := ⟨s₀, hinit, hrun.tail hnext hs'⟩
  exact ⟨s, s', ⟨s₀, hinit, hrun⟩, hs', hreach', hnone, hlive, hreach'.inSpace hspace', hevents,
    hlive', hnext⟩

/-! ## One connection among the others -/

/-- A connection of the daemon is in a state that it reaches alone, and its block is in the
table. -/
theorem connection_alone (hlaw : rb.Lawful) (hs : System.Reached rb iface System.Sane s)
    (hc : s.get a = some c) (hlive : c.live = true) (hspace : InSpace c) :
    Ptrtd.Reached Cooperative c ∧ c.self = a ∧
      ∃ t ∈ inorder s.tcbs.root, t.addr = a ∧ t.listening = false := by
  obtain ⟨h, hexact⟩ := hs.exact hlaw
  obtain ⟨x, hx, rfl⟩ := System.get_eq_some hc
  obtain ⟨t, ht, hblock⟩ := h.live a x hx hlive
  have hreach := (h.reached a _ hc).reached hlive fun _ _ => ⟨hspace, trivial⟩
  exact ⟨hreach, (h.self a x hx).1, t, (hexact t).mpr ht, hblock⟩

theorem connection_alone_served : ∃ s c, System.Reached .plain tapIface System.Sane s ∧
    s.get 1 = some c ∧ Ptrtd.Reached Cooperative c ∧ c.self = 1 ∧
      ∃ t ∈ inorder s.tcbs.root, t.addr = 1 ∧ t.listening = false := by
  obtain ⟨-, s, -, -, hs, -, -, hspace, -, hlive, -⟩ := exists_served
  obtain ⟨c, hc, hlive⟩ := (Option.any_eq_true _ _).mp hlive
  obtain ⟨x, hx, rfl⟩ := System.get_eq_some hc
  have hin : InSpace { x with ev := s.udp.ev } := hspace 1 x hx
  exact ⟨s, _, hs, hc, connection_alone Table.Rebalance.lawful_plain hs hc hlive hin⟩

/-- What holds of every connection that is reached alone, and is none of the others' business,
holds of every connection of the daemon, also after it has been deleted. -/
theorem Whole.lift {p : Conn → Prop} (h : Whole rb ok s) (hc : s.get a = some c)
    (hp : ∀ ev, Ptrtd.Reached ok { c with ev } → p { c with ev })
    (hothers : ∀ ev ev', p { c with ev } → othersChanged { c with ev } ev' →
      p { c with ev := ev' }) : p c := by
  obtain ⟨ev, hreach, hev⟩ := h.reached a c hc
  exact hothers ev c.ev (hp ev hreach) hev

/-! ## Separation -/

/-- A step has left a connection alone: its state, its events, its socket and its block. -/
structure Untouched (s s' : System) (b : ℕ) : Prop where
  conn : s'.conn b = s.conn b
  events : ∀ c, s.get b = some c → othersChanged c s'.udp.ev
  socket : ∀ c m, s.conn b = some c → c.map = some m → s'.udp.opened m.fd = true
  block : ∀ t ∈ s.tcbs.live, t.addr = b → t ∈ s'.tcbs.live

/-- Another connection goes on. -/
theorem Whole.untouched_of_resume (h : Whole rb ok s) {tcbs : Table.Tcbs} {isn : Uint} {udp : Udp}
    {nd : Nd} (hev : s.udp.ev.Changed (tcpOwns a) c.ev) (hsocket : SocketAfter s a c)
    (hkept : ∀ t ∈ s.tcbs.live, t.addr ≠ a → t ∈ tcbs.live) (hne : b ≠ a) :
    Untouched s (s.resume a ⟨tcbs, Function.update s.conn a (some c), c.ev, isn, udp, nd⟩) b := by
  refine ⟨Function.update_of_ne hne _ _, fun x hx => ?_, fun x m hx hm => ?_, fun t ht hb =>
    hkept t ht fun heq => hne (hb.symm.trans heq)⟩
  · obtain ⟨y, hy, rfl⟩ := System.get_eq_some hx
    refine othersChanged_of_changed (tcpOwns a) hev fun d hd => ?_
    dsimp only
    rw [(h.self b y hy).1]
    by_contra hown
    exact hne (tcpOwns_inj (Bool.of_not_eq_false hown) hd)
  · have hopen := (h.socket b x m hx hm).1
    rw [System.resume]
    dsimp only
    rw [Function.update_self, Option.bind_some]
    refine reopen_eq hsocket hopen fun z hz heq => hne ?_
    obtain ⟨w, hw, hwz⟩ := Option.bind_eq_some_iff.mp hz
    exact h.apart b a x w m z hx hw hm hwz heq.symm

/-- The UDP maps go on. -/
theorem Whole.untouched_of_maps (h : Whole rb ok s) {j : UdpMemInput} {udp : UdpMem}
    (hown : j.isOwn = true) (hudp : udpMemStep s.udp j = some udp) :
    Untouched s { s with udp } b := by
  obtain ⟨l, hmaps⟩ := h.maps
  have hkept := hmaps.step_kept hown hudp
  refine ⟨rfl, fun x hx => ?_, fun x m hx hm => ?_, fun t ht _ => ht⟩
  · obtain ⟨y, -, rfl⟩ := System.get_eq_some hx
    exact othersChanged_of_changed udpOwns hkept.ev fun d hd => tcpOwns_of_udp hd
  · obtain ⟨hopen, howner⟩ := h.socket b x m hx hm
    exact (hkept.sockets m.fd hopen howner).1

/-- Only the neighbors change. -/
theorem Whole.untouched_of_neighbors (h : Whole rb ok s) (nd : Nd) :
    Untouched s { s with nd } b := by
  refine ⟨rfl, fun x hx => ?_, fun x m hx hm => (h.socket b x m hx hm).1, fun t ht _ => ht⟩
  obtain ⟨y, -, rfl⟩ := System.get_eq_some hx
  exact ⟨le_rfl, rfl, rfl, rfl⟩

/-- The block of another connection goes on, with its socket and the table. -/
theorem Whole.untouched_of_conn (h : Whole rb ok s) (hlaw : rb.Lawful) {t : TcbNode}
    {c c' : Conn} {j : Input} {d : Daemon} (ht : t ∈ s.tcbs.live) (hlisten : t.listening = false)
    (hc : s.get t.addr = some c) (hown : j.isOwn = true) (hnext : Ptrtd.step c j = some c')
    (hput : s.daemon.put rb t c' = some d) (hne : b ≠ t.addr) :
    Untouched s (s.resume t.addr d) b := by
  obtain ⟨tcbs, rfl, htcbs⟩ := put_eq hput
  obtain ⟨-, hev, -, hsocket⟩ := h.kept_of_step hc hown hnext
  have htable := tableAfter_of_put hlaw h.table h.formed le_rfl h.addr ht hlisten
    (fun u hu => .inr hu) (fun u hu => hu) htcbs
  exact h.untouched_of_resume hev hsocket htable.kept hne

theorem Whole.untouched (h : Whole rb ok s) (hlaw : rb.Lawful)
    (hstep : s.step rb iface i = some s') (hother : ∀ j, s.concerns i ≠ some (b, j)) :
    Untouched s s' b := by
  cases h.went hstep with
  | neighbors nd => exact h.untouched_of_neighbors nd
  | maps hown hudp => exact h.untouched_of_maps hown hudp
  | conn hconcerns ht hlisten hc _ hown hnext hput =>
      exact h.untouched_of_conn hlaw ht hlisten hc hown hnext hput fun hb =>
        hother _ (hb ▸ hconcerns)
  | syn _ hconcerns hfresh hfind hlisten hflags hsyn hput =>
      obtain ⟨-, hev, -, hsocket⟩ := h.kept_of_syn hfresh hsyn
      obtain ⟨tcbs, rfl, htable⟩ := h.table_of_syn hlaw hfind hlisten hflags hput
      exact h.untouched_of_resume hev hsocket htable.kept fun hb => hother _ (hb ▸ hconcerns)

/-- A step that is not for a connection leaves it alone, whatever else the daemon does: the other
connections, the maps and the neighbors. Its block stays in the table. -/
theorem connections_apart (hlaw : rb.Lawful) (hs : System.Reached rb iface System.Sane s)
    (hi : s.Sane i) (hstep : s.step rb iface i = some s')
    (hother : ∀ j, s.concerns i ≠ some (b, j)) :
    Untouched s s' b ∧
      ∀ t ∈ inorder s.tcbs.root, t.addr = b → t ∈ inorder s'.tcbs.root := by
  obtain ⟨h, hexact⟩ := hs.exact hlaw
  have huntouched := h.untouched hlaw hstep hother
  refine ⟨huntouched, fun t ht haddr => ?_⟩
  have hkept := huntouched.block t ((hexact t).mp ht) haddr
  exact (h.exact_step hlaw hexact hi.2 hstep t).mpr hkept

theorem connections_apart_query : ∃ s s', System.Reached .plain tapIface System.Sane s ∧
    s.step .plain tapIface queryFrame = some s' ∧ (s.get 1).any Conn.live = true ∧
      Untouched s s' 1 ∧ ∀ t ∈ inorder s.tcbs.root, t.addr = 1 → t ∈ inorder s'.tcbs.root := by
  obtain ⟨s, s', hs, hstep, -, hnone, hlive, -, -, -, hquery⟩ := exists_served
  refine ⟨s, s', hs, hstep, hlive,
    connections_apart Table.Rebalance.lawful_plain hs hquery hstep ?_⟩
  intro j hj
  rw [hnone] at hj
  cases hj

/-! ## The UDP maps among the connections -/

/-- The UDP maps of the daemon are in a state that they reach alone. -/
theorem maps_alone (hlaw : rb.Lawful)
    (hs : System.Reached rb iface (System.OnConns Cooperative) s) :
    ∃ u₀, UdpMem.Start u₀ ∧ Transition.Run udpMemStep Transition.Always u₀ s.udp :=
  (hs.whole hlaw).udp

theorem maps_alone_query : ∃ s, System.Reached .plain tapIface System.Sane s ∧
    s.udp.ev.fdEventList.map Event.data = [.udpMap 0, .tcpMap 1, .iface] ∧
      ∃ u₀, UdpMem.Start u₀ ∧ Transition.Run udpMemStep Transition.Always u₀ s.udp := by
  obtain ⟨-, s, -, -, hs, -, -, -, hevents, -⟩ := exists_served
  exact ⟨s, hs, hevents, maps_alone Table.Rebalance.lawful_plain hs.onConns⟩

/-! ## Descriptors -/

/-- Who has a descriptor: the interface, the map of a connection or a UDP map. -/
def System.Holds (s : System) (fd : ℤ) : DataRef → Prop
  | .iface => ∃ e ∈ s.udp.ev.fdEventList, e.data = .iface ∧ e.kind = .fd fd false
  | .tcpMap a => ∃ c m, s.conn a = some c ∧ c.map = some m ∧ m.fd = fd
  | .udpMap um => ∃ l, IsList s.udp.links s.udp.ulist l ∧ um ∈ l ∧ (s.udp.cell um).map.fd = fd
  | .tcb _ => False

/-- The UDP maps as the invariant of the maps has them. -/
theorem Maps.holds_iff {l : List ℕ} {fd : ℤ} {um : ℕ} (h : Maps s.udp l) :
    s.Holds fd (.udpMap um) ↔ um ∈ l ∧ (s.udp.cell um).map.fd = fd := by
  constructor
  · rintro ⟨l', hlist, hum, hfd⟩
    exact ⟨hlist.unique h.isList ▸ hum, hfd⟩
  · rintro ⟨hum, hfd⟩
    exact ⟨l, h.isList, hum, hfd⟩

/-- The interface has one descriptor, which is open and nobody else's. -/
theorem Whole.iface_holds (h : Whole rb ok s) {fd : ℤ} (hfd : s.Holds fd .iface) :
    s.udp.opened fd = true ∧ owner fd s.udp.log = none ∧
      ∀ a c m, s.conn a = some c → c.map = some m → m.fd ≠ fd := by
  obtain ⟨x, hx, hdata, hkind⟩ := hfd
  obtain ⟨e, fd', hlist, hkind', -, hrest⟩ := h.iface
  have hmem : x ∈ s.udp.ev.fdEventList.filter fun x => x.data = .iface :=
    List.mem_filter.mpr ⟨hx, decide_eq_true hdata⟩
  rw [hlist, List.mem_singleton] at hmem
  rw [hmem, hkind'] at hkind
  cases hkind
  exact hrest

/-- Descriptors are open for as long as somebody has them, and nobody shares one: no two
connections, no two UDP maps, nor any of these with each other or with the interface. -/
theorem descriptors_owned (hlaw : rb.Lawful)
    (hs : System.Reached rb iface (System.OnConns Cooperative) s) :
    (∀ fd d, s.Holds fd d → s.udp.opened fd = true) ∧
      ∀ fd d d', s.Holds fd d → s.Holds fd d' → d = d' := by
  have h := hs.whole hlaw
  obtain ⟨l, hmaps⟩ := h.maps
  have howner : ∀ {fd um}, s.Holds fd (.udpMap um) → owner fd s.udp.log ≠ none := by
    intro fd um hum
    obtain ⟨hmem, rfl⟩ := hmaps.holds_iff.mp hum
    rw [hmaps.owned um hmem]
    nofun
  have htcp : ∀ {fd a}, s.Holds fd (.tcpMap a) → owner fd s.udp.log = none := by
    rintro fd a ⟨c, m, hc, hm, rfl⟩
    exact (h.socket a c m hc hm).2
  have hiface : ∀ {fd a}, s.Holds fd .iface → ¬s.Holds fd (.tcpMap a) := by
    rintro fd a hfd ⟨c, m, hc, hm, heq⟩
    exact (h.iface_holds hfd).2.2 a c m hc hm heq
  refine ⟨fun fd d hd => ?_, fun fd d d' hd hd' => ?_⟩
  · cases d with
    | tcb => exact hd.elim
    | tcpMap a =>
        obtain ⟨c, m, hc, hm, rfl⟩ := hd
        exact (h.socket a c m hc hm).1
    | udpMap um =>
        obtain ⟨hmem, rfl⟩ := hmaps.holds_iff.mp hd
        exact hmaps.opened um hmem
    | iface => exact (h.iface_holds hd).1
  · cases d with
    | tcb => exact hd.elim
    | tcpMap a =>
        cases d' with
        | tcb => exact hd'.elim
        | tcpMap b =>
            obtain ⟨c, m, hc, hm, hfd⟩ := hd
            obtain ⟨c', m', hc', hm', hfd'⟩ := hd'
            rw [h.apart a b c c' m m' hc hc' hm hm' (hfd.trans hfd'.symm)]
        | udpMap => exact absurd (htcp hd) (howner hd')
        | iface => exact absurd hd (hiface hd')
    | udpMap um =>
        cases d' with
        | tcb => exact hd'.elim
        | tcpMap => exact absurd (htcp hd') (howner hd)
        | udpMap um' =>
            obtain ⟨hmem, hfd⟩ := hmaps.holds_iff.mp hd
            obtain ⟨hmem', hfd'⟩ := hmaps.holds_iff.mp hd'
            rw [List.inj_on_of_nodup_map hmaps.sockets hmem hmem' (hfd.trans hfd'.symm)]
        | iface => exact absurd (h.iface_holds hd').2.1 (howner hd)
    | iface =>
        cases d' with
        | tcb => exact hd'.elim
        | tcpMap => exact absurd hd' (hiface hd)
        | udpMap => exact absurd (h.iface_holds hd).2.1 (howner hd')
        | iface => rfl

theorem descriptors_owned_served : ∃ s, System.Reached .plain tapIface System.Sane s ∧
    s.udp.ev.fdEventList.map Event.data = [.udpMap 0, .tcpMap 1, .iface] ∧
      (∀ fd d, s.Holds fd d → s.udp.opened fd = true) ∧
        ∀ fd d d', s.Holds fd d → s.Holds fd d' → d = d' := by
  obtain ⟨-, s, -, -, hs, -, -, -, hevents, -⟩ := exists_served
  exact ⟨s, hs, hevents, descriptors_owned Table.Rebalance.lawful_plain hs.onConns⟩

/-! ## Events -/

/-- What an event that is registered refers to is there and knows the event, and the event calls a
function of its own kind. A socket event waits on a descriptor of its owner. -/
def System.Backed (s : System) (k : ListKind) (e : Event) : Prop :=
  match e.data with
  | .tcb a => ∃ c, s.conn a = some c ∧ c.live = true ∧
      (k = .time ∧ c.tcb.eTimeout = some e.addr ∧ (e.func = .tcpTimeout ∨ e.func = .tcpRemove) ∨
        k = .always ∧ c.tcb.eTcbSend = some e.addr ∧ e.func = .doTcbWrite)
  | .tcpMap a => k = .fd ∧ ∃ c m, s.conn a = some c ∧ c.live = true ∧ c.map = some m ∧
      (m.eFdRead = some e.addr ∧ e.kind = .fd m.fd false ∧ e.func = .handleFdCanRead ∨
        m.eFdWrite = some e.addr ∧ e.kind = .fd m.fd true ∧
          (e.func = .handleFdCanWrite ∨ e.func = .handleFdDidConnect))
  | .udpMap um => ∃ l, IsList s.udp.links s.udp.ulist l ∧ um ∈ l ∧
      (k = .fd ∧ (s.udp.cell um).eFdRead = e.addr ∧
          e.kind = .fd (s.udp.cell um).map.fd false ∧ e.func = .handleUdpRead ∨
        k = .time ∧ (s.udp.cell um).eStale = e.addr ∧ e.func = .removeUdpMap)
  | .iface => k = .fd ∧ (∃ fd, e.kind = .fd fd false ∧ s.udp.opened fd = true) ∧
      e.func = .ifReadCallback

theorem Maps.backed {l : List ℕ} {um : ℕ} (h : Maps s.udp l) (he : e ∈ s.udp.ev.list k)
    (hdata : e.data = .udpMap um) : s.Backed k e := by
  rw [System.Backed, hdata]
  have hudp : isUdp e = true := by rw [isUdp, hdata]
  cases k with
  | time =>
      obtain ⟨hum, hfunc, -⟩ := h.events.stale.only e he um hdata
      have hptr := (h.events.stale.points um hum).eq_some he (decide_eq_true hdata)
      exact ⟨l, h.isList, hum, .inr ⟨rfl, Option.some.inj hptr, hfunc⟩⟩
  | fd =>
      obtain ⟨hum, hfunc, hkind⟩ := h.events.read.only e he um hdata
      have hptr := (h.events.read.points um hum).eq_some he (decide_eq_true hdata)
      exact ⟨l, h.isList, hum, .inl ⟨rfl, Option.some.inj hptr, hkind, hfunc⟩⟩
  | always =>
      rw [h.events.always e he] at hudp
      cases hudp

theorem Whole.backed (h : Whole rb Cooperative s)
    (hspace : ∀ a c, s.conn a = some c → c.live = true → InSpace c) :
    ∀ k, ∀ e ∈ s.udp.ev.list k, s.Backed k e := by
  obtain ⟨l, hmaps⟩ := h.maps
  have hbacks : ∀ a c, s.conn a = some c →
      Backs { c with ev := s.udp.ev } ∧ c.self = a := by
    intro a c hc
    have hget : s.get a = some { c with ev := s.udp.ev } := by
      rw [System.get, hc]
      rfl
    refine ⟨h.lift hget (fun ev hreach => ?_) fun _ _ hb hev => hb.others hev, (h.self a c hc).1⟩
    exact .of_reached hreach fun hlive => hspace a c hc hlive
  intro k e he
  cases hdata : e.data with
  | tcb a =>
      have hown : tcpOwns a e.data = true := by rw [hdata]; exact tcpOwns_tcb a
      obtain ⟨c, hc⟩ := h.data k e he a hown
      obtain ⟨hb, rfl⟩ := hbacks a c hc
      rw [System.Backed, hdata]
      cases k with
      | time =>
          obtain ⟨hlive, -, hptr, hfunc⟩ := hb.time e he hown
          exact ⟨c, hc, hlive, .inl ⟨rfl, hptr, hfunc⟩⟩
      | fd =>
          obtain ⟨-, hmap, -⟩ := hb.fd e he hown
          rw [hdata] at hmap
          cases hmap
      | always =>
          obtain ⟨hlive, -, hptr, hfunc⟩ := hb.always e he hown
          exact ⟨c, hc, hlive, .inr ⟨rfl, hptr, hfunc⟩⟩
  | tcpMap a =>
      have hown : tcpOwns a e.data = true := by rw [hdata]; exact tcpOwns_tcpMap a
      obtain ⟨c, hc⟩ := h.data k e he a hown
      obtain ⟨hb, rfl⟩ := hbacks a c hc
      rw [System.Backed, hdata]
      cases k with
      | time =>
          obtain ⟨-, htcb, -⟩ := hb.time e he hown
          rw [hdata] at htcb
          cases htcb
      | fd =>
          obtain ⟨hlive, -, m, hm, hcase⟩ := hb.fd e he hown
          exact ⟨rfl, c, m, hc, hlive, hm, hcase⟩
      | always =>
          obtain ⟨-, htcb, -⟩ := hb.always e he hown
          rw [hdata] at htcb
          cases htcb
  | udpMap um => exact hmaps.backed he hdata
  | iface =>
      obtain rfl : k = .fd := by
        by_contra hk
        exact List.filter_eq_nil_iff.mp (h.only k hk) e he (decide_eq_true hdata)
      obtain ⟨x, fd, hlist, hkind, hfunc, hopen, -⟩ := h.iface
      have hmem : e ∈ s.udp.ev.fdEventList.filter fun x => x.data = .iface :=
        List.mem_filter.mpr ⟨he, decide_eq_true hdata⟩
      rw [hlist, List.mem_singleton] at hmem
      rw [System.Backed, hdata]
      exact ⟨rfl, ⟨fd, hmem ▸ hkind, hopen⟩, hmem ▸ hfunc⟩

/-- No event of the daemon dangles: whatever the order in which packets arrive, sockets become
ready and timers run out, every event that is registered belongs to something that is still there
and has stored it. -/
theorem events_backed (hlaw : rb.Lawful)
    (hs : System.Reached rb iface (System.OnConns Cooperative) s)
    (hspace : ∀ a c, s.conn a = some c → c.live = true → InSpace c) :
    ∀ k, ∀ e ∈ s.udp.ev.list k, s.Backed k e :=
  (hs.whole hlaw).backed hspace

theorem events_backed_served : ∃ s, System.Reached .plain tapIface System.Sane s ∧
    s.udp.ev.fdEventList.map Event.data = [.udpMap 0, .tcpMap 1, .iface] ∧
      ∀ k, ∀ e ∈ s.udp.ev.list k, s.Backed k e := by
  obtain ⟨-, s, -, -, hs, -, -, hspace, hevents, -⟩ := exists_served
  exact ⟨s, hs, hevents, events_backed Table.Rebalance.lawful_plain hs.onConns
    fun a c hc _ => hspace a c hc⟩

end Ptrtd.Wire
