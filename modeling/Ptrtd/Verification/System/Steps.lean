import Ptrtd.Verification.System.Invariant

/-! # The steps of the daemon

Each input of the daemon is an input of one connection, of the UDP maps or of the neighbors, and
for all others a change elsewhere. -/

namespace Ptrtd.Wire

open Table (TcbNode TableReached Formed)

variable {rb : Table.Rebalance} {iface : Iface} {ok : Conn → Input → Prop} {s s' : System}
  {c c' : Conn} {t : TcbNode} {a : ℕ} {i : Input} {r : Recv} {now : Timeval} {res : ConnectResult}
  {tcbs tcbs' : Table.Tcbs} {d d' : Daemon}

/-! ## The table -/

theorem put_eq (h : d.put rb t c = some d') : ∃ tcbs,
    d' = ⟨tcbs, Function.update d.conn t.addr (some c), c.ev, d.isn, d.udp, d.nd⟩ ∧
      (c.live = true ∧ tcbs = d.tcbs ∨
        c.live = false ∧ Table.tcbDelete rb d.tcbs t = some tcbs) := by
  rw [Daemon.put] at h
  dsimp only at h
  split at h
  · next hlive =>
      obtain rfl := Option.some.inj h
      exact ⟨d.tcbs, rfl, .inl ⟨hlive, rfl⟩⟩
  · next hlive =>
      obtain ⟨tcbs, hdelete, rfl⟩ := Option.map_eq_some_iff.mp h
      exact ⟨tcbs, rfl, .inr ⟨Bool.eq_false_iff.mpr hlive, hdelete⟩⟩

theorem tcbDelete_live (h : Table.tcbDelete rb tcbs t = some tcbs') :
    tcbs'.live = tcbs.live.erase t ∧ tcbs'.next = tcbs.next := by
  obtain ⟨-, -, rfl⟩ := Option.map_eq_some_iff.mp h
  exact ⟨rfl, rfl⟩

/-- The block stays while its connection does. -/
theorem tableAfter_of_put (hlaw : rb.Lawful) (htable : TableReached rb tcbs)
    (hformed : Formed tcbs) (hnext : s.tcbs.next ≤ tcbs.next)
    (haddr : ∀ t ∈ tcbs.live, ∀ u ∈ tcbs.live, t.addr = u.addr → t = u) (ht : t ∈ tcbs.live)
    (hlisten : t.listening = false) (hsub : ∀ u ∈ tcbs.live, u = t ∨ u ∈ s.tcbs.live)
    (hkept : ∀ u ∈ s.tcbs.live, u ∈ tcbs.live)
    (hput : c.live = true ∧ tcbs' = tcbs ∨
      c.live = false ∧ Table.tcbDelete rb tcbs t = some tcbs') :
    TableAfter rb s t.addr c tcbs' := by
  have hne : ∀ {u}, u ∈ tcbs.live → u ≠ t → u.addr ≠ t.addr := fun hu hut heq =>
    hut (haddr _ hu _ ht heq)
  rcases hput with ⟨hlive, rfl⟩ | ⟨hdead, hdelete⟩
  · refine ⟨htable, hformed, hnext, hformed.fresh t ht, haddr, fun _ => ⟨t, ht, rfl, hlisten⟩,
      fun u hu _ => ?_, fun u hu _ => hkept u hu⟩
    by_cases hut : u = t
    · exact .inl ⟨by rw [hut], hlive⟩
    · exact .inr ⟨hne hu hut, (hsub u hu).resolve_left hut⟩
  · have hstep : Table.tableStep rb tcbs (.delete t) = some tcbs' := by
      rw [Table.tableStep, if_pos ⟨ht, hlisten⟩]
      exact hdelete
    obtain ⟨hliveset, hnext'⟩ := tcbDelete_live hdelete
    have hmem : ∀ u, u ∈ tcbs'.live ↔ u ≠ t ∧ u ∈ tcbs.live := fun u => by
      rw [hliveset]
      exact hformed.nodup.mem_erase_iff
    refine ⟨htable.tail trivial hstep, hformed.step hlaw hstep, by omega, ?_, ?_, fun hlive => ?_,
      fun u hu _ => ?_, fun u hu hua => ?_⟩
    · rw [hnext']
      exact hformed.fresh t ht
    · exact fun u hu v hv => haddr u ((hmem u).mp hu).2 v ((hmem v).mp hv).2
    · rw [hdead] at hlive
      cases hlive
    · obtain ⟨hut, hu⟩ := (hmem u).mp hu
      exact .inr ⟨hne hu hut, (hsub u hu).resolve_left hut⟩
    · refine (hmem u).mpr ⟨?_, hkept u hu⟩
      rintro rfl
      exact hua rfl

/-! ## What a step is -/

/-- The ways in which the daemon goes on. -/
inductive Went (rb : Table.Rebalance) (s : System) (i : SystemInput) : System → Prop where
  | neighbors (nd : Nd) : Went rb s i { s with nd }
  | maps {j : UdpMemInput} {udp : UdpMem} : j.isOwn = true → udpMemStep s.udp j = some udp →
      Went rb s i { s with udp }
  | conn {t : TcbNode} {c c' : Conn} {j : Input} {d : Daemon} :
      s.concerns i = some (t.addr, j) → t ∈ s.tcbs.live → t.listening = false →
      s.get t.addr = some c → c.live = true → j.isOwn = true → Ptrtd.step c j = some c' →
      s.daemon.put rb t c' = some d → Went rb s i (s.resume t.addr d)
  | syn {r : Recv} {t : TcbNode} {c : Conn} {j : Input} {d : Daemon} {res : ConnectResult}
      {e um : ℕ} {fd : ℤ} {now now' : Timeval} : i = .fd e (.frame r um fd now now' res) →
      s.concerns i = some (s.tcbs.next, j) → freshSocket s.udp.opened res = true →
      r.arrival.find s.tcbs.root = some (some t) → t.listening = true → r.segment.flags = 0x2 →
      handleSyn s.tcbs.next .tcpMapCb s.isn s.udp.ev r.segment res = some c →
      Daemon.put rb
        { s.daemon with
          tcbs := Table.tcbNew rb s.tcbs (some r.arrival.laddr) r.arrival.lport.toNat
            (some r.arrival.raddr) r.arrival.rport.toNat false
          isn := s.isn + 1 }
        (Table.tcbNode s.tcbs.next false (some r.arrival.laddr) r.arrival.lport.toNat
          (some r.arrival.raddr) r.arrival.rport.toNat) c = some d →
      Went rb s i (s.resume s.tcbs.next d)

theorem Whole.conn_next (h : Whole rb ok s) : s.conn s.tcbs.next = none := by
  cases hconn : s.conn s.tcbs.next with
  | none => rfl
  | some x => exact absurd (h.self _ x hconn).2 (lt_irrefl _)

theorem onUdp_went {i : SystemInput} {j : UdpMemInput} (hown : j.isOwn = true)
    (hstep : s.onUdp j = some s') : Went rb s i s' := by
  obtain ⟨udp, hudp, rfl⟩ := Option.map_eq_some_iff.mp hstep
  exact .maps hown hudp

/-- An event of a block or its map. -/
theorem Whole.onConn_cases (h : Whole rb ok s) (hstep : s.onConn rb a i = some s') :
    ∃ t c c' d, t ∈ s.tcbs.live ∧ t.addr = a ∧ t.listening = false ∧ s.get a = some c ∧
      c.live = true ∧ Ptrtd.step c i = some c' ∧ s.daemon.put rb t c' = some d ∧
        s' = s.resume a d := by
  obtain ⟨t, hfind, hstep⟩ := Option.bind_eq_some_iff.mp hstep
  obtain ⟨c, hget, hstep⟩ := Option.bind_eq_some_iff.mp hstep
  obtain ⟨c', hnext, hstep⟩ := Option.bind_eq_some_iff.mp hstep
  obtain ⟨d, hput, rfl⟩ := Option.map_eq_some_iff.mp hstep
  have ht : t ∈ s.tcbs.live := List.mem_of_find?_eq_some hfind
  obtain rfl : t.addr = a := by simpa using List.find?_some hfind
  have hc : s.get t.addr = some c := hget
  have hlive : c.live = true := by
    by_contra hdead
    rw [Ptrtd.step.eq_def, if_neg hdead] at hnext
    cases hnext
  obtain ⟨x, hx, rfl⟩ := System.get_eq_some hc
  obtain ⟨u, hu, haddr, hlisten⟩ := h.live t.addr x hx hlive
  obtain rfl := h.addr u hu t ht haddr
  exact ⟨u, _, c', d, ht, rfl, hlisten, hc, hlive, hnext, hput, rfl⟩

theorem Whole.onConn_went (h : Whole rb ok s) {i : SystemInput} {j : Input}
    (hown : j.isOwn = true) (hconcerns : s.concerns i = some (a, j))
    (hstep : s.onConn rb a j = some s') : Went rb s i s' := by
  obtain ⟨t, c, c', d, ht, rfl, hlisten, hc, hlive, hnext, hput, rfl⟩ := h.onConn_cases hstep
  exact .conn hconcerns ht hlisten hc hlive hown hnext hput

/-- A segment without a connection changes nothing here. -/
theorem resume_reset (hnone : s.conn a = none) (nd : Nd) :
    s.resume a { s.daemon with nd } = { s with nd } := by
  rw [System.resume]
  dsimp only [System.daemon]
  rw [hnone]
  rfl

theorem Whole.handleTcp_went (h : Whole rb ok s) {i : SystemInput} {e um : ℕ} {fd : ℤ}
    {now' : Timeval} (hi : i = .fd e (.frame r um fd now now' res))
    (hconcerns : s.concerns i = some (s.target r, .packet r.segment now))
    (hstep : s.handleTcp rb iface r now res = some s') : Went rb s i s' := by
  rw [System.handleTcp] at hstep
  split at hstep
  · next hfresh =>
      obtain ⟨handled, hhandled, hstep⟩ := Option.bind_eq_some_iff.mp hstep
      obtain rfl : s.resume (s.target r) handled.daemon = s' := by
        split at hstep
        · exact Option.some.inj hstep
        · cases hstep
      obtain ⟨found, hfind, hhandled⟩ := Option.bind_eq_some_iff.mp hhandled
      have hfind' : r.arrival.find s.tcbs.root = some found := hfind
      rw [System.target, hfind'] at hconcerns ⊢
      cases found with
      | none =>
          obtain rfl := Option.some.inj hhandled
          exact (resume_reset h.conn_next _).symm ▸ .neighbors _
      | some t =>
          dsimp only at hhandled hconcerns ⊢
          split at hhandled
          · next hlisten =>
              rw [if_pos hlisten] at hconcerns ⊢
              split at hhandled
              · next hflags =>
                  obtain ⟨c, hsyn, hhandled⟩ := Option.bind_eq_some_iff.mp hhandled
                  obtain ⟨d, hput, rfl⟩ := Option.map_eq_some_iff.mp hhandled
                  exact .syn hi hconcerns hfresh hfind' hlisten hflags hsyn hput
              · obtain rfl := Option.some.inj hhandled
                exact (resume_reset h.conn_next _).symm ▸ .neighbors _
          · next hlisten =>
              rw [if_neg hlisten] at hconcerns ⊢
              obtain ⟨c, hget, hhandled⟩ := Option.bind_eq_some_iff.mp hhandled
              obtain ⟨c', hnext, hhandled⟩ := Option.bind_eq_some_iff.mp hhandled
              obtain ⟨d, hput, rfl⟩ := Option.map_eq_some_iff.mp hhandled
              have ht : t ∈ s.tcbs.live := h.formed.root.live t (r.arrival.find_mem hfind')
              have hlisten' := Bool.eq_false_iff.mpr hlisten
              have hc : s.get t.addr = some c := hget
              have hlive : c.live = true := by
                obtain ⟨x, hx, rfl⟩ := System.get_eq_some hc
                obtain ⟨y, hy, hlive⟩ := h.conn t ht hlisten'
                obtain rfl := Option.some.inj (hx.symm.trans hy)
                exact hlive
              refine .conn hconcerns ht hlisten' hc hlive rfl ?_ hput
              rw [Ptrtd.step.eq_def, if_pos hlive]
              exact hnext
  · cases hstep

theorem handleIcmp_went {i : SystemInput} (hstep : s.handleIcmp iface r = some s') :
    Went rb s i s' := by
  rw [System.handleIcmp] at hstep
  split at hstep
  · cases hstep
  · obtain rfl := Option.some.inj hstep
    exact .neighbors _

theorem icmpSendError_went {i : SystemInput} (hstep : s.icmpSendError iface r = some s') :
    Went rb s i s' := by
  rw [System.icmpSendError] at hstep
  split at hstep
  · obtain rfl := Option.some.inj hstep
    exact .neighbors _
  · cases hstep

theorem Whole.handlePacket_went (h : Whole rb ok s) {i : SystemInput} {e um : ℕ} {fd : ℤ}
    {now' : Timeval} (hi : i = .fd e (.frame r um fd now now' res))
    (hconcerns : r.d 6 = 6 → s.concerns i = some (s.target r, .packet r.segment now))
    (hstep : s.handlePacket rb iface r um fd now now' res = some s') : Went rb s i s' := by
  rw [System.handlePacket.eq_def] at hstep
  split at hstep
  · exact handleIcmp_went hstep
  · next hproto => exact h.handleTcp_went hi (hconcerns hproto) hstep
  · exact onUdp_went (j := .packet r um fd now now') rfl hstep
  · obtain rfl := Option.some.inj hstep
    exact .neighbors s.nd
  · exact icmpSendError_went hstep

/-- Every step is one of these. -/
theorem Whole.went (h : Whole rb ok s) {i : SystemInput} (hstep : s.step rb iface i = some s') :
    Went rb s i s' := by
  cases i with
  | time e =>
      obtain ⟨x, hx, hstep⟩ := Option.bind_eq_some_iff.mp hstep
      split at hstep
      · next a hdata =>
          refine h.onConn_went rfl ?_ hstep
          rw [System.concerns, hx, Option.bind_some, hdata]
      · exact onUdp_went (j := .stale e) rfl hstep
      · cases hstep
  | fd e io =>
      obtain ⟨x, hx, hstep⟩ := Option.bind_eq_some_iff.mp hstep
      rw [System.runFd.eq_def] at hstep
      cases io with
      | frame r um fd now now' res =>
          dsimp only at hstep
          split at hstep
          · next hdata =>
              refine h.handlePacket_went rfl (fun hproto => ?_) hstep
              rw [System.concerns, hx, Option.bind_some, hdata]
              exact if_pos hproto
          · cases hstep
      | tcp io =>
          dsimp only at hstep
          split at hstep
          · next a hdata =>
              refine h.onConn_went rfl ?_ hstep
              rw [System.concerns, hx, Option.bind_some, hdata]
          · cases hstep
      | datagram data src sport pfx now =>
          dsimp only at hstep
          split at hstep
          · exact onUdp_went (j := .readable e data src sport pfx now) rfl hstep
          · cases hstep
  | always e now =>
      obtain ⟨x, hx, hstep⟩ := Option.bind_eq_some_iff.mp hstep
      split at hstep
      · next a hdata =>
          refine h.onConn_went rfl ?_ hstep
          rw [System.concerns, hx, Option.bind_some, hdata]
      · cases hstep

/-! ## The invariant is kept -/

/-- What a step of a connection leaves to the others. -/
theorem Whole.kept_of_step (h : Whole rb ok s) (hc : s.get a = some c) (hown : i.isOwn = true)
    (hstep : Ptrtd.step c i = some c') : c'.self = a ∧ s.udp.ev.Changed (tcpOwns a) c'.ev ∧
      Tidy c' ∧ SocketAfter s a c' := by
  obtain ⟨x, hx, rfl⟩ := System.get_eq_some hc
  have hself : x.self = a := (h.self a x hx).1
  have hkept := Ptrtd.kept_of_step (h.tidy _ _ hc) hown hstep
  have hev : s.udp.ev.Changed (tcpOwns x.self) c'.ev := hkept.ev
  refine ⟨hkept.self.trans hself, hself ▸ hev, hkept.tidy, fun m hm => ?_⟩
  rw [hx]
  rcases hkept.fd with hnone | hfd
  · rw [hnone] at hm
    cases hm
  · rw [hm] at hfd
    obtain ⟨y, hy, hyfd⟩ := Option.map_eq_some_iff.mp hfd.symm
    exact .inl ⟨y, hy, hyfd⟩

/-- What a new connection leaves to the others. -/
theorem Whole.kept_of_syn (h : Whole rb ok s) (hfresh : freshSocket s.udp.opened res = true)
    (hsyn : handleSyn s.tcbs.next .tcpMapCb s.isn s.udp.ev r.segment res = some c) :
    c.self = s.tcbs.next ∧ s.udp.ev.Changed (tcpOwns s.tcbs.next) c.ev ∧ Tidy c ∧
      SocketAfter s s.tcbs.next c := by
  obtain ⟨hself, hev, htidy, hmap⟩ := Ptrtd.kept_of_syn h.addressed hsyn
  refine ⟨hself, hev, htidy, fun m hm => ?_⟩
  rw [h.conn_next]
  refine .inr ⟨rfl, ?_⟩
  obtain ⟨fd, rfl | rfl, hfd⟩ := hmap m hm
  · rw [hfd]
    exact Bool.not_eq_true' _ ▸ hfresh
  · rw [hfd]
    exact Bool.not_eq_true' _ ▸ hfresh

theorem Whole.stepConn (h : Whole rb ok s) (hlaw : rb.Lawful)
    (hothers : ∀ ev ev', ok { c with ev } (.others ev')) (ht : t ∈ s.tcbs.live)
    (hlisten : t.listening = false) (hc : s.get t.addr = some c) (hlive : c.live = true)
    (hown : i.isOwn = true) (hok : ok c i) (hstep : Ptrtd.step c i = some c')
    (hput : s.daemon.put rb t c' = some d) : Whole rb ok (s.resume t.addr d) := by
  obtain ⟨tcbs, rfl, htcbs⟩ := put_eq hput
  obtain ⟨hself, hev, htidy, hsocket⟩ := h.kept_of_step hc hown hstep
  refine h.goOn hself hev htidy ?_ hsocket ?_
  · exact ((h.reached _ _ hc).reached hlive hothers).tail hok hstep
  · exact tableAfter_of_put hlaw h.table h.formed le_rfl h.addr ht hlisten
      (fun u hu => .inr hu) (fun u hu => hu) htcbs

/-- The events of a daemon are not those of the next block. -/
theorem Whole.freshAddr (h : Whole rb ok s) : freshAddr s.tcbs.next s.udp.ev := by
  intro e he
  have hlt : ∀ a, tcpOwns a e.data = true → a < s.tcbs.next := by
    intro a ha
    have hconn : ∃ c, s.conn a = some c := by
      rw [List.mem_append, List.mem_append] at he
      rcases he with (he | he) | he
      · exact h.data .time e he a ha
      · exact h.data .fd e he a ha
      · exact h.data .always e he a ha
    obtain ⟨c, hc⟩ := hconn
    exact (h.self a c hc).2
  refine ⟨fun hdata => ?_, fun hdata => ?_⟩
  · exact lt_irrefl _ (hlt _ (by rw [hdata]; exact tcpOwns_tcb _))
  · exact lt_irrefl _ (hlt _ (by rw [hdata]; exact tcpOwns_tcpMap _))

/-- A SYN makes a block, which stays while its connection does. -/
theorem Whole.table_of_syn (h : Whole rb ok s) (hlaw : rb.Lawful)
    (hfind : r.arrival.find s.tcbs.root = some (some t)) (hlisten : t.listening = true)
    (hflags : r.segment.flags = 0x2)
    (hput : Daemon.put rb
      { s.daemon with
        tcbs := Table.tcbNew rb s.tcbs (some r.arrival.laddr) r.arrival.lport.toNat
          (some r.arrival.raddr) r.arrival.rport.toNat false
        isn := s.isn + 1 }
      (Table.tcbNode s.tcbs.next false (some r.arrival.laddr) r.arrival.lport.toNat
        (some r.arrival.raddr) r.arrival.rport.toNat) c = some d) :
    ∃ tcbs, d = ⟨tcbs, Function.update s.conn s.tcbs.next (some c), c.ev, s.isn + 1,
      s.daemon.udp, s.nd⟩ ∧ TableAfter rb s s.tcbs.next c tcbs := by
  obtain ⟨tcbs, rfl, htcbs⟩ := put_eq hput
  have hstep : Table.tableStep rb s.tcbs (.segment r.arrival) =
      some (Table.tcbNew rb s.tcbs (some r.arrival.laddr) r.arrival.lport.toNat
        (some r.arrival.raddr) r.arrival.rport.toNat false) := by
    rw [Table.tableStep, Table.handleArrival, hfind, Option.map_some]
    dsimp only
    rw [if_pos ⟨hlisten, hflags⟩]
  have hnew : ∀ u ∈ s.tcbs.live, u.addr ≠ s.tcbs.next := fun u hu =>
    Nat.ne_of_lt (h.formed.fresh u hu)
  refine ⟨tcbs, rfl, tableAfter_of_put (t := Table.tcbNode s.tcbs.next false
    (some r.arrival.laddr) r.arrival.lport.toNat (some r.arrival.raddr) r.arrival.rport.toNat)
    hlaw (h.table.tail trivial hstep) (h.formed.step hlaw hstep) (Nat.le_succ _) ?_
    List.mem_cons_self rfl (fun u hu => List.mem_cons.mp hu)
    (fun u hu => List.mem_cons_of_mem _ hu) htcbs⟩
  intro u hu v hv heq
  rcases List.mem_cons.mp hu with rfl | hu <;> rcases List.mem_cons.mp hv with rfl | hv
  · rfl
  · exact absurd heq.symm (hnew v hv)
  · exact absurd heq (hnew u hu)
  · exact h.addr u hu v hv heq

theorem Whole.syn (h : Whole rb ok s) (hlaw : rb.Lawful)
    (hfresh : freshSocket s.udp.opened res = true)
    (hfind : r.arrival.find s.tcbs.root = some (some t)) (hlisten : t.listening = true)
    (hflags : r.segment.flags = 0x2)
    (hsyn : handleSyn s.tcbs.next .tcpMapCb s.isn s.udp.ev r.segment res = some c)
    (hput : Daemon.put rb
      { s.daemon with
        tcbs := Table.tcbNew rb s.tcbs (some r.arrival.laddr) r.arrival.lport.toNat
          (some r.arrival.raddr) r.arrival.rport.toNat false
        isn := s.isn + 1 }
      (Table.tcbNode s.tcbs.next false (some r.arrival.laddr) r.arrival.lport.toNat
        (some r.arrival.raddr) r.arrival.rport.toNat) c = some d) :
    Whole rb ok (s.resume s.tcbs.next d) := by
  obtain ⟨hself, hev, htidy, hsocket⟩ := h.kept_of_syn hfresh hsyn
  obtain ⟨tcbs, rfl, htable⟩ := h.table_of_syn hlaw hfind hlisten hflags hput
  exact h.goOn hself hev htidy
    ⟨.tcpMapCb, c, ⟨s.tcbs.next, s.isn, s.udp.ev, r.segment, res, h.freshAddr, hsyn⟩, .refl⟩
    hsocket htable

theorem Whole.step (h : Whole rb ok s) (hlaw : rb.Lawful) {i : SystemInput}
    (hok : s.OnConns ok i) (hstep : s.step rb iface i = some s') : Whole rb ok s' := by
  cases h.went hstep with
  | neighbors nd => exact h.setNd nd
  | maps hown hudp => exact h.setUdp hown hudp
  | conn hconcerns ht hlisten hc hlive hown hnext hput =>
      exact h.stepConn hlaw (hok.2 _ _ hc hlive) ht hlisten hc hlive hown (hok.1 _ _ _ hconcerns hc)
        hnext hput
  | syn _ _ hfresh hfind hlisten hflags hsyn hput =>
      exact h.syn hlaw hfresh hfind hlisten hflags hsyn hput

theorem System.Start.whole (h : s.Start rb) (hlaw : rb.Lawful) : Whole rb ok s := by
  have hformed : Formed s.tcbs := h.tcbs ▸ Table.formed_tcpListen hlaw
  have hget : ∀ {a c}, s.get a = some c → False := fun hc => by
    obtain ⟨x, hx, -⟩ := System.get_eq_some hc
    rw [h.conn] at hx
    cases hx
  have hconn : ∀ {a c}, s.conn a = some c → False := fun hc => by
    rw [h.conn] at hc
    cases hc
  have hlive : s.tcbs.live = [Table.tcbNode 0 true none 0 none 0] := by rw [h.tcbs]; rfl
  obtain ⟨e, fd, hfd, hopen⟩ := h.fd
  have howner : ∀ fd, owner fd s.udp.log = none := fun fd => by rw [h.udp.log]; rfl
  refine ⟨h.tcbs ▸ .refl, hformed, fun t ht u hu _ => ?_, fun a c hc => (hconn hc).elim,
    fun a c hc => (hconn hc).elim, fun t ht hlisten => ?_, fun a c hc => (hget hc).elim,
    fun a c hc => (hget hc).elim, fun k x hx a ha => ?_, ⟨s.udp, h.udp, .refl⟩,
    fun fd hne => absurd (howner fd) hne, fun a c m hc => (hconn hc).elim,
    fun a b c c' m m' hc => (hconn hc).elim, ?_, fun k hk => ?_⟩
  · rw [hlive] at ht hu
    rw [List.mem_singleton.mp ht, List.mem_singleton.mp hu]
  · rw [hlive] at ht
    rw [List.mem_singleton.mp ht] at hlisten
    cases hlisten
  · cases k with
    | time =>
        have hx' : x ∈ s.udp.ev.timeEventList := hx
        rw [h.time] at hx'
        cases hx'
    | fd =>
        have hx' : x ∈ s.udp.ev.fdEventList := hx
        rw [hfd] at hx'
        rw [List.mem_singleton.mp hx'] at ha
        cases ha
    | always =>
        have hx' : x ∈ s.udp.ev.alwaysEventList := hx
        rw [h.always] at hx'
        cases hx'
  · exact ⟨⟨e, .ifReadCallback, .iface, .fd fd false⟩, fd, by rw [hfd]; rfl, rfl, rfl, hopen,
      howner fd, fun a c m hc => (hconn hc).elim⟩
  · cases k with
    | time => exact (congrArg _ h.time).trans List.filter_nil
    | fd => exact absurd rfl hk
    | always => exact (congrArg _ h.always).trans List.filter_nil

/-- The invariant holds in every run. -/
theorem System.Reached.whole (h : System.Reached rb iface (System.OnConns ok) s)
    (hlaw : rb.Lawful) : Whole rb ok s := by
  obtain ⟨s₀, hstart, hrun⟩ := h
  exact hrun.invariant (hstart.whole hlaw) fun _ _ _ hinv hok hstep =>
    hinv.step hlaw hok hstep

end Ptrtd.Wire
