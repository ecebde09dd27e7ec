import Ptrtd.Verification.Session.Steps
import Ptrtd.Verification.Buffer.Correctness

/-! # Well-formed connections

Who may call whom: the application is attached exactly until our side closes, the map
exists only while the relay is attached, and before the handshake is over there is neither
a timer nor data. The receive buffer starts at `read_seq` throughout. This holds in every
connection reached, whatever the peer, the sockets and the application do. -/

namespace Ptrtd

/-- What holds of every connection reached. -/
structure WellFormed (c : Conn) : Prop where
  cb : c.tcb.cb.isSome = true ↔ c.tcb.state = .synRecvd ∨ c.tcb.state = .established
  map : c.map.isSome = true → c.tcb.cb = some .tcpMapCb
  synTime : c.live = true → c.tcb.state = .synRecvd → ∀ e ∈ c.ev.timeEventList, c.owns e = false
  synFd : c.live = true → c.tcb.state = .synRecvd →
    ∀ e ∈ c.ev.fdEventList, c.owns e = true → e.func = .handleFdDidConnect
  inbuf : c.tcb.inbuf.From c.tcb.readSeq
  inSize : c.tcb.inbuf.size = 16384
  synIn : c.tcb.state = .synRecvd → c.tcb.inbuf.used = 0

variable {c c' : Conn} {s : Segment} {now : Timeval}

/-! ## Reading and storing received data -/

/-- `tcp_read` takes bytes from the front of `inbuf`. -/
structure ReadSpec (c : Conn) (n : ℕ) (c' : Conn) (d : List Uchar) : Prop where
  data : d = c.tcb.inbuf.content.take n
  start : c'.tcb.inbuf.From c'.tcb.readSeq
  content : c'.tcb.inbuf.content = c.tcb.inbuf.content.drop d.length
  used : c'.tcb.inbuf.used = c.tcb.inbuf.used - d.length
  wSeq : c'.tcb.inbuf.wSeq = c.tcb.inbuf.wSeq
  size : c'.tcb.inbuf.size = c.tcb.inbuf.size

theorem tcpRead_spec {n : ℕ} {d : List Uchar} (hfrom : c.tcb.inbuf.From c.tcb.readSeq)
    (h : tcpRead c n = some (c', d)) : ReadSpec c n c' d := by
  obtain ⟨l, m, e, a, hread, rfl⟩ := tcpRead_eq h
  have hlen : readLen c.tcb n = (min n c.tcb.inbuf.used : ℕ) := by
    rw [readLen, Buffer.from_avail hfrom]
    split <;> omega
  rw [hlen, Buffer.from_read hfrom] at hread
  have hd := Option.some.inj hread
  have hlength : d.length ≤ c.tcb.inbuf.used := by
    rw [← hd, List.length_take]
    omega
  obtain ⟨hspec, hfrom'⟩ := Buffer.from_advance hfrom hlength
  refine ⟨?_, hfrom', ?_, hspec.used, hspec.wSeq, hspec.size⟩
  · rw [← hd, ← Buffer.content_length hfrom.ok]
    exact (List.take_eq_take_min).symm
  · rw [hspec.content, Nat.sub_sub_self hlength]

theorem tcpRead_read_le {n : ℕ} {d : List Uchar} (hfrom : c.tcb.inbuf.From c.tcb.readSeq)
    (h : tcpRead c n = some (c', d)) : d.length ≤ c.tcb.inbuf.used := by
  rw [(tcpRead_spec hfrom h).data, List.length_take, Buffer.content_length hfrom.ok]
  omega

/-- Stored data keep the start of the buffer. -/
theorem Stored.from {r : Ringbuf} {w : Uint} {x : List Uchar} {seq : Uint}
    (h : Stored c s r w x) (hfrom : c.tcb.inbuf.From seq) :
    r.From seq ∧ r.size = c.tcb.inbuf.size := by
  rcases h with ⟨-, rfl, -, -⟩ | ⟨-, -, n, hw, -, -⟩
  · exact ⟨hfrom, rfl⟩
  · obtain ⟨hspec, hfrom'⟩ := Buffer.from_write hfrom hw
    exact ⟨hfrom', hspec.size⟩

/-! ## The parts of a step -/

namespace WellFormed

theorem markForIfWrite (h : WellFormed c) : WellFormed (markForIfWrite c) := by
  obtain ⟨l, n, e, -, heq⟩ := markForIfWrite_eq c
  rw [heq]
  exact ⟨h.cb, h.map, h.synTime, h.synFd, h.inbuf, h.inSize, h.synIn⟩

theorem tcpAccept (h : WellFormed c) : WellFormed (tcpAccept c) :=
  markForIfWrite (c := { c with trace := { c.trace with acceptCalled := true } })
    ⟨h.cb, h.map, h.synTime, h.synFd, h.inbuf, h.inSize, h.synIn⟩

theorem setMap {m : Option TcpMap} (h : WellFormed c) (hcb : c.tcb.cb = some .tcpMapCb) :
    WellFormed { c with map := m } :=
  ⟨h.cb, fun _ => hcb, h.synTime, h.synFd, h.inbuf, h.inSize, h.synIn⟩

theorem receive (h : WellFormed c) (s : Segment) : WellFormed (c.receive s) :=
  ⟨h.cb, h.map, h.synTime, h.synFd, h.inbuf, h.inSize, h.synIn⟩

theorem handleOld (h : WellFormed c) : WellFormed (handleOld c) := by
  obtain ⟨l, n, e, a, heq⟩ := handleOld_eq c
  rw [heq]
  exact ⟨h.cb, h.map, h.synTime, h.synFd, h.inbuf, h.inSize, h.synIn⟩

theorem handleWindow (h : WellFormed c) (s : Segment) : WellFormed (handleWindow c s) := by
  obtain ⟨l, n, e, heq⟩ := handleWindow_eq c s
  rw [heq]
  exact ⟨h.cb, h.map, h.synTime, h.synFd, h.inbuf, h.inSize, h.synIn⟩

theorem handleNewAck {ack : Uint} (h : WellFormed c)
    (hack : handleNewAck c ack now = some c') : WellFormed c' := by
  obtain ⟨m, ev, r, d, o, e, k, w, hm, -, hev, rfl⟩ := handleNewAck_eq hack
  refine ⟨h.cb, fun hs => h.map (hm ▸ hs), fun hl hs => ?_, fun hl hs => ?_, h.inbuf, h.inSize,
    h.synIn⟩
  · rw [hev hs]
    exact h.synTime hl hs
  · rw [hev hs]
    exact h.synFd hl hs

theorem enterTimeWait (h : WellFormed c) (hcb : c.tcb.cb = none) :
    WellFormed (enterTimeWait c now) := by
  obtain ⟨l, n, e, heq⟩ := enterTimeWait_eq c now
  rw [heq]
  exact ⟨by simp [hcb], h.map, nofun, nofun, h.inbuf, h.inSize, nofun⟩

/-- The application is gone in every state past `ESTABLISHED`. -/
theorem cb_none (h : WellFormed c) (hsyn : c.tcb.state ≠ .synRecvd)
    (hest : c.tcb.state ≠ .established) : c.tcb.cb = none := by
  have := mt h.cb.mp (not_or.mpr ⟨hsyn, hest⟩)
  simpa using this

theorem handleAllAcked {f : Flow} (h : WellFormed c) (hf : handleAllAcked c now = some f) :
    WellFormed f.conn := by
  have hnone : c.tcb.state = .finWait1 ∨ c.tcb.state = .closing ∨ c.tcb.state = .lastAck →
      c.tcb.cb = none := by
    intro hs
    apply h.cb_none <;> rcases hs with hs | hs | hs <;> rw [hs] <;> nofun
  cases handleAllAcked_effect hf with
  | opened hstate hcb hchange =>
      obtain ⟨m, l, n, hm, rfl⟩ := hchange
      exact ⟨by simp [hcb.cb, Flow.conn], fun hs => h.map (hm ▸ hs), nofun, nofun,
        h.inbuf, h.inSize, nofun⟩
  | deleted hstate =>
      exact ⟨h.cb, h.map, nofun, nofun, h.inbuf, h.inSize, h.synIn⟩
  | finAcked hstate havail =>
      have hcb := hnone (.inl hstate)
      exact ⟨by simp [hcb, Flow.conn], h.map, nofun, nofun, h.inbuf, h.inSize, nofun⟩
  | bothClosed hstate havail => exact h.enterTimeWait (hnone (.inr (.inl hstate)))
  | stillClosing => exact h
  | other => exact h

theorem handleAck {f : Flow} (h : WellFormed c) (hf : handleAck c s now = some f) :
    WellFormed f.conn := by
  rcases handleAck_cases hf with ⟨-, rfl⟩ | ⟨-, a, hnew, hall⟩
  · exact h
  · have ha : WellFormed a := by
      rcases hnew with ⟨-, hnew⟩ | ⟨-, rfl⟩
      · exact h.handleNewAck hnew
      · exact h
    rcases hall with ⟨-, hall⟩ | ⟨-, rfl⟩
    · exact ha.handleAllAcked hall
    · exact ha

/-- Only a block that receives data passes through `tcp_recv_data`. -/
theorem tcpRecvData {fin : Bool} (h : WellFormed c) (hsyn : c.tcb.state ≠ .synRecvd)
    (hrecv : tcpRecvData c s = some (c', fin)) :
    WellFormed c' ∧ c'.tcb.state = c.tcb.state ∧ c'.tcb.cb = c.tcb.cb := by
  obtain ⟨-, m, ev, e, r, w, x, hm, hstored, -, rfl⟩ := tcpRecvData_eq hrecv
  obtain ⟨hfrom, hsize⟩ := hstored.from h.inbuf
  exact ⟨⟨h.cb, fun hs => h.map (hm ▸ hs), fun _ hs => absurd hs hsyn, fun _ hs => absurd hs hsyn,
    hfrom, hsize.trans h.inSize, fun hs => absurd hs hsyn⟩, rfl, rfl⟩

theorem handleData (h : WellFormed c) (hdata : handleData c s now = some c') : WellFormed c' := by
  cases handleData_effect hdata with
  | ignored => exact h
  | data _ hrecv hstate =>
      exact (h.tcpRecvData (by rcases hstate with hs | hs | hs <;> rw [hs] <;> nofun) hrecv).1
  | finWait2 hstate hrecv =>
      obtain ⟨ha, -, hcb⟩ := h.tcpRecvData (by rw [hstate]; nofun) hrecv
      exact ha.enterTimeWait (hcb.trans (h.cb_none (by rw [hstate]; nofun) (by rw [hstate]; nofun)))
  | finWait1 hstate hrecv =>
      obtain ⟨ha, -, hcb⟩ := h.tcpRecvData (by rw [hstate]; nofun) hrecv
      have hnone := hcb.trans (h.cb_none (by rw [hstate]; nofun) (by rw [hstate]; nofun))
      exact ⟨by simp [hnone], ha.map, nofun, nofun, ha.inbuf, ha.inSize, nofun⟩
  | closeWait hstate _ hrecv hclose =>
      obtain ⟨ha, -, hcb⟩ := h.tcpRecvData (by rw [hstate]; nofun) hrecv
      obtain ⟨m, ev, e, b, hm, -, -, -, rfl⟩ := tcpRemoteClose_eq rfl hclose
      refine ⟨by simp, fun hs => ?_, nofun, nofun, ha.inbuf, ha.inSize, nofun⟩
      rcases hm with rfl | ⟨hcb, rfl⟩
      · cases hs
      · exact absurd (ha.map hs) hcb

/-- Only the relay has a map. -/
theorem map_none (h : WellFormed c) (hcb : c.tcb.cb ≠ some .tcpMapCb) : c.map = none :=
  Option.not_isSome_iff_eq_none.mp fun hs => hcb (h.map hs)

/-- A map that is kept where the relay's would be killed does not exist. -/
theorem map_killed {m : Option TcpMap} (h : WellFormed c)
    (hm : m = none ∨ c.tcb.cb ≠ some .tcpMapCb ∧ m = c.map) : m = none := by
  rcases hm with rfl | ⟨hcb, rfl⟩
  · rfl
  · exact h.map_none hcb

theorem handleRst (h : WellFormed c) (hrst : handleRst c = some c') : WellFormed c' := by
  obtain ⟨m, ev, b, hm, -, rfl⟩ := handleRst_eq hrst
  have hnone := h.map_killed hm
  exact ⟨h.cb, fun hs => absurd hs (by simp [hnone]), nofun, nofun, h.inbuf, h.inSize, h.synIn⟩

theorem handleTcp (h : WellFormed c) (htcp : handleTcp c s now = some c') : WellFormed c' := by
  rcases handleTcp_cases htcp with ⟨-, hrst⟩ | ⟨-, hdone⟩ | ⟨-, a, hnext, hrest⟩
  · exact h.handleRst hrst
  · exact h.handleAck hdone
  · have ha : WellFormed a := h.handleAck hnext
    rcases hrest with ⟨-, rfl⟩ | ⟨-, hdata⟩
    · exact ha.handleOld
    · exact (ha.handleWindow s).handleData hdata

/-! ## Events and calls -/

theorem closedBoth {a : Conn} (h : WellFormed c) (hclose : ClosedBoth c a) : WellFormed a := by
  cases hclose with
  | reset hstate => exact ⟨h.cb, nofun, nofun, nofun, h.inbuf, h.inSize, h.synIn⟩
  | fin hstate =>
      have hnot : (if c.tcb.state = .established then TcpState.finWait1 else .lastAck) ≠ .synRecvd
          ∧ (if c.tcb.state = .established then TcpState.finWait1 else .lastAck)
              ≠ .established := by
        split <;> exact ⟨nofun, nofun⟩
      exact ⟨by simp [hnot], nofun, fun _ hs => absurd hs hnot.1, fun _ hs => absurd hs hnot.1,
        h.inbuf, h.inSize, fun hs => absurd hs hnot.1⟩

theorem tcpSend {d : List Uchar} (h : WellFormed c) (hsend : tcpSend c d = some c') :
    WellFormed c' := by
  obtain ⟨r, k, l, n, e, -, rfl⟩ := tcpSend_eq hsend
  exact ⟨h.cb, h.map, h.synTime, h.synFd, h.inbuf, h.inSize, h.synIn⟩

theorem tcpRead {n : ℕ} {d : List Uchar} (h : WellFormed c) (hread : tcpRead c n = some (c', d)) :
    WellFormed c' := by
  have hspec := tcpRead_spec h.inbuf hread
  obtain ⟨l, m, e, a, -, rfl⟩ := tcpRead_eq hread
  refine ⟨h.cb, h.map, h.synTime, h.synFd, hspec.start, hspec.size.trans h.inSize, fun hs => ?_⟩
  rw [hspec.used, h.synIn hs, Nat.zero_sub]

/-- A socket callback runs only on a map, so only while the relay is attached. -/
theorem attached (h : WellFormed c) (hm : c.map.isSome = true) :
    c.tcb.state = .synRecvd ∨ c.tcb.state = .established :=
  h.cb.mp (by rw [h.map hm, Option.isSome_some])

theorem setFd {l : List Event} (h : WellFormed c) (hl : ∀ x ∈ l, x ∈ c.ev.fdEventList) :
    WellFormed { c with ev := { c.ev with fdEventList := l } } :=
  ⟨h.cb, h.map, h.synTime, fun hlive hs x hx => h.synFd hlive hs x (hl x hx), h.inbuf, h.inSize,
    h.synIn⟩

theorem canRead {r : ReadResult} {again : Bool} (h : WellFormed c) (hm : c.map.isSome = true)
    (hread : CanRead c r c' again) : WellFormed c' := by
  cases hread with
  | nothing => exact h
  | closed _ hclose => exact (h.setMap (h.map hm)).closedBoth hclose
  | sent _ _ hsend _ =>
      obtain ⟨_, _, _, _, _, -, rfl⟩ := tcpSend_eq hsend
      exact (h.tcpSend hsend).setMap (h.map hm)

theorem canWrite {r : WriteResult} {again : Bool} (h : WellFormed c) (hm : c.map.isSome = true)
    (hwrite : CanWrite c r c' again) : WellFormed c' := by
  have hcb : ∀ {a d}, Ptrtd.tcpRead c tbSize = some (a, d) → a.tcb.cb = some .tcpMapCb := by
    intro a d hread
    obtain ⟨_, _, _, _, -, rfl⟩ := tcpRead_eq hread
    exact h.map hm
  cases hwrite with
  | again _ hread _ => exact (h.tcpRead hread).setMap (hcb hread)
  | closed _ hread hclose => exact ((h.tcpRead hread).setMap (hcb hread)).closedBoth hclose
  | wrote _ _ _ hread _ =>
      have ha := h.tcpRead hread
      have hmap := hcb hread
      exact ⟨ha.cb, fun _ => hmap, ha.synTime, ha.synFd, ha.inbuf, ha.inSize, ha.synIn⟩

theorem didConnect {ok again : Bool} (h : WellFormed c) (hm : c.map.isSome = true)
    (hconn : DidConnect c ok c' again) : WellFormed c' := by
  cases hconn with
  | accepted => exact (h.setMap (h.map hm)).tcpAccept
  | closed _ hclose => exact (h.setMap (h.map hm)).closedBoth hclose

theorem wrote {again : Bool} (h : WellFormed c) (hw : Wrote c now c' again) : WellFormed c' := by
  cases hw with
  | syn => exact ⟨h.cb, h.map, h.synTime, h.synFd, h.inbuf, h.inSize, h.synIn⟩
  | nothing => exact ⟨h.cb, h.map, h.synTime, h.synFd, h.inbuf, h.inSize, h.synIn⟩
  | segment hstate _ ha _ =>
      obtain ⟨l, n, e, k, m, r, w, la, heq⟩ := emitSegment_eq c _ _ now
      rw [heq] at ha
      subst ha
      exact ⟨h.cb, h.map, fun _ hs => absurd hs hstate, fun _ hs => absurd hs hstate, h.inbuf,
        h.inSize, h.synIn⟩

theorem setAlways {l : List Event} (h : WellFormed c) :
    WellFormed { c with ev := { c.ev with alwaysEventList := l } } :=
  ⟨h.cb, h.map, h.synTime, h.synFd, h.inbuf, h.inSize, h.synIn⟩

/-- A timer runs only once the handshake is over. -/
theorem timer_state {e : Event} (h : WellFormed c) (hlive : c.live = true)
    (he : e ∈ c.ev.timeEventList) (hown : c.owns e = true) : c.tcb.state ≠ .synRecvd := by
  intro hs
  rw [h.synTime hlive hs e he] at hown
  cases hown

theorem tcpTimeout (h : WellFormed c) : WellFormed (tcpTimeout c) :=
  markForIfWrite ⟨h.cb, h.map, h.synTime, h.synFd, h.inbuf, h.inSize, h.synIn⟩

theorem tcpClose {hard : Bool} (h : WellFormed c) (hcb : c.tcb.cb = some .otherCb) :
    WellFormed (tcpClose c hard) := by
  have hnomap : ¬c.map.isSome = true := by simp [h.map_none, hcb]
  generalize hclosed : Ptrtd.tcpClose c hard = c'
  cases tcpClose_cases hclosed with
  | reset => exact ⟨h.cb, fun hs => absurd hs hnomap, nofun, nofun, h.inbuf, h.inSize, h.synIn⟩
  | fin =>
      have hnot : (if c.tcb.state = .established then TcpState.finWait1 else .lastAck) ≠ .synRecvd
          ∧ (if c.tcb.state = .established then TcpState.finWait1 else .lastAck)
              ≠ .established := by
        split <;> exact ⟨nofun, nofun⟩
      exact ⟨by simp [hnot], fun hs => absurd hs hnomap, fun _ hs => absurd hs hnot.1,
        fun _ hs => absurd hs hnot.1, h.inbuf, h.inSize, fun hs => absurd hs hnot.1⟩

theorem others {ev : EventLists} (h : WellFormed c) (hev : othersChanged c ev) :
    WellFormed { c with ev := ev } := by
  obtain ⟨-, htime, hfd, -⟩ := hev
  refine ⟨h.cb, h.map, fun hl hs e he => ?_, fun hl hs e he hown => ?_, h.inbuf, h.inSize, h.synIn⟩
  · refine Bool.eq_false_iff.mpr fun hown => ?_
    have hmem : e ∈ c.ev.timeEventList.filter c.owns := htime ▸ List.mem_filter.mpr ⟨he, hown⟩
    have hold := List.mem_filter.mp hmem
    rw [h.synTime hl hs e hold.1] at hold
    cases hold.2
  · have hmem : e ∈ c.ev.fdEventList.filter c.owns := hfd ▸ List.mem_filter.mpr ⟨he, hown⟩
    exact h.synFd hl hs e (List.mem_filter.mp hmem).1 hown

theorem stepped {i : Input} (h : WellFormed c) (hlive : c.live = true) (hstep : Stepped c i c') :
    WellFormed c' := by
  cases hstep with
  | packet htcp => exact (h.receive _).handleTcp htcp
  | timeout he hown _ =>
      have hstate := h.timer_state hlive he hown
      have ha := h.tcpTimeout
      obtain ⟨_, _, _, -, heq⟩ := markForIfWrite_eq _
      rw [Ptrtd.tcpTimeout, heq] at ha ⊢
      exact ⟨ha.cb, ha.map, fun _ hs => absurd hs hstate, fun _ hs => absurd hs hstate, ha.inbuf,
        ha.inSize, ha.synIn⟩
  | removed he hown _ =>
      exact ⟨h.cb, h.map, by rintro ⟨⟩, by rintro ⟨⟩, h.inbuf, h.inSize, h.synIn⟩
  | canRead _ _ _ hm hread hl => exact (h.canRead hm hread).setFd hl
  | canWrite _ _ _ hm hwrite hl => exact (h.canWrite hm hwrite).setFd hl
  | didConnect _ _ _ hm hconn hl => exact (h.didConnect hm hconn).setFd hl
  | write _ _ _ hw _ => exact (h.wrote hw).setAlways
  | accept => exact h.tcpAccept
  | send _ _ _ hsend => exact h.tcpSend hsend
  | read _ hread => exact h.tcpRead hread
  | close hcb => exact h.tcpClose hcb
  | others hev => exact h.others hev

/-! ## Runs -/

theorem fresh {self : ℕ} {app : TcpCallback} {isn : Uint} {ev : EventLists} {syn : Segment}
    (hev : freshAddr self ev) : WellFormed (.fresh self app isn ev syn) := by
  obtain ⟨htime, hfd, -⟩ := filter_owns_fresh hev
  refine ⟨by simp [Conn.fresh, newTcb, windowUpdate], nofun, fun _ _ e he => ?_,
    fun _ _ e he hown => ?_, ⟨?_, SeqNum.at_zero⟩, rfl, fun _ => rfl⟩
  · exact Bool.eq_false_iff.mpr (List.filter_eq_nil_iff.mp htime e he)
  · exact absurd hown (List.filter_eq_nil_iff.mp hfd e he)
  · exact Buffer.rbSet_ok (Buffer.rbNew_ok (by decide) (by decide)) _

theorem opened (h : WellFormed c) (hopen : Opened c c') : WellFormed c' := by
  cases hopen with
  | other => exact h
  | accepted hcb => exact (h.setMap hcb).tcpAccept
  | connecting hcb =>
      refine ⟨h.cb, fun _ => hcb, h.synTime, fun hl hs e he hown => ?_, h.inbuf, h.inSize, h.synIn⟩
      rcases List.mem_cons.mp he with rfl | he
      · rfl
      · exact h.synFd hl hs e he hown
  | failed hcb hclose => exact (h.setMap hcb).closedBoth hclose

theorem of_start {app : TcpCallback} (h : Start app c) : WellFormed c := by
  obtain ⟨self, isn, ev, syn, hfresh, hopen⟩ := start_cases h
  exact (fresh hfresh).opened hopen

theorem of_reached {ok : Conn → Input → Prop} (h : Reached ok c) : WellFormed c := by
  obtain ⟨app, c₀, hstart, hrun⟩ := h
  refine hrun.invariant (of_start hstart) fun t i u ht _ hstep => ?_
  obtain ⟨hlive, hstepped⟩ := step_cases hstep
  exact ht.stepped hlive hstepped

end WellFormed

/-- A property of new connections that every allowed step of a well-formed connection keeps
holds of every connection reached. -/
theorem Reached.run_invariant {ok : Conn → Input → Prop} {inv : Conn → Prop} (h : Reached ok c)
    (hstart : ∀ app c, Start app c → inv c)
    (hstep : ∀ c i c', WellFormed c → inv c → ok c i → step c i = some c' → inv c') :
    inv c := by
  obtain ⟨app, c₀, hs, hrun⟩ := h
  have hboth : (fun t => WellFormed t ∧ inv t) c := by
    apply hrun.invariant
    · exact ⟨.of_start hs, hstart app c₀ hs⟩
    · intro t i u ht hok hnext
      obtain ⟨hlive, hstepped⟩ := step_cases hnext
      exact ⟨ht.1.stepped hlive hstepped, hstep t i u ht.1 ht.2 hok hnext⟩
  exact hboth.2

/-- The same along the cases of a step, for properties that do not depend on the event lists. -/
theorem Reached.invariant {ok : Conn → Input → Prop} {inv : Conn → Prop} (h : Reached ok c)
    (hstart : ∀ app c, Start app c → inv c)
    (hstep : ∀ c i c', WellFormed c → inv c → ok c i → c.live = true → Stepped c i c' → inv c') :
    inv c := by
  refine h.run_invariant hstart fun c i c' hwf hinv hok hnext => ?_
  obtain ⟨hlive, hstepped⟩ := step_cases hnext
  exact hstep c i c' hwf hinv hok hlive hstepped

end Ptrtd
