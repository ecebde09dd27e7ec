import Ptrtd.Verification.Relay.Ownership
import Ptrtd.Verification.Send.Stall

/-! # Back-pressure

The relay reads from the IPv4 socket as long as `outbuf` has space. `handle_fd_can_read` stops
when it has filled the buffer, and `output_space` starts again when an ACK has freed a part
of it. -/

namespace Ptrtd

variable {a c c' : Conn} {i : Input} {s : Segment} {now : Timeval} {b w u n : ℕ}

/-- A part of a step that leaves `outbuf`, `e_fd_read` and the state alone. -/
structure Neutral (c c' : Conn) : Prop where
  outbuf : c'.tcb.outbuf = c.tcb.outbuf
  readPtr : c'.readPtr = c.readPtr
  map : c'.map.isSome = c.map.isSome
  state : c'.tcb.state = c.tcb.state

/-- A map does not read before the handshake is over, and then exactly as long as there is
output space. -/
structure Throttled (c : Conn) : Prop where
  syn : c.tcb.state = .synRecvd → c.readPtr = none
  est : c.tcb.state = .established → c.map.isSome = true →
    (c.readPtr.isSome = true ↔ 0 < rbLeft c.tcb.outbuf)

/-! ## Parts that do not concern reading -/

namespace Neutral

theorem refl : Neutral c c := ⟨rfl, rfl, rfl, rfl⟩

theorem trans (h : Neutral c a) (h' : Neutral a c') : Neutral c c' :=
  ⟨h'.outbuf.trans h.outbuf, h'.readPtr.trans h.readPtr, h'.map.trans h.map,
    h'.state.trans h.state⟩

/-- The earlier part, given after the later one. -/
theorem after (h' : Neutral a c') (h : Neutral c a) : Neutral c c' := h.trans h'

/-- Parts that leave the map alone altogether. -/
theorem of_eq (hbuf : c'.tcb.outbuf = c.tcb.outbuf) (hmap : c'.map = c.map)
    (hstate : c'.tcb.state = c.tcb.state) : Neutral c c' :=
  ⟨hbuf, by rw [Conn.readPtr, Conn.readPtr, hmap], by rw [hmap], hstate⟩

/-- Only the other event of the map changes. -/
theorem setWrite {m : TcpMap} {p : Option ℕ} (hm : c.map = some m) :
    Neutral c { c with map := some { m with eFdWrite := p } } :=
  ⟨rfl, by rw [readPtr_eq hm]; rfl, by rw [hm]; rfl,
    rfl⟩

theorem markForIfWrite (c : Conn) : Neutral c (markForIfWrite c) := by
  obtain ⟨l, k, e, -, heq⟩ := markForIfWrite_eq c
  rw [heq]
  exact of_eq rfl rfl rfl

theorem tcpAccept (c : Conn) : Neutral c (tcpAccept c) := by
  obtain ⟨l, k, e, -, heq⟩ := tcpAccept_eq c
  rw [heq]
  exact of_eq rfl rfl rfl

theorem canRead (h : canRead c = some c') : Neutral c c' := by
  obtain ⟨m, hm, h⟩ := Option.map_eq_some_iff.mp h
  split at h
  · subst h
    exact (setWrite hm).trans (of_eq rfl rfl rfl)
  · subst h
    exact refl

theorem cbDataAvailable (h : cbDataAvailable c = some c') : Neutral c c' := by
  rw [Ptrtd.cbDataAvailable] at h
  split at h
  · cases h
  · exact canRead h
  · cases h
    exact refl

theorem recvPayload (h : recvPayload c s = some c') : Neutral c c' := by
  rw [Ptrtd.recvPayload] at h
  split at h
  · obtain ⟨x, hx⟩ : ∃ x, x = Ptrtd.markForIfWrite
        { c with tcb := { c.tcb with rcvNxt := c.tcb.rcvNxt + BitVec.ofNat 32 s.data.length } } :=
      ⟨_, rfl⟩
    have hmark : Neutral c x := by
      rw [hx]
      exact (markForIfWrite _).after (of_eq rfl rfl rfl)
    simp only [← hx] at h
    split at h
    · obtain ⟨⟨r, k⟩, -, h⟩ := Option.bind_eq_some_iff.mp h
      exact hmark.trans ((cbDataAvailable h).after (of_eq rfl rfl rfl))
    · cases h
      exact hmark
  · cases h
    exact refl

theorem recvFin (c : Conn) (s : Segment) : Neutral c (recvFin c s) := by
  rw [Ptrtd.recvFin]
  split
  · exact (markForIfWrite _).after (of_eq rfl rfl rfl)
  · exact refl

theorem tcpRecvData {fin : Bool} (h : tcpRecvData c s = some (c', fin)) : Neutral c c' := by
  rw [Ptrtd.tcpRecvData, Option.map_eq_some_iff] at h
  obtain ⟨x, hx, h⟩ := h
  obtain ⟨rfl, rfl⟩ := Prod.mk.inj h
  exact (recvPayload hx).trans (recvFin x s)

theorem ackTimer (c : Conn) (ack : Uint) (now : Timeval) : Neutral c (ackTimer c ack now) := by
  obtain ⟨l, k, e, m, v, heq⟩ := ackTimer_eq c ack now
  rw [heq]
  exact of_eq rfl rfl rfl

theorem handleOld (c : Conn) : Neutral c (handleOld c) := by
  obtain ⟨l, k, e, x, heq⟩ := handleOld_eq c
  rw [heq]
  exact of_eq rfl rfl rfl

theorem handleWindow (c : Conn) (s : Segment) : Neutral c (handleWindow c s) := by
  obtain ⟨l, k, e, heq⟩ := handleWindow_eq c s
  rw [heq]
  exact of_eq rfl rfl rfl

theorem tcpTimeout (c : Conn) : Neutral c (tcpTimeout c) := by
  obtain ⟨l, k, e, v, -, -, -, heq⟩ := tcpTimeout_eq c
  rw [heq]
  exact of_eq rfl rfl rfl

theorem tcpRead {len : ℤ} {d : List Uchar} (h : tcpRead c len = some (c', d)) : Neutral c c' := by
  obtain ⟨l, k, e, x, -, rfl⟩ := tcpRead_eq h
  exact of_eq rfl rfl rfl

theorem wrote {again : Bool} (h : Wrote c now c' again) : Neutral c c' := by
  cases h with
  | syn => exact of_eq rfl rfl rfl
  | nothing => exact of_eq rfl rfl rfl
  | segment _ _ hx _ =>
      obtain ⟨l, k, e, m, r, q, v, x, heq⟩ := emitSegment_eq c _ _ now
      rw [heq] at hx
      subst hx
      exact of_eq rfl rfl rfl

end Neutral

/-! ## Starting and stopping -/

namespace Throttled

theorem neutral (h : Throttled c) (ha : Neutral c c') : Throttled c' := by
  refine ⟨fun hs => ?_, fun hs hm => ?_⟩
  · rw [ha.readPtr]
    exact h.syn (ha.state ▸ hs)
  · rw [ha.readPtr, ha.outbuf]
    exact h.est (ha.state ▸ hs) (ha.map ▸ hm)

/-- The block is past `ESTABLISHED`. -/
theorem of_past (hsyn : c.tcb.state ≠ .synRecvd) (hest : c.tcb.state ≠ .established) :
    Throttled c :=
  ⟨fun hs => absurd hs hsyn, fun hs => absurd hs hest⟩

theorem of_none (hmap : c.map = none) : Throttled c := by
  refine ⟨fun _ => by rw [Conn.readPtr, hmap, Option.bind_none], fun _ hm => ?_⟩
  rw [hmap] at hm
  cases hm

/-- After the handshake only the registration counts. -/
theorem of_open (hsyn : c.tcb.state ≠ .synRecvd)
    (h : c.readPtr.isSome = true ↔ 0 < rbLeft c.tcb.outbuf) : Throttled c :=
  ⟨fun hs => absurd hs hsyn, fun _ _ => h⟩

/-- Reading starts again as soon as there is space. -/
theorem output {left : ℤ} (h : cbOutputBufferSpace c left = some c')
    (hwf : c.map.isSome = true → c.tcb.cb = some .tcpMapCb) (hleft : left = rbLeft c.tcb.outbuf)
    (hest : c.tcb.state = .established)
    (hread : c.readPtr.isSome = true → 0 < rbLeft c.tcb.outbuf) : Throttled c' := by
  have hsyn : c.tcb.state ≠ .synRecvd := by
    rw [hest]
    nofun
  rw [cbOutputBufferSpace] at h
  split at h
  · cases h
  · obtain ⟨m, hm, h⟩ := Option.map_eq_some_iff.mp h
    rw [readPtr_eq hm] at hread
    split at h
    · next hstart =>
        subst h
        exact of_open hsyn ⟨fun _ => hleft ▸ hstart.1, fun _ => rfl⟩
    · next hkeep =>
        subst h
        refine of_open hsyn ?_
        rw [readPtr_eq hm]
        refine ⟨hread, fun hspace => ?_⟩
        by_contra hnone
        exact hkeep ⟨hleft ▸ hspace, by simpa using hnone⟩
  · next hother =>
      cases h
      refine of_none (Option.not_isSome_iff_eq_none.mp fun hm => ?_)
      rw [hwf hm] at hother
      cases hother

/-- An ACK only frees space. -/
theorem handleNewAck {ack : Uint} (h : Throttled c) (hwf : WellFormed c)
    (hfree : c.tcb.state = .established → rbLeft c.tcb.outbuf ≤ rbLeft (rbAdvance c.tcb.outbuf ack))
    (hack : handleNewAck c ack now = some c') : Throttled c' := by
  obtain ⟨r, d, heq⟩ := ackUna_eq c.tcb ack now
  rw [Ptrtd.handleNewAck, heq] at hack
  dsimp only at hack
  split at hack
  · next hest =>
      obtain ⟨x, hx, rfl⟩ := Option.map_eq_some_iff.mp hack
      refine (output hx hwf.map rfl hest ?_).neutral (.ackTimer x ack now)
      intro hread
      have hm : c.map.isSome = true := by
        obtain ⟨p, hp⟩ := Option.isSome_iff_exists.mp hread
        obtain ⟨m, hm, -⟩ := Option.bind_eq_some_iff.mp hp
        rw [hm]
        rfl
      exact lt_of_lt_of_le ((h.est hest hm).mp hread) (hfree hest)
  iterate 3
    · next hs =>
        cases hack
        refine neutral (of_past ?_ ?_) (.ackTimer _ ack now)
        · rw [hs]
          decide
        · rw [hs]
          decide
  · cases hack
    exact h.neutral (.of_eq rfl rfl rfl)

theorem handleAllAcked {f : Flow} (h : Throttled c) (hwf : WellFormed c)
    (hf : handleAllAcked c now = some f) : Throttled f.conn := by
  rw [Ptrtd.handleAllAcked] at hf
  split at hf
  · next hsyn =>
      obtain ⟨x, hx, rfl⟩ := Option.map_eq_some_iff.mp hf
      refine output hx hwf.map rfl rfl (fun hread => ?_)
      have hnone : c.readPtr.isSome = true := hread
      rw [h.syn hsyn] at hnone
      cases hnone
  · next hs =>
      cases hf
      exact of_past (by rw [Flow.conn, tcbDelete, hs]; decide)
        (by rw [Flow.conn, tcbDelete, hs]; decide)
  · split at hf
    · cases hf
      exact of_past (by rintro ⟨⟩) (by rintro ⟨⟩)
    · cases hf
      exact h
  · split at hf
    · cases hf
      exact of_past (by rintro ⟨⟩) (by rintro ⟨⟩)
    · cases hf
      exact h
  · cases hf
    exact h

/-- An ACK number that is new frees a part of `outbuf` or nothing. -/
def Frees (c : Conn) (s : Segment) : Prop :=
  s.isRst = false → s.isAck = true → c.tcb.sndUna < s.ack → c.tcb.state = .established →
    rbLeft c.tcb.outbuf ≤ rbLeft (rbAdvance c.tcb.outbuf s.ack)

theorem handleAck {f : Flow} (h : Throttled c) (hwf : WellFormed c) (hrst : s.isRst = false)
    (hfree : Frees c s) (hf : handleAck c s now = some f) : Throttled f.conn := by
  rcases handleAck_cases hf with ⟨-, rfl⟩ | ⟨hflag, x, hnew, hall⟩
  · exact h
  · have hx : Throttled x ∧ WellFormed x := by
      rcases hnew with ⟨hlt, hnew⟩ | ⟨-, rfl⟩
      · exact ⟨h.handleNewAck hwf (hfree hrst hflag hlt) hnew, hwf.handleNewAck hnew⟩
      · exact ⟨h, hwf⟩
    rcases hall with ⟨-, hall⟩ | ⟨-, rfl⟩
    · exact hx.1.handleAllAcked hx.2 hall
    · exact hx.1

theorem handleData (h : Throttled c) (hdata : handleData c s now = some c') : Throttled c' := by
  cases handleData_effect hdata with
  | ignored => exact h
  | data _ hrecv _ => exact h.neutral (.tcpRecvData hrecv)
  | finWait2 => exact of_past nofun nofun
  | finWait1 => exact of_past nofun nofun
  | closeWait _ _ _ hclose =>
      obtain ⟨m, ev, e, d, -, -, -, -, rfl⟩ := tcpRemoteClose_eq rfl hclose
      exact of_past (by rintro ⟨⟩) (by rintro ⟨⟩)

theorem handleTcp (h : Throttled c) (hwf : WellFormed c) (hfree : Frees c s)
    (htcp : handleTcp c s now = some c') : Throttled c' := by
  rcases handleTcp_cases htcp with ⟨-, hrst⟩ | ⟨hrst, hdone⟩ | ⟨hrst, x, hnext, hrest⟩
  · obtain ⟨m, ev, d, hm, -, rfl⟩ := handleRst_eq hrst
    exact of_none (hwf.map_killed hm)
  · exact h.handleAck hwf hrst hfree hdone
  · have hx : Throttled x := h.handleAck hwf hrst hfree hnext
    rcases hrest with ⟨-, rfl⟩ | ⟨-, hdata⟩
    · exact hx.neutral (.handleOld x)
    · exact (hx.neutral (.handleWindow x s)).handleData hdata

/-! ## Socket callbacks -/

theorem closeBoth (h : closeBoth c = some c') : Throttled c' := by
  cases closeBoth_effect h with
  | reset => exact of_none rfl
  | fin => exact of_none rfl

/-- When `handle_fd_can_read` has stored data and stays registered, there is space left. -/
theorem left_of_again {r : ReadResult} (h : handleFdCanRead c r = some (c', true)) :
    c' = c ∨ rbLeft c'.tcb.outbuf ≠ 0 := by
  obtain ⟨m, -, h⟩ := Option.bind_eq_some_iff.mp h
  dsimp only at h
  generalize (if tcpGetOutputSpace c.tcb < 0 ∨ tcpGetOutputSpace c.tcb > tbSize then
    (tbSize : ℤ) else tcpGetOutputSpace c.tcb) = len at h
  split at h
  · cases h
  · cases r with
    | again =>
        cases h
        exact .inl rfl
    | eof | error =>
        obtain ⟨x, -, hx⟩ := Option.map_eq_some_iff.mp h
        cases hx
    | data d =>
        dsimp only at h
        split at h
        · obtain ⟨x, -, hx⟩ := Option.bind_eq_some_iff.mp h
          split at hx
          · cases hx
          · next hleft =>
              cases hx
              exact .inr hleft
        · cases h

theorem tcpSend_left {d : List Uchar} (hok : c.tcb.outbuf.Ok) (h : tcpSend c d = some a) :
    0 ≤ rbLeft a.tcb.outbuf ∧ a.map = c.map ∧ a.tcb.state = c.tcb.state := by
  obtain ⟨r, k, l, m, e, hw, rfl⟩ := tcpSend_eq h
  obtain ⟨r', k', hw', hspec⟩ := Buffer.rbWrite_spec hok d
  rw [hw'] at hw
  obtain ⟨rfl, rfl⟩ := Prod.mk.inj (Option.some.inj hw)
  refine ⟨?_, rfl, rfl⟩
  have hused := hspec.ok.used_le
  change 0 ≤ (r'.size : ℤ) - r'.used
  omega

/-- Reading stops when the buffer is full. -/
theorem canRead {r : ReadResult} {again : Bool} (h : Throttled c) (hok : c.tcb.outbuf.Ok)
    (hread : c.readPtr.isSome = true) (hsyn : c.tcb.state ≠ .synRecvd)
    (hcall : handleFdCanRead c r = some (c', again)) : Throttled c' := by
  obtain ⟨m, hm, hcases⟩ := handleFdCanRead_cases hcall
  cases hcases with
  | full => exact h
  | again => exact h
  | closed _ hclose => exact closeBoth hclose
  | @filled d x _ hsend hfull =>
      refine ⟨fun _ => rfl, fun _ _ => ⟨nofun, fun hspace => ?_⟩⟩
      exact absurd hfull (ne_of_gt hspace)
  | sent _ hsend =>
      obtain ⟨hnonneg, hmap, hstate⟩ := tcpSend_left hok hsend
      rcases left_of_again hcall with rfl | hleft
      · exact h
      · refine ⟨fun hs => absurd (hstate ▸ hs) hsyn, fun _ _ => ⟨fun _ => ?_, fun _ => ?_⟩⟩
        · omega
        · rw [Conn.readPtr, hmap]
          exact hread

theorem canWrite {r : WriteResult} {again : Bool} (h : Throttled c)
    (hcall : handleFdCanWrite c r = some (c', again)) : Throttled c' := by
  obtain ⟨m, hm, hcases⟩ := handleFdCanWrite_cases hcall
  have hafter : ∀ {x d}, Ptrtd.tcpRead c tbSize = some (x, d) →
      Neutral c { x with map := some (afterRead m d) } := by
    intro x d hread
    have hx := Neutral.tcpRead hread
    have hm' : x.map = some m := by
      obtain ⟨_, _, _, _, -, rfl⟩ := tcpRead_eq hread
      exact hm
    rw [afterRead]
    split
    · exact hx.trans (.setWrite hm')
    · exact hx.trans (.of_eq rfl hm'.symm rfl)
  cases hcases with
  | again _ hread => exact h.neutral (hafter hread)
  | closed _ _ hclose => exact closeBoth hclose
  | wrote _ _ _ hread => exact (h.neutral (hafter hread)).neutral (.of_eq rfl rfl rfl)

theorem didConnect {ok again : Bool} (h : Throttled c)
    (hcall : handleFdDidConnect c ok = some (c', again)) : Throttled c' := by
  obtain ⟨-, m, hm, ⟨-, rfl⟩ | ⟨-, hclose⟩⟩ := handleFdDidConnect_cases hcall
  · have hconn : Throttled { c with map := some { m with eFdWrite := none } } :=
      h.neutral (.setWrite hm)
    exact hconn.neutral (.tcpAccept _)
  · exact closeBoth hclose

theorem fdEvent {addr : ℕ} {io : Io} (h : Throttled c) (hwf : WellFormed c)
    (hreg : Registered True c) (hok : c.tcb.outbuf.Ok) (hlive : c.live = true)
    (hrun : runFdEvent c addr io = some c') : Throttled c' := by
  obtain ⟨e, he, -, hdata, x, again, rfl, hcases⟩ := runFdEvent_cases hrun
  have hx : Throttled x := by
    rcases hcases with ⟨r, hf, -, hcall⟩ | ⟨r, -, -, hcall⟩ | ⟨ok, -, -, hcall⟩
    · have hown := owns_of_tcpMap hdata
      refine h.canRead hok ?_ (fun hsyn => ?_) hcall
      · rw [(hreg.pointed he hown).1 hf]
        rfl
      · have hconn := hwf.synFd hlive hsyn e he hown
        rw [hf] at hconn
        cases hconn
    · exact h.canWrite hcall
    · exact h.didConnect hcall
  rw [finishFd]
  split
  · exact hx
  · exact hx.neutral (.of_eq rfl rfl rfl)

/-! ## Runs -/

theorem call {k : AppCall} (h : Throttled c) (hmap : c.map = none) (hcall : CallExact c k c') :
    Throttled c' := by
  cases hcall with
  | accept => exact h.neutral (.tcpAccept c)
  | send _ _ hsend =>
      obtain ⟨_, _, _, _, _, -, rfl⟩ := tcpSend_eq hsend
      exact of_none hmap
  | read hread => exact h.neutral (.tcpRead hread)
  | @close hard =>
      generalize hclosed : tcpClose c hard = a
      cases tcpClose_cases hclosed with
      | reset | fin => exact of_none hmap

theorem step (h : Throttled c) (hwf : WellFormed c) (hreg : Registered True c)
    (hok : c.live = true → c.tcb.outbuf.Ok)
    (hfree : ∀ s now, i = .packet s now → Frees (c.receive s) s)
    (hstep : step c i = some c') : Throttled c' := by
  obtain ⟨hlive, hexact⟩ := step_exact hstep
  cases hexact with
  | @packet s now _ htcp =>
      have hr : Throttled (c.receive s) := h.neutral (.of_eq rfl rfl rfl)
      exact hr.handleTcp (hwf.receive s) (hfree s now rfl) htcp
  | timeEvent hrun =>
      obtain ⟨e, -, -, -, ⟨-, rfl⟩ | ⟨-, rfl⟩⟩ := runTimeEvent_cases hrun
      · exact (h.neutral (.tcpTimeout c)).neutral (.of_eq rfl rfl rfl)
      · exact h.neutral (.of_eq rfl rfl rfl)
  | fdEvent hrun => exact h.fdEvent hwf hreg (hok hlive) hlive hrun
  | alwaysEvent hrun =>
      obtain ⟨e, -, -, -, a, again, hw, rfl⟩ := runAlwaysEvent_cases hrun
      have ha := h.neutral (.wrote hw)
      split
      · exact ha
      · exact ha.neutral (.of_eq rfl rfl rfl)
  | call hcb hcall => exact h.call (hwf.map_none (by rw [hcb]; nofun)) hcall
  | others => exact h.neutral (.of_eq rfl rfl rfl)

/-- A new map waits for the handshake, or at most for its `connect`. -/
theorem waiting {m : TcpMap} (hmap : c.map = some m) (hread : m.eFdRead = none)
    (hsyn : c.tcb.state = .synRecvd) : Throttled c := by
  refine ⟨fun _ => by rw [readPtr_eq hmap, hread], fun hest => ?_⟩
  rw [hsyn] at hest
  cases hest

theorem of_start {app : TcpCallback} (h : Start app c) : Throttled c := by
  obtain ⟨self, isn, ev, syn, -, hopen⟩ := start_exact h
  cases hopen with
  | other => exact of_none rfl
  | @connected fd =>
      have hnew : Throttled { Conn.fresh self app isn ev syn with map := some ⟨fd, none, none⟩ } :=
        waiting rfl rfl rfl
      exact hnew.neutral (.tcpAccept _)
  | inProgress => exact waiting rfl rfl rfl
  | failed _ hclose => exact closeBoth hclose

end Throttled

/-! ## Runs in which ACK numbers were sent -/

/-- An ACK number that was sent lies in the buffer or just behind it. -/
theorem AckWithin.frees (h : AckWithin c s) (hw : Windowed c b w u n) (hkept : c.outlet.Kept u) :
    Throttled.Frees c s := by
  intro hrst hflag hlt hest
  have hle := h hrst hflag
  have huna := hw.una
  rw [BitVec.lt_def] at hlt
  obtain ⟨j, hj⟩ : ∃ j, s.ack.toNat = c.tcb.iss.toNat + j := Nat.exists_eq_add_of_le (by omega)
  have hopen : c.trace.high ≤ max u (1 + c.trace.written.length) := hkept.open_le hest
  have hheld : 1 + c.trace.written.length ≤ max u 1 + c.tcb.outbuf.used := hkept.held
  have hat : SeqNum.At c.outlet.iss s.ack j := SeqNum.at_of_toNat_eq hj
  have hend : j ≤ 1 + c.outlet.written.length := by
    change j ≤ 1 + c.trace.written.length
    omega
  have hstill : 1 + c.outlet.written.length ≤ j + c.outlet.outbuf.used := by
    change 1 + c.trace.written.length ≤ j + c.tcb.outbuf.used
    omega
  obtain ⟨hafter, hused⟩ := hkept.buffered.advance hat hend hstill
  have hsize : (rbAdvance c.tcb.outbuf s.ack).size = 16384 := hafter.size
  have hsize' : c.tcb.outbuf.size = 16384 := hkept.buffered.size
  have hless : (rbAdvance c.tcb.outbuf s.ack).used ≤ c.tcb.outbuf.used := by
    change (rbAdvance c.tcb.outbuf s.ack).used = _ at hused
    rw [hused]
    change 1 + c.trace.written.length - j ≤ c.tcb.outbuf.used
    omega
  rw [rbLeft, rbLeft, hsize, hsize']
  omega

/-- The peer acknowledges what it was sent, sequence numbers do not wrap, and `write` does not
return EAGAIN. -/
def Smooth (c : Conn) (i : Input) : Prop :=
  SentOnly c i ∧
    match i with
    | .fdEvent _ (.write r) => r ≠ .again
    | _ => True

instance (c : Conn) : (i : Input) → Decidable (Smooth c i)
  | .fdEvent _ (.read _) | .fdEvent _ (.write _) | .fdEvent _ (.connect _) | .packet _ _
  | .timeEvent _ | .alwaysEvent _ _ | .call _ | .others _ => inferInstanceAs (Decidable (_ ∧ _))

theorem isSome_of_readPtr (h : c.readPtr.isSome = true) : c.map.isSome = true := by
  obtain ⟨p, hp⟩ := Option.isSome_iff_exists.mp h
  obtain ⟨m, hm, -⟩ := Option.bind_eq_some_iff.mp hp
  rw [hm]
  rfl

/-- The read event runs after the handshake, and only while there is space. -/
theorem Throttled.space_of_read {addr : ℕ} {r : ReadResult} (h : Throttled c) (hwf : WellFormed c)
    (hreg : Registered True c) (hlive : c.live = true)
    (hrun : runFdEvent c addr (.read r) = some c') : 0 < rbLeft c.tcb.outbuf := by
  obtain ⟨e, he, -, hdata, a, again, -, hcases⟩ := runFdEvent_cases hrun
  have hown := owns_of_tcpMap hdata
  have hf : e.func = .handleFdCanRead := by
    rcases hcases with ⟨_, hf, -, -⟩ | ⟨_, -, hio, -⟩ | ⟨_, -, hio, -⟩
    · exact hf
    · cases hio
    · cases hio
  have hread : c.readPtr.isSome = true := by
    rw [(hreg.pointed he hown).1 hf]
    rfl
  have hmap := isSome_of_readPtr hread
  have hpast := hwf.reader_state hlive he hown (.inl hf)
  exact (h.est ((hwf.attached hmap).resolve_left hpast) hmap).mp hread

/-- `read` is given as much as there is output space, and returns no more than that. -/
theorem fits_of_canRead {d : List Uchar} {again : Bool} (hspace : 0 < rbLeft c.tcb.outbuf)
    (h : handleFdCanRead c (.data d) = some (c', again)) :
    (d.length : ℤ) ≤ rbLeft c.tcb.outbuf := by
  obtain ⟨m, -, h⟩ := Option.bind_eq_some_iff.mp h
  dsimp only at h
  rw [tcpGetOutputSpace] at h
  generalize hlen : (if rbLeft c.tcb.outbuf < 0 ∨ rbLeft c.tcb.outbuf > tbSize then
    (tbSize : ℤ) else rbLeft c.tcb.outbuf) = len at h
  rw [tbSize] at hlen
  have hle : 0 < len ∧ len ≤ rbLeft c.tcb.outbuf := by
    split at hlen <;> omega
  split at h
  · omega
  · split at h
    · next hd => exact hd.2.trans hle.2
    · cases h

/-- Nothing of what the socket gives is lost on the way into the buffer. -/
theorem stored_of_read {addr : ℕ} {d : List Uchar} (hok : c.tcb.outbuf.Ok)
    (hspace : 0 < rbLeft c.tcb.outbuf) (hrun : runFdEvent c addr (.read (.data d)) = some c') :
    ∃ r, rbWrite c.tcb.outbuf d = some (r, d.length) := by
  obtain ⟨e, -, -, -, a, again, -, hcases⟩ := runFdEvent_cases hrun
  rcases hcases with ⟨_, -, hio, hcall⟩ | ⟨_, -, hio, -⟩ | ⟨_, -, hio, -⟩
  · cases hio
    have hfit := fits_of_canRead hspace hcall
    obtain ⟨r, n, hw, hspec⟩ := Buffer.rbWrite_spec hok d
    have hn : n = d.length := by
      have hstored := hspec.stored
      rw [rbLeft] at hfit
      omega
    exact ⟨r, hn ▸ hw⟩
  · cases hio
  · cases hio

/-! ## Runs -/

/-- The map waits for the IPv4 socket: `e_fd_read` is an event in `fd_event_list` that calls
`handle_fd_can_read` for it. -/
def Conn.Reads (c : Conn) : Prop :=
  ∃ m e, c.map = some m ∧ m.eFdRead = some e.addr ∧ e ∈ c.ev.fdEventList ∧
    e.func = .handleFdCanRead ∧ e.data = .tcpMap c.self

theorem Registered.reads_iff (h : Registered True c) : c.Reads ↔ c.readPtr.isSome = true := by
  constructor
  · rintro ⟨m, e, hm, hptr, -⟩
    rw [readPtr_eq hm, hptr]
    rfl
  · intro hsome
    obtain ⟨p, hp⟩ := Option.isSome_iff_exists.mp hsome
    obtain ⟨m, hm, hptr⟩ := Option.bind_eq_some_iff.mp hp
    obtain ⟨q, hq, hcase⟩ := h.read
    rcases hcase with rfl | ⟨hnot, -⟩
    · rw [hp] at hq
      obtain ⟨e, he, hmine, rfl⟩ := hq.exists_mem
      obtain ⟨hown, hfunc⟩ := Bool.and_eq_true_iff.mp hmine
      exact ⟨m, e, hm, hptr, he, by simpa using hfunc, (h.shape e he hown).1⟩
    · exact absurd trivial hnot

/-- What carries a run in which `write` never blocks. -/
structure Pressed (c : Conn) : Prop where
  queued : Queued c
  once : AcceptOnce c
  timer : TimerOk False c
  located : Located c
  registered : Registered True c
  throttled : Throttled c

theorem Located.outbuf_ok (h : Located c) (hlive : c.live = true) : c.tcb.outbuf.Ok := by
  obtain ⟨_, _, _, _, -, hkept⟩ := h hlive
  exact hkept.buffered.ok

theorem Pressed.step (h : Pressed c) (hwf : WellFormed c) (hok : Smooth c i)
    (hstep : step c i = some c') : Pressed c' := by
  obtain ⟨hlive, hstepped⟩ := step_cases hstep
  obtain ⟨hsent, hio⟩ := hok
  refine ⟨h.queued.step hstep, h.once.step hwf hstep,
    h.timer.stepped hwf hlive False.elim hstepped,
    h.located.stepped hwf h.queued h.once h.timer hsent hlive hstepped, ?_, ?_⟩
  · refine h.registered.stepped hwf (fun _ addr r hi => ?_) (fun _ addr hi => ?_) hstep
    · subst hi
      obtain ⟨-, hexact⟩ := step_exact hstep
      cases hexact with
      | fdEvent hrun => exact ne_of_gt (h.throttled.space_of_read hwf h.registered hlive hrun)
    · subst hi
      exact hio rfl
  · refine h.throttled.step hwf h.registered h.located.outbuf_ok ?_ hstep
    rintro s now rfl
    obtain ⟨b, w, u, n, hw, hkept⟩ := h.located hlive
    exact hsent.2.frees hw hkept

theorem Pressed.of_reached (h : Reached Smooth c) : Pressed c := by
  apply h.run_invariant
  · exact fun _ _ hs => ⟨.of_start hs, .of_start hs, .of_start hs, .of_start hs, .of_start hs,
      .of_start hs⟩
  · exact fun _ _ _ hwf hinv hok hstep => hinv.step hwf hok hstep

/-- Between any two callbacks, an open connection of the relay waits for its IPv4 socket exactly
when `outbuf` has space, and what the socket gives always fits. -/
theorem reads_iff_space (h : Reached Smooth c) :
    (c.live = true → c.tcb.cb = some .tcpMapCb → c.tcb.state = .established →
      (c.Reads ↔ 0 < rbLeft c.tcb.outbuf)) ∧
    ∀ addr d c', step c (.fdEvent addr (.read (.data d))) = some c' →
      ∃ r, rbWrite c.tcb.outbuf d = some (r, d.length) := by
  have hinv := Pressed.of_reached h
  have hwf := WellFormed.of_reached h
  constructor
  · intro hlive hcb hest
    have hmap : c.map.isSome = true := (Attached.of_reached h).mpr ⟨hlive, hcb⟩
    exact hinv.registered.reads_iff.trans (hinv.throttled.est hest hmap)
  · intro addr d c' hstep
    obtain ⟨hlive, hexact⟩ := step_exact hstep
    cases hexact with
    | fdEvent hrun =>
        have hspace := hinv.throttled.space_of_read hwf hinv.registered hlive hrun
        exact stored_of_read (hinv.located.outbuf_ok hlive) hspace hrun

/-- A byte from the socket fits, and the map goes on waiting for more. -/
theorem reads_iff_space_byte : ∃ c, Reached Smooth c ∧ c.Reads ∧ c.trace.written = [7] := by
  have hexec : (execFrom Smooth .tcpMapCb 0 (clientSyn 8192) (.connected 5)
      (handshake ++ [.fdEvent 1 (.read (.data [7]))])).any
      (fun c => c.live = true ∧ c.tcb.cb = some .tcpMapCb ∧ c.tcb.state = .established ∧
        0 < rbLeft c.tcb.outbuf ∧ c.trace.written = [7]) = true := by
    decide +kernel
  obtain ⟨c, hreach, hc⟩ := reached_of_exec hexec
  obtain ⟨hlive, hcb, hest, hspace, hwritten⟩ := of_decide_eq_true hc
  exact ⟨c, hreach, ((reads_iff_space hreach).1 hlive hcb hest).mpr hspace, hwritten⟩

end Ptrtd
