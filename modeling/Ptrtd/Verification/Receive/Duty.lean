import Ptrtd.Verification.Receive.Intake
import Ptrtd.Verification.Send.Window

/-! # What the receiver owes

The need for an acknowledgement is kept in `last_acked`: it lies below `rcv_nxt` as long as
one is owed, and the write event is pending then. Two places take one from `last_acked`, for
an old segment and when a full buffer is read. This is safe because the write event runs
between two packets. -/

namespace Ptrtd

variable {p : Prop} {a c c' : Conn} {read : Bool} {s : Segment} {now : Timeval}

/-! ## Parts that do not concern the receiver -/

/-- The application may still read: the window is that of the buffer. -/
def Conn.Reading (c : Conn) : Prop := c.tcb.state = .synRecvd ∨ c.tcb.state = .established

/-- A part of a step that leaves received data and acknowledgements alone. -/
structure Aside (c c' : Conn) : Prop where
  inbuf : c'.tcb.inbuf = c.tcb.inbuf
  irs : c'.tcb.irs = c.tcb.irs
  rcvNxt : c'.tcb.rcvNxt = c.tcb.rcvNxt
  rcvWnd : c'.tcb.rcvWnd = c.tcb.rcvWnd
  lastAcked : c'.tcb.lastAcked = c.tcb.lastAcked
  sent : c'.trace.sent = c.trace.sent
  pending : c.tcb.eTcbSend.isSome = true → c'.tcb.eTcbSend.isSome = true
  reading : c'.Reading → c.Reading
  past : c.tcb.state ≠ .synRecvd → c'.tcb.state ≠ .synRecvd
  answered : c'.tcb.state ≠ .synRecvd → c.tcb.state ≠ .synRecvd ∨ c.trace.sent ≠ []

namespace Aside

theorem refl : Aside c c := ⟨rfl, rfl, rfl, rfl, rfl, rfl, id, id, id, .inl⟩

theorem trans (h : Aside c a) (h' : Aside a c') : Aside c c' := by
  refine ⟨h'.inbuf.trans h.inbuf, h'.irs.trans h.irs, h'.rcvNxt.trans h.rcvNxt,
    h'.rcvWnd.trans h.rcvWnd, h'.lastAcked.trans h.lastAcked, h'.sent.trans h.sent,
    fun hs => h'.pending (h.pending hs), fun hs => h.reading (h'.reading hs),
    fun hs => h'.past (h.past hs), fun hs => ?_⟩
  rcases h'.answered hs with ha | ha
  · exact h.answered ha
  · exact .inr (h.sent ▸ ha)

/-- The state stays, and the write event may be scheduled. -/
theorem of_eq (hinbuf : c'.tcb.inbuf = c.tcb.inbuf) (hirs : c'.tcb.irs = c.tcb.irs)
    (hnxt : c'.tcb.rcvNxt = c.tcb.rcvNxt) (hwnd : c'.tcb.rcvWnd = c.tcb.rcvWnd)
    (hlast : c'.tcb.lastAcked = c.tcb.lastAcked) (hsent : c'.trace.sent = c.trace.sent)
    (hstate : c'.tcb.state = c.tcb.state)
    (hpending : c.tcb.eTcbSend.isSome = true → c'.tcb.eTcbSend.isSome = true) : Aside c c' := by
  refine ⟨hinbuf, hirs, hnxt, hwnd, hlast, hsent, hpending, fun hs => ?_, fun hs => ?_,
    fun hs => .inl ?_⟩
  · rwa [Conn.Reading, hstate] at hs
  · rwa [hstate]
  · rwa [hstate] at hs

/-- The state moves on within those that no longer read. -/
theorem of_moved (hinbuf : c'.tcb.inbuf = c.tcb.inbuf) (hirs : c'.tcb.irs = c.tcb.irs)
    (hnxt : c'.tcb.rcvNxt = c.tcb.rcvNxt) (hwnd : c'.tcb.rcvWnd = c.tcb.rcvWnd)
    (hlast : c'.tcb.lastAcked = c.tcb.lastAcked) (hsent : c'.trace.sent = c.trace.sent)
    (hpending : c.tcb.eTcbSend.isSome = true → c'.tcb.eTcbSend.isSome = true)
    (hold : c.tcb.state ≠ .synRecvd) (hnew : ¬c'.Reading) : Aside c c' :=
  ⟨hinbuf, hirs, hnxt, hwnd, hlast, hsent, hpending, fun hs => absurd hs hnew,
    fun _ hs => hnew (.inl hs), fun _ => .inl hold⟩

theorem markForIfWrite (c : Conn) : Aside c (markForIfWrite c) := by
  have hwakes := Wakes.markForIfWrite c
  obtain ⟨l, n, e, -, heq⟩ := markForIfWrite_eq c
  rw [heq] at hwakes ⊢
  exact of_eq rfl rfl rfl rfl rfl rfl rfl hwakes.isSome

theorem tcpAccept (c : Conn) : Aside c (tcpAccept c) := by
  have hcall : Aside c { c with trace := { c.trace with acceptCalled := true } } :=
    of_eq rfl rfl rfl rfl rfl rfl rfl id
  exact hcall.trans (markForIfWrite _)

theorem tcpSend {d : List Uchar} (h : tcpSend c d = some c') : Aside c c' := by
  have hwakes := Wakes.tcpSend h
  obtain ⟨r, k, l, n, e, -, rfl⟩ := tcpSend_eq h
  exact of_eq rfl rfl rfl rfl rfl rfl rfl hwakes.isSome

theorem tcpTimeout (c : Conn) : Aside c (tcpTimeout c) := by
  have hwakes := Wakes.tcpTimeout c
  obtain ⟨l, n, e, w, -, -, -, heq⟩ := tcpTimeout_eq c
  rw [heq] at hwakes ⊢
  exact of_eq rfl rfl rfl rfl rfl rfl rfl hwakes.isSome

theorem handleNewAck {ack : Uint} (h : handleNewAck c ack now = some c') : Aside c c' := by
  have hwakes := Wakes.handleNewAck h
  obtain ⟨_, _, _, _, _, _, _, _, -, -, -, rfl⟩ := handleNewAck_eq h
  exact of_eq rfl rfl rfl rfl rfl rfl rfl hwakes.isSome

theorem enterTimeWait (hold : c.tcb.state ≠ .synRecvd) : Aside c (enterTimeWait c now) := by
  obtain ⟨l, n, e, heq⟩ := enterTimeWait_eq c now
  rw [heq]
  exact of_moved rfl rfl rfl rfl rfl rfl id hold (fun hs => hs.elim nofun nofun)

theorem handleWindow (c : Conn) (s : Segment) : Aside c (handleWindow c s) := by
  have hwakes := Wakes.handleWindow c s
  obtain ⟨l, n, e, heq⟩ := handleWindow_eq c s
  rw [heq] at hwakes ⊢
  exact of_eq rfl rfl rfl rfl rfl rfl rfl hwakes.isSome

/-- The handshake completes only after an answer to the SYN. -/
theorem handleAllAcked {f : Flow} (hanswer : c.tcb.state = .synRecvd → c.trace.sent ≠ [])
    (hf : handleAllAcked c now = some f) (hlive : f.conn.live = true) : Aside c f.conn := by
  cases handleAllAcked_effect hf with
  | opened hstate _ hchange =>
      obtain ⟨m, l, n, -, rfl⟩ := hchange
      exact ⟨rfl, rfl, rfl, rfl, rfl, rfl, id, fun _ => .inl hstate, fun _ => nofun,
        fun _ => .inr (hanswer hstate)⟩
  | deleted => cases hlive
  | finAcked hstate =>
      exact of_moved rfl rfl rfl rfl rfl rfl id (by rw [hstate]; nofun)
        (fun hs => hs.elim nofun nofun)
  | bothClosed hstate => exact enterTimeWait (by rw [hstate]; nofun)
  | stillClosing => exact refl
  | other => exact refl

theorem handleAck {f : Flow}
    (hanswer : c.tcb.state = .synRecvd → s.isAck = true → c.trace.sent ≠ [])
    (hf : handleAck c s now = some f) (hlive : f.conn.live = true) : Aside c f.conn := by
  rcases handleAck_cases hf with ⟨-, rfl⟩ | ⟨hack, x, hnew, hall⟩
  · exact refl
  · obtain ⟨hx, hstate⟩ : Aside c x ∧ x.tcb.state = c.tcb.state := by
      rcases hnew with ⟨-, hnew⟩ | ⟨-, rfl⟩
      · refine ⟨handleNewAck hnew, ?_⟩
        obtain ⟨_, _, _, _, _, _, _, _, -, -, -, rfl⟩ := handleNewAck_eq hnew
        rfl
      · exact ⟨refl, rfl⟩
    rcases hall with ⟨-, hall⟩ | ⟨-, rfl⟩
    · refine hx.trans (handleAllAcked (fun hsyn => ?_) hall hlive)
      rw [hx.sent]
      exact hanswer (hstate ▸ hsyn) hack
    · exact hx

end Aside

/-! ## The buffer and its window -/

theorem Stored.used_le {r : Ringbuf} {w : Uint} {x : List Uchar} (h : Stored c s r w x)
    (hwf : WellFormed c) : r.used ≤ c.tcb.inbuf.used + s.data.length ∧ r.size = 16384 ∧
      r.used ≤ 16384 := by
  have hsize := hwf.inSize
  have hused := hwf.inbuf.ok.used_le
  rcases h with ⟨-, rfl, -, -⟩ | ⟨-, -, n, hw, -, -⟩
  · omega
  · obtain ⟨hspec, -⟩ := Buffer.from_write hwf.inbuf hw
    have hn := hspec.stored
    have hr := hspec.used
    have hs := hspec.size
    omega

/-- The window of a buffer fits into the field of the segment. -/
theorem ofInt_left_toNat {r : Ringbuf} (hsize : r.size = 16384) (hused : r.used ≤ 16384) :
    (BitVec.ofInt 32 (rbLeft r)).toNat = 16384 - r.used := by
  have hleft : rbLeft r = (16384 - r.used : ℕ) := by
    rw [rbLeft]
    omega
  rw [hleft, BitVec.ofInt_natCast, BitVec.toNat_ofNat, Nat.mod_eq_of_lt (by omega)]

/-- The peer's sequence numbers do not wrap in the segment, and it does not fill the buffer on
its own if the number after the peer's SYN is zero. -/
def PeerInSpace (c : Conn) (s : Segment) : Prop :=
  s.seq.toNat + s.data.length + (if s.isFin then 1 else 0) < 2 ^ 32 ∧
    (c.tcb.irs.toNat + 1 < 2 ^ 32 ∨ s.data.length < 16384)

instance (c : Conn) (s : Segment) : Decidable (PeerInSpace c s) :=
  inferInstanceAs (Decidable (_ ∧ _))

theorem toNat_sub_one {x : Uint} (h : 0 < x.toNat) : (x - 1).toNat = x.toNat - 1 :=
  BitVec.toNat_sub_of_le (BitVec.le_def.mpr h)

/-! ## The invariant -/

/-- What `last_acked` says about the last segment that was sent. The two bounds leave room for
what is taken from `last_acked` until the write event runs. -/
structure Owed (c : Conn) (read : Bool) (s : Segment) : Prop where
  le : c.tcb.lastAcked.toNat ≤ c.tcb.rcvNxt.toNat
  due : c.tcb.lastAcked.toNat < c.tcb.rcvNxt.toNat → c.tcb.eTcbSend.isSome = true
  ack : c.tcb.lastAcked.toNat = c.tcb.rcvNxt.toNat → s.ack = c.tcb.rcvNxt
  wnd : c.Reading → s.wnd = 0 →
    rbLeft c.tcb.inbuf = 0 ∨ c.tcb.lastAcked.toNat < c.tcb.rcvNxt.toNat
  old : read = false → 0 < c.tcb.rcvNxt.toNat → 0 < c.tcb.lastAcked.toNat
  full : rbLeft c.tcb.inbuf = 0 → (if read then 0 else 1) < c.tcb.lastAcked.toNat

/-- The invariant of the receiver. `read` says that a packet has been read since the always
events ran, and `p` that an acknowledgement is owed. -/
structure Duty (p : Prop) (c : Conn) (read : Bool) : Prop where
  used : c.tcb.inbuf.used ≤ c.tcb.rcvNxt.toNat
  irs : c.tcb.irs.toNat + 1 < 2 ^ 32 → 0 < c.tcb.rcvNxt.toNat
  rcvWnd : c.Reading → c.tcb.rcvWnd = BitVec.ofInt 32 (rbLeft c.tcb.inbuf)
  small : c.tcb.rcvWnd.toNat ≤ 16384
  answered : c.tcb.state ≠ .synRecvd → c.trace.sent ≠ []
  last : ∀ s, c.trace.sent.getLast? = some s → Owed c read s
  owed : p → c.tcb.state ≠ .synRecvd ∧ c.tcb.lastAcked.toNat < c.tcb.rcvNxt.toNat

namespace Duty

/-- The rules are stricter before a packet is read than after. -/
theorem weaken (h : Duty p c false) : Duty p c read := by
  refine ⟨h.used, h.irs, h.rcvWnd, h.small, h.answered, fun s hs => ?_, h.owed⟩
  have ho := h.last s hs
  refine ⟨ho.le, ho.due, ho.ack, ho.wnd, fun _ => ho.old rfl, fun hfull => ?_⟩
  have hlt := ho.full hfull
  rw [if_neg (by nofun)] at hlt
  split <;> omega

theorem aside (h : Duty p c read) (ha : Aside c c') : Duty p c' read := by
  refine ⟨?_, ?_, fun hs => ?_, ?_, fun hs => ?_, fun s hs => ?_, fun hp => ?_⟩
  · rw [ha.inbuf, ha.rcvNxt]
    exact h.used
  · rw [ha.irs, ha.rcvNxt]
    exact h.irs
  · rw [ha.rcvWnd, ha.inbuf]
    exact h.rcvWnd (ha.reading hs)
  · rw [ha.rcvWnd]
    exact h.small
  · rw [ha.sent]
    exact (ha.answered hs).elim h.answered id
  · rw [ha.sent] at hs
    have ho := h.last s hs
    refine ⟨?_, ?_, ?_, fun hr => ?_, ?_, ?_⟩
    · rw [ha.lastAcked, ha.rcvNxt]
      exact ho.le
    · rw [ha.lastAcked, ha.rcvNxt]
      exact fun hlt => ha.pending (ho.due hlt)
    · rw [ha.lastAcked, ha.rcvNxt]
      exact ho.ack
    · rw [ha.inbuf, ha.lastAcked, ha.rcvNxt]
      exact ho.wnd (ha.reading hr)
    · rw [ha.lastAcked, ha.rcvNxt]
      exact ho.old
    · rw [ha.inbuf, ha.lastAcked]
      exact ho.full
  · rw [ha.lastAcked, ha.rcvNxt]
    exact ⟨ha.past (h.owed hp).1, (h.owed hp).2⟩

/-- A segment has been sent when the handshake is over. -/
theorem exists_last (h : Duty p c read) (hpast : c.tcb.state ≠ .synRecvd) :
    ∃ s, c.trace.sent.getLast? = some s ∧ Owed c read s := by
  obtain ⟨s, hs⟩ := Option.isSome_iff_exists.mp
    (List.getLast?_isSome.mpr (h.answered hpast))
  exact ⟨s, hs, h.last s hs⟩

/-! ## Segments -/

theorem handleOld (h : Duty p c false) (hseq : s.seq < c.tcb.rcvNxt) :
    Duty p (handleOld c) true := by
  rw [Ptrtd.handleOld]
  split
  · exact h.weaken
  · next hpast =>
      rw [BitVec.lt_def] at hseq
      obtain ⟨s₀, -, ho₀⟩ := h.exists_last hpast
      have hpos := ho₀.old rfl (by omega)
      have hminus := toNat_sub_one hpos
      have hwakes : (Ptrtd.markForIfWrite
          { c with tcb := { c.tcb with lastAcked := c.tcb.lastAcked - 1 } }).tcb.eTcbSend.isSome =
            true := (Wakes.markForIfWrite _).due trivial
      obtain ⟨l, n, e, -, heq⟩ := markForIfWrite_eq
        { c with tcb := { c.tcb with lastAcked := c.tcb.lastAcked - 1 } }
      rw [heq] at hwakes ⊢
      refine ⟨h.used, h.irs, h.rcvWnd, h.small, h.answered, fun s hs => ?_, fun hp => ?_⟩
      · have ho := h.last s hs
        have hle := ho.le
        refine ⟨?_, fun _ => hwakes, fun hsame => ?_, fun hr hw => .inr ?_, by rintro ⟨⟩,
          fun hfull => ?_⟩
        · dsimp only
          omega
        · dsimp only at hsame
          omega
        · dsimp only
          omega
        · have hlt := ho.full hfull
          rw [if_neg Bool.false_ne_true] at hlt
          rw [if_pos rfl]
          dsimp only
          omega
      · have hlt := (h.owed hp).2
        refine ⟨hpast, ?_⟩
        dsimp only
        omega

/-- Our side closes: nothing is read any more, and the write event is scheduled. -/
theorem closed (h : Duty p c read) (hold : c.tcb.state ≠ .synRecvd) (hnew : ¬c'.Reading)
    (hinbuf : c'.tcb.inbuf = c.tcb.inbuf) (hirs : c'.tcb.irs = c.tcb.irs)
    (hnxt : c'.tcb.rcvNxt = c.tcb.rcvNxt) (hwnd : c'.tcb.rcvWnd = 1000)
    (hlast : c'.tcb.lastAcked = c.tcb.lastAcked) (hsent : c'.trace.sent = c.trace.sent)
    (hpending : c'.tcb.eTcbSend.isSome = true) : Duty p c' read := by
  refine ⟨?_, ?_, fun hs => absurd hs hnew, ?_, fun _ => ?_, fun s hs => ?_, fun hp => ?_⟩
  · rw [hinbuf, hnxt]
    exact h.used
  · rw [hirs, hnxt]
    exact h.irs
  · rw [hwnd]
    decide
  · rw [hsent]
    exact h.answered hold
  · rw [hsent] at hs
    have ho := h.last s hs
    refine ⟨?_, fun _ => hpending, ?_, fun hr => absurd hr hnew, ?_, ?_⟩
    · rw [hlast, hnxt]
      exact ho.le
    · rw [hlast, hnxt]
      exact ho.ack
    · rw [hlast, hnxt]
      exact ho.old
    · rw [hinbuf, hlast]
      exact ho.full
  · rw [hlast, hnxt]
    exact ⟨fun hs => hnew (.inl hs), (h.owed hp).2⟩

theorem tcpRecvData {fin : Bool} (h : Duty p c false) (hwf : WellFormed c)
    (hseq : ¬s.seq < c.tcb.rcvNxt) (hok : PeerInSpace c s)
    (hrecv : tcpRecvData c s = some (c', fin)) : Duty p c' true := by
  have hwakes := Wakes.tcpRecvData hrecv
  obtain ⟨-, m, ev, e, r, w, x, -, hstored, -, rfl⟩ := tcpRecvData_eq hrecv
  obtain ⟨hr, hsize, hfit⟩ := hstored.used_le hwf
  obtain ⟨hspace, hbuf⟩ := hok
  rw [BitVec.lt_def] at hseq
  have hused := h.used
  obtain ⟨k, hk⟩ : ∃ k, k = s.data.length + (if s.isFin then 1 else 0) := ⟨_, rfl⟩
  have hnxt : (c.tcb.rcvNxt + BitVec.ofNat 32 s.data.length + (if s.isFin then 1 else 0)).toNat =
      c.tcb.rcvNxt.toNat + k := by
    rw [BitVec.toNat_add, BitVec.toNat_add, BitVec.toNat_ofNat]
    split at hk <;> split <;> simp_all <;> omega
  refine ⟨?_, fun hirs => ?_, fun hread => ?_, ?_, h.answered, fun t ht => ?_, fun hp => ?_⟩
  · dsimp only
    omega
  · have hpos := h.irs hirs
    dsimp only
    omega
  · rcases hstored with ⟨-, rfl, rfl, -⟩ | ⟨-, -, n, -, rfl, -⟩
    · exact h.rcvWnd hread
    · rfl
  · rcases hstored with ⟨-, rfl, rfl, -⟩ | ⟨-, -, n, -, rfl, -⟩
    · exact h.small
    · dsimp only
      rw [ofInt_left_toNat hsize hfit]
      omega
  · have ho := h.last t ht
    have hle := ho.le
    refine ⟨?_, fun hlt => ?_, fun hsame => ?_, fun hread hw => ?_, nofun, fun hfull => ?_⟩
    · dsimp only
      omega
    · by_cases hk0 : k = 0
      · refine hwakes.isSome (ho.due ?_)
        dsimp only at hlt
        omega
      · refine hwakes.due ?_
        cases hfin : s.isFin with
        | true => exact .inr rfl
        | false =>
            rw [hfin] at hk
            exact .inl (by simp at hk; omega)
    · dsimp only at hsame ⊢
      have hk0 : k = 0 := by omega
      have hnew : c.tcb.rcvNxt + BitVec.ofNat 32 s.data.length + (if s.isFin then 1 else 0) =
          c.tcb.rcvNxt := BitVec.eq_of_toNat_eq (by omega)
      rw [hnew]
      exact ho.ack (by omega)
    · dsimp only
      by_cases hlen : s.data.length = 0
      · have hsame : r = c.tcb.inbuf := by
          rcases hstored with ⟨-, rfl, -, -⟩ | ⟨hpos, -⟩
          · rfl
          · omega
        rw [hsame]
        exact (ho.wnd hread hw).imp id fun hlt => by omega
      · exact .inr (by omega)
    · have hleft : rbLeft r = 0 := hfull
      rw [rbLeft] at hleft
      rw [if_pos rfl]
      -- a number after the SYN that is zero leaves the buffer empty
      by_cases hpos : 0 < c.tcb.rcvNxt.toNat
      · exact ho.old rfl hpos
      · rcases hbuf with hirs | hshort
        · exact absurd (h.irs hirs) hpos
        · omega
  · have hlt := (h.owed hp).2
    refine ⟨(h.owed hp).1, ?_⟩
    dsimp only
    omega

/-- The final switch of `handle_tcp`. -/
theorem handleData (h : Duty p c false) (hwf : WellFormed c) (hseq : ¬s.seq < c.tcb.rcvNxt)
    (hok : PeerInSpace c s) (hdata : handleData c s now = some c') : Duty p c' true := by
  have hrecv : ∀ {x fin}, Ptrtd.tcpRecvData c s = some (x, fin) →
      Duty p x true ∧ x.tcb.state = c.tcb.state := by
    intro x fin hx
    refine ⟨h.tcpRecvData hwf hseq hok hx, ?_⟩
    obtain ⟨-, _, _, _, _, _, _, -, -, -, rfl⟩ := tcpRecvData_eq hx
    rfl
  cases handleData_effect hdata with
  | ignored => exact h.weaken
  | data _ hx _ => exact (hrecv hx).1
  | finWait2 hstate hx =>
      obtain ⟨hd, hsame⟩ := hrecv hx
      exact hd.aside (.enterTimeWait (by rw [hsame, hstate]; nofun))
  | finWait1 hstate hx =>
      obtain ⟨hd, hsame⟩ := hrecv hx
      refine hd.aside (.of_moved rfl rfl rfl rfl rfl rfl id ?_ fun hs => hs.elim nofun nofun)
      rw [hsame, hstate]
      nofun
  | @closeWait x _ hstate _ hx hclose =>
      obtain ⟨hd, hsame⟩ := hrecv hx
      have hpast : x.tcb.state ≠ .synRecvd := by
        rw [hsame, hstate]
        nofun
      obtain ⟨m, ev, e, b, -, -, he, -, rfl⟩ := tcpRemoteClose_eq rfl hclose
      exact hd.closed hpast (fun hs => hs.elim nofun nofun) rfl rfl rfl rfl rfl rfl he

theorem handleTcp (h : Duty p c false) (hwf : WellFormed c) (hok : PeerInSpace c s)
    (hanswer : c.tcb.state = .synRecvd → s.isRst = false → s.isAck = true → c.trace.sent ≠ [])
    (htcp : handleTcp c s now = some c') (hlive : c'.live = true) : Duty p c' true := by
  rcases handleTcp_cases htcp with ⟨-, hrst⟩ | ⟨hrst, hdone⟩ | ⟨hrst, x, hnext, hrest⟩
  · obtain ⟨m, ev, b, -, -, rfl⟩ := handleRst_eq hrst
    cases hlive
  · exact (h.aside (.handleAck (fun hsyn => hanswer hsyn hrst) hdone hlive)).weaken
  · have hx : x.live = true := by
      rcases hrest with ⟨-, rfl⟩ | ⟨-, hdata⟩
      · exact (Wakes.handleOld x).live.symm.trans hlive
      · exact ((Wakes.handleWindow x s).trans (.handleData hdata)).live.symm.trans hlive
    have haside : Aside c x := .handleAck (fun hsyn => hanswer hsyn hrst) hnext hx
    have hd := h.aside haside
    rcases hrest with ⟨hseq, rfl⟩ | ⟨hseq, hdata⟩
    · exact hd.handleOld hseq
    · have hwin : Aside x (handleWindow x s) := .handleWindow x s
      refine (hd.aside hwin).handleData ((hwf.handleAck hnext).handleWindow s) ?_ ?_ hdata
      · rw [hwin.rcvNxt]
        exact hseq
      · rw [PeerInSpace, hwin.irs, haside.irs]
        exact hok

/-! ## Reading and sending -/

/-- Reading from a full buffer takes one from `last_acked`. -/
theorem tcpRead_lastAcked {len : ℤ} {d : List Uchar} (hfull : rbLeft c.tcb.inbuf = 0)
    (hread : tcpRead c len = some (c', d)) : c'.tcb.lastAcked = c.tcb.lastAcked - 1 := by
  rw [Ptrtd.tcpRead, Option.map_eq_some_iff] at hread
  obtain ⟨x, -, hread⟩ := hread
  dsimp only at hread
  rw [if_pos hfull] at hread
  obtain ⟨rfl, rfl⟩ := Prod.mk.inj hread
  obtain ⟨_, _, _, -, heq⟩ := markForIfWrite_eq _
  rw [heq]

theorem tcpRead {n : ℕ} {d : List Uchar} (h : Duty p c read) (hwf : WellFormed c) (hn : 0 < n)
    (hread : tcpRead c n = some (c', d)) :
    Duty p c' read ∧ c'.tcb.state = c.tcb.state := by
  have hspec := tcpRead_spec hwf.inbuf hread
  have hwakes := Wakes.tcpRead hread
  have hlen : d.length = min n c.tcb.inbuf.used := by
    rw [hspec.data, List.length_take, Buffer.content_length hwf.inbuf.ok]
  have hused := hspec.used
  have hsize : c'.tcb.inbuf.size = 16384 := hspec.size.trans hwf.inSize
  have hmax := hwf.inbuf.ok.used_le
  rw [hwf.inSize] at hmax
  have hleft : rbLeft c.tcb.inbuf = 16384 - c.tcb.inbuf.used := by
    rw [rbLeft, hwf.inSize]
    rfl
  have hleft' : rbLeft c'.tcb.inbuf = 16384 - c'.tcb.inbuf.used := by
    rw [rbLeft, hsize]
    rfl
  -- what becomes of `last_acked`
  have hacked : ∀ t, c.trace.sent.getLast? = some t →
      c'.tcb.lastAcked.toNat + (if rbLeft c.tcb.inbuf = 0 then 1 else 0) =
        c.tcb.lastAcked.toNat := by
    intro t ht
    split
    · next hfull =>
        have hlt := (h.last t ht).full hfull
        have hpos : 1 ≤ c.tcb.lastAcked.toNat := by split at hlt <;> omega
        rw [tcpRead_lastAcked hfull hread, toNat_sub_one hpos]
        exact Nat.sub_add_cancel hpos
    · next hopen => rw [(tcpRead_open hopen hread).2.2, Nat.add_zero]
  obtain ⟨l, m, e, la, -, rfl⟩ := tcpRead_eq hread
  refine ⟨⟨?_, h.irs, fun _ => rfl, ?_, h.answered, fun t ht => ?_, fun hp => ?_⟩, rfl⟩
  · have hold := h.used
    dsimp only at hused ⊢
    omega
  · exact (ofInt_left_toNat hsize (by omega)).trans_le (by omega)
  · have ho := h.last t ht
    have hle := ho.le
    have hla := hacked t ht
    dsimp only at hla hleft' hused
    refine ⟨?_, fun hlt => ?_, fun hsame => ?_, fun hr hw => ?_, fun hf hpos => ?_, fun hfull => ?_⟩
    · dsimp only
      omega
    · dsimp only at hlt
      by_cases hfull : rbLeft c.tcb.inbuf = 0
      · exact hwakes.due hfull
      · rw [if_neg hfull] at hla
        exact hwakes.isSome (ho.due (by omega))
    · dsimp only at hsame
      refine ho.ack ?_
      omega
    · refine .inr ?_
      dsimp only
      by_cases hfull : rbLeft c.tcb.inbuf = 0
      · rw [if_pos hfull] at hla
        omega
      · rcases ho.wnd hr hw with hf | hlt
        · exact absurd hf hfull
        · omega
    · have hold := ho.old hf hpos
      dsimp only
      by_cases hfull : rbLeft c.tcb.inbuf = 0
      · have hlt := ho.full hfull
        rw [hf, if_neg Bool.false_ne_true] at hlt
        rw [if_pos hfull] at hla
        omega
      · rw [if_neg hfull] at hla
        omega
    · -- at least one byte has been read, so the buffer is not full any more
      exfalso
      dsimp only at hfull
      omega
  · obtain ⟨hpast, hlt⟩ := h.owed hp
    obtain ⟨t, ht, -⟩ := h.exists_last hpast
    have hla := hacked t ht
    refine ⟨hpast, ?_⟩
    dsimp only at hla ⊢
    omega

end Duty

/-- What `do_tcb_write` does for the receiver: it sends the current `rcv_nxt` and `rcv_wnd`, or
nothing if no acknowledgement is owed. -/
inductive Answers (c a : Conn) : Prop where
  | sent {s : Segment} : a.trace.sent = c.trace.sent ++ [s] → s.ack = c.tcb.rcvNxt →
      s.wnd = c.tcb.rcvWnd.setWidth 16 → a.tcb.lastAcked = c.tcb.rcvNxt → Answers c a
  | quiet : c.tcb.state ≠ .synRecvd → c.tcb.rcvNxt ≤ c.tcb.lastAcked →
      a.trace.sent = c.trace.sent → a.tcb.lastAcked = c.tcb.lastAcked → Answers c a

theorem emitSegment_lastAcked (c : Conn) (d : List Uchar) (fin : Bool) (now : Timeval) :
    (emitSegment c d fin now).tcb.lastAcked = c.tcb.rcvNxt := by
  have hrtt : ∀ t : Tcb, (startRtt t d.length now).rcvNxt = t.rcvNxt := by
    intro t
    rw [startRtt]
    split <;> rfl
  simp only [emitSegment]
  split
  · exact hrtt (setTimeout c now).tcb
  · exact hrtt c.tcb

theorem doTcbWrite_answers {again : Bool} (h : doTcbWrite c now = some (a, again)) :
    Answers c a := by
  rw [doTcbWrite] at h
  split at h
  · cases h
    exact .sent rfl rfl rfl rfl
  · next hpast =>
      obtain ⟨⟨x, more⟩, hx, h⟩ := Option.map_eq_some_iff.mp h
      obtain ⟨d, -, hd⟩ := Option.map_eq_some_iff.mp hx
      have hkeep : a.trace = x.trace ∧ a.tcb.lastAcked = x.tcb.lastAcked := by
        obtain ⟨rfl, -⟩ := Prod.mk.inj h
        split <;> exact ⟨rfl, rfl⟩
      dsimp only at hd
      split at hd
      · next hquiet =>
          obtain ⟨rfl, -⟩ := Prod.mk.inj hd
          exact .quiet hpast hquiet.2.2 (by rw [hkeep.1]) hkeep.2
      · obtain ⟨rfl, -⟩ := Prod.mk.inj hd
        have hlast := emitSegment_lastAcked c d (finDue c.tcb d.length) now
        obtain ⟨_, _, _, _, _, _, _, _, heq⟩ := emitSegment_eq c d (finDue c.tcb d.length) now
        have hsent : a.trace.sent = c.trace.sent ++
            [{ seq := c.tcb.sndNxt, ack := c.tcb.rcvNxt
               flags := sendFlags (pushDue c.tcb d.length) (finDue c.tcb d.length)
               wnd := c.tcb.rcvWnd.setWidth 16, data := d }] := by
          rw [hkeep.1, heq]
          rfl
        exact .sent hsent rfl rfl (hkeep.2.trans hlast)

namespace Duty

/-- Nothing is owed, so nothing has been taken from `last_acked`. -/
theorem settled (h : Duty p c read) (hall : ∀ s, c.trace.sent.getLast? = some s →
    c.tcb.lastAcked.toNat = c.tcb.rcvNxt.toNat) (hsize : c.tcb.inbuf.size = 16384) :
    Duty p c false := by
  refine ⟨h.used, h.irs, h.rcvWnd, h.small, h.answered, fun s hs => ?_, h.owed⟩
  have ho := h.last s hs
  have hsame := hall s hs
  refine ⟨ho.le, ho.due, ho.ack, ho.wnd, fun _ hpos => by omega, fun hfull => ?_⟩
  have hused := h.used
  rw [rbLeft] at hfull
  rw [if_neg Bool.false_ne_true]
  omega

theorem imp {q : Prop} (h : Duty p c read) (hpq : q → p) : Duty q c read :=
  ⟨h.used, h.irs, h.rcvWnd, h.small, h.answered, h.last, fun hq => h.owed (hpq hq)⟩

/-- Afterwards nothing is owed. -/
theorem wrote {again : Bool} (h : Duty p c read) (hwf : WellFormed c) (hw : Wrote c now a again)
    (hans : Answers c a) : Duty False a false := by
  obtain ⟨hin, -⟩ := wrote_intake hw
  have hstate : a.tcb.state = c.tcb.state := by
    cases hw with
    | syn => rfl
    | nothing => rfl
    | segment _ _ hx _ =>
        obtain ⟨_, _, _, _, _, _, _, _, heq⟩ := emitSegment_eq c _ _ now
        rw [hx, heq]
  have hinbuf : a.tcb.inbuf = c.tcb.inbuf := congrArg Intake.inbuf hin
  have hirs : a.tcb.irs = c.tcb.irs := congrArg Intake.irs hin
  have hnxt : a.tcb.rcvNxt = c.tcb.rcvNxt := congrArg Intake.rcvNxt hin
  have hwnd : a.tcb.rcvWnd = c.tcb.rcvWnd := congrArg Intake.rcvWnd hin
  have hmax := hwf.inbuf.ok.used_le
  rw [hwf.inSize] at hmax
  have hreading : a.Reading → c.Reading := by
    rw [Conn.Reading, hstate]
    exact id
  have hbase : ∀ t, a.tcb.lastAcked = c.tcb.rcvNxt → t.ack = c.tcb.rcvNxt →
      (c.Reading → t.wnd = 0 → rbLeft c.tcb.inbuf = 0) → Owed a false t := by
    intro t hlast hack hzero
    refine ⟨?_, fun hlt => ?_, fun _ => ?_, fun hr hw => .inl ?_, fun _ hpos => ?_, fun hfull => ?_⟩
    · rw [hlast, hnxt]
    · rw [hlast, hnxt] at hlt
      exact absurd hlt (Nat.lt_irrefl _)
    · rw [hnxt]
      exact hack
    · rw [hinbuf]
      exact hzero (hreading hr) hw
    · rwa [hlast, ← hnxt]
    · have hused := h.used
      have hsize := hwf.inSize
      rw [hinbuf, rbLeft] at hfull
      rw [hlast, if_neg Bool.false_ne_true]
      omega
  refine ⟨?_, ?_, fun hr => ?_, ?_, fun hpast => ?_, fun t ht => ?_, False.elim⟩
  · rw [hinbuf, hnxt]
    exact h.used
  · rw [hirs, hnxt]
    exact h.irs
  · rw [hwnd, hinbuf]
    exact h.rcvWnd (hreading hr)
  · rw [hwnd]
    exact h.small
  · cases hans with
    | sent hs => rw [hs]; simp
    | quiet hc _ hs => rw [hs]; exact h.answered hc
  · cases hans with
    | @sent s hs hack hw hlast =>
        rw [hs, List.getLast?_append_cons, List.getLast?_singleton] at ht
        obtain rfl := Option.some.inj ht
        refine hbase _ hlast hack fun hr hzero => ?_
        have hfield := congrArg BitVec.toNat (hw.symm.trans hzero)
        rw [BitVec.toNat_setWidth, h.rcvWnd hr, ofInt_left_toNat hwf.inSize hmax] at hfield
        rw [rbLeft, hwf.inSize]
        simp at hfield
        omega
    | quiet _ hge hs hlast =>
        rw [hs] at ht
        have ho := h.last t ht
        rw [BitVec.le_def] at hge
        have hsame : c.tcb.lastAcked.toNat = c.tcb.rcvNxt.toNat := le_antisymm ho.le hge
        refine hbase t (hlast.trans (BitVec.eq_of_toNat_eq hsame)) (ho.ack hsame) fun hr hw => ?_
        exact (ho.wnd hr hw).resolve_right (by omega)

/-! ## All steps -/

theorem closedBoth {m : Option TcpMap} (h : Duty p c read)
    (hclose : ClosedBoth { c with map := m } a)
    (hlive : a.live = true) : Duty p a read := by
  cases hclose with
  | reset => cases hlive
  | fin hold he =>
      refine h.closed hold (fun hs => ?_) rfl rfl rfl rfl rfl rfl he
      rw [Conn.Reading] at hs
      dsimp only at hs
      split at hs <;> exact hs.elim nofun nofun

/-- The steps other than packets and the write event. -/
theorem stepped {i : Input} (h : Duty p c read) (hwf : WellFormed c)
    (hread : ∀ n, i = .call (.read n) → 0 < n) (hpacket : ∀ s now, i ≠ .packet s now)
    (hwrite : ∀ addr now, i ≠ .alwaysEvent addr now) (hstep : Stepped c i c')
    (hlive : c'.live = true) : Duty p c' read := by
  cases hstep with
  | @packet s now => exact absurd rfl (hpacket s now)
  | timeout =>
      have ha := h.aside (.tcpTimeout c)
      exact ha.aside (.of_eq rfl rfl rfl rfl rfl rfl rfl id)
  | removed => cases hlive
  | canRead _ _ _ _ hcall _ =>
      cases hcall with
      | nothing => exact h.aside (.of_eq rfl rfl rfl rfl rfl rfl rfl id)
      | closed _ hclose =>
          exact (h.closedBoth hclose hlive).aside (.of_eq rfl rfl rfl rfl rfl rfl rfl id)
      | sent _ _ hsend _ =>
          exact (h.aside (.tcpSend hsend)).aside (.of_eq rfl rfl rfl rfl rfl rfl rfl id)
  | canWrite _ _ _ _ hcall _ =>
      have hpos : 0 < tbSize := by decide
      cases hcall with
      | again _ hx _ =>
          exact (h.tcpRead hwf hpos hx).1.aside (.of_eq rfl rfl rfl rfl rfl rfl rfl id)
      | closed _ hx hclose =>
          exact ((h.tcpRead hwf hpos hx).1.closedBoth hclose hlive).aside
            (.of_eq rfl rfl rfl rfl rfl rfl rfl id)
      | wrote _ _ _ hx _ =>
          exact (h.tcpRead hwf hpos hx).1.aside (.of_eq rfl rfl rfl rfl rfl rfl rfl id)
  | didConnect _ _ _ _ hcall _ =>
      cases hcall with
      | @accepted m =>
          have hm : Duty p { c with map := m } read :=
            h.aside (.of_eq rfl rfl rfl rfl rfl rfl rfl id)
          exact (hm.aside (.tcpAccept _)).aside (.of_eq rfl rfl rfl rfl rfl rfl rfl id)
      | closed _ hclose =>
          exact (h.closedBoth hclose hlive).aside (.of_eq rfl rfl rfl rfl rfl rfl rfl id)
  | @write e now => exact absurd rfl (hwrite e.addr now)
  | accept => exact h.aside (.tcpAccept c)
  | send _ _ _ hsend => exact h.aside (.tcpSend hsend)
  | @read n _ _ _ hx => exact (h.tcpRead hwf (hread n rfl) hx).1
  | @close hard =>
      generalize hclosed : Ptrtd.tcpClose c hard = a at hlive ⊢
      cases tcpClose_cases hclosed with
      | reset => cases hlive
      | fin hold he =>
          refine h.closed hold (fun hs => ?_) rfl rfl rfl rfl rfl rfl he
          rw [Conn.Reading] at hs
          dsimp only at hs
          split at hs <;> exact hs.elim nofun nofun
  | others => exact h.aside (.of_eq rfl rfl rfl rfl rfl rfl rfl id)

end Duty

/-! ## Runs in the order of `event_loop` -/

/-- The always events run between two packets. The second component says that a packet has been
read since they ran, and `none` is a round of theirs without one of this connection. -/
def pacedStep (x : Conn × Bool) : Option Input → Option (Conn × Bool)
  | none => if x.1.tcb.eTcbSend = none then some (x.1, false) else none
  | some (.packet s now) =>
      if x.2 then none else (step x.1 (.packet s now)).map fun c => (c, true)
  | some (.alwaysEvent addr now) => (step x.1 (.alwaysEvent addr now)).map fun c => (c, false)
  | some i => (step x.1 i).map fun c => (c, x.2)

/-- The peer's sequence numbers do not wrap, it completes the handshake only after it has been
answered, and no application reads nothing. -/
def PeerAhead (x : Conn × Bool) : Option Input → Prop
  | some (.packet s _) => PeerInSpace x.1 s ∧
      (x.1.tcb.state = .synRecvd → s.isRst = false → s.isAck = true → x.1.trace.sent ≠ [])
  | some (.call (.read n)) => 0 < n
  | _ => True

instance (x : Conn × Bool) (i : Option Input) : Decidable (PeerAhead x i) := by
  unfold PeerAhead
  split <;> infer_instance

/-- The write event does not run. -/
def Waits : Option Input → Prop
  | some (.alwaysEvent _ _) => False
  | _ => True

theorem runAlwaysEvent_answers {addr : ℕ} (h : runAlwaysEvent c addr now = some c') :
    ∃ a again, Wrote c now a again ∧ Answers c a ∧
      c' = if again then a else { a with ev := removeAlwaysEvent a.ev addr } := by
  obtain ⟨e, he, h⟩ := Option.bind_eq_some_iff.mp h
  split at h
  · obtain ⟨⟨a, again⟩, ha, rfl⟩ := Option.map_eq_some_iff.mp h
    exact ⟨a, again, doTcbWrite_effect ha, doTcbWrite_answers ha, rfl⟩
  · cases h

theorem alwaysEvent_answers {addr : ℕ} (h : step c (.alwaysEvent addr now) = some c') :
    ∃ a again, Wrote c now a again ∧ Answers c a ∧
      c' = if again then a else { a with ev := removeAlwaysEvent a.ev addr } := by
  obtain ⟨-, hexact⟩ := step_exact h
  cases hexact with
  | alwaysEvent hrun => exact runAlwaysEvent_answers hrun

/-- What a paced step keeps, as long as the block is allocated. -/
def Diligent (p : Prop) (x : Conn × Bool) : Prop :=
  WellFormed x.1 ∧ (x.1.live = true → Duty p x.1 x.2)

theorem Diligent.step {x y : Conn × Bool} {i : Option Input} (h : Diligent p x)
    (hok : PeerAhead x i) (hwait : p → Waits i) (hstep : pacedStep x i = some y) :
    Diligent p y := by
  obtain ⟨c, read⟩ := x
  obtain ⟨hwf, hduty⟩ := h
  dsimp only at hwf hduty
  cases i with
  | none =>
      simp only [pacedStep] at hstep
      split at hstep
      · next hnone =>
          cases hstep
          refine ⟨hwf, fun hlive => (hduty hlive).settled (fun s hs => ?_) hwf.inSize⟩
          have ho := (hduty hlive).last s hs
          refine le_antisymm ho.le (Nat.le_of_not_lt fun hlt => ?_)
          have hsome := ho.due hlt
          rw [hnone] at hsome
          cases hsome
      · cases hstep
  | some i =>
      cases i with
      | packet s now =>
          simp only [pacedStep] at hstep
          split at hstep
          · cases hstep
          · next hread =>
              rw [Bool.not_eq_true] at hread
              subst hread
              obtain ⟨c', hc, rfl⟩ := Option.map_eq_some_iff.mp hstep
              obtain ⟨hlive, hstepped⟩ := step_cases hc
              refine ⟨hwf.stepped hlive hstepped, fun hlive' => ?_⟩
              cases hstepped with
              | packet htcp =>
                  have hr : Duty p (c.receive s) false :=
                    (hduty hlive).aside (.of_eq rfl rfl rfl rfl rfl rfl rfl id)
                  exact hr.handleTcp (hwf.receive s) hok.1 hok.2 htcp hlive'
      | alwaysEvent addr now =>
          obtain ⟨c', hc, rfl⟩ := Option.map_eq_some_iff.mp hstep
          obtain ⟨hlive, hstepped⟩ := step_cases hc
          refine ⟨hwf.stepped hlive hstepped, fun hlive' => ?_⟩
          obtain ⟨a, again, hw, hans, rfl⟩ := alwaysEvent_answers hc
          have ha : Duty p a false := ((hduty hlive).wrote hwf hw hans).imp hwait
          split
          · exact ha
          · exact ha.aside (.of_eq rfl rfl rfl rfl rfl rfl rfl id)
      | timeEvent | fdEvent | call | others =>
          obtain ⟨c', hc, rfl⟩ := Option.map_eq_some_iff.mp hstep
          obtain ⟨hlive, hstepped⟩ := step_cases hc
          refine ⟨hwf.stepped hlive hstepped, fun hlive' => ?_⟩
          refine (hduty hlive).stepped hwf (fun n hn => ?_) (fun _ _ hi => ?_) (fun _ _ hi => ?_)
            hstepped hlive'
          · cases hn <;> exact hok
          · cases hi
          · cases hi

theorem Duty.fresh (self : ℕ) (app : TcpCallback) (isn : Uint) (ev : EventLists) (syn : Segment) :
    Duty False (.fresh self app isn ev syn) true := by
  refine ⟨Nat.zero_le _, fun hirs => ?_, fun _ => rfl, ?_, fun hs => absurd rfl hs,
    fun s hs => (by cases hs), False.elim⟩
  · change 0 < (syn.seq + 1).toNat
    have hlt : syn.seq.toNat + 1 < 2 ^ 32 := hirs
    have hone : (1 : Uint).toNat = 1 := rfl
    rw [BitVec.toNat_add, hone, Nat.mod_eq_of_lt hlt]
    exact Nat.succ_pos _
  · change (BitVec.ofInt 32 (rbLeft (rbNew 16384))).toNat ≤ 16384
    decide

theorem Diligent.of_start {app : TcpCallback} (h : Start app c) : Diligent False (c, true) := by
  refine ⟨.of_start h, fun hlive => ?_⟩
  obtain ⟨self, isn, ev, syn, -, hopen⟩ := start_cases h
  have hnew : Duty False (.fresh self app isn ev syn) true := .fresh self app isn ev syn
  cases hopen with
  | other => exact hnew
  | @accepted m =>
      have hm : Duty False { Conn.fresh self app isn ev syn with map := some m } true :=
        hnew.aside (.of_eq rfl rfl rfl rfl rfl rfl rfl id)
      exact hm.aside (.tcpAccept _)
  | connecting => exact hnew.aside (.of_eq rfl rfl rfl rfl rfl rfl rfl id)
  | failed _ hclose => exact hnew.closedBoth hclose hlive

end Ptrtd
