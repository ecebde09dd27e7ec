import Ptrtd.Verification.Send.Window

/-! # How far the send side gets

With ACK numbers that were sent and sequence numbers that do not wrap, nothing is sent in
`ESTABLISHED` beyond the bytes written and nothing later beyond the FIN, except for what the
handshake has used up. In `FIN_WAIT_2` the FIN is acknowledged and nothing is left to send.
The handshake may have gone wrong: `snd_una` can start before the SYN or far behind it. -/

namespace Ptrtd

namespace Outlet

variable {o o' : Outlet} {i : Input} {s : Segment} {u n k : ℕ}

/-- `snd_una` is at position `u` and `snd_nxt` at `n`, close together and not wrapped. -/
structure Placed (o : Outlet) (u n : ℕ) : Prop where
  una : o.una.toNat = o.iss.toNat + u
  nxt : SeqNum.At o.iss o.nxt n
  le : u ≤ n
  sent : n ≤ o.high
  near : o.high ≤ u + 65537
  space : o.iss.toNat + o.high < 2 ^ 32
  syn : o.state = .synRecvd → n = o.high

/-- What has been sent, `snd_una` being at position `u`. -/
structure Kept (o : Outlet) (u : ℕ) : Prop where
  buffered : o.Buffered
  syn : o.state = .synRecvd → o.written = []
  held : 1 + o.written.length ≤ max u 1 + o.outbuf.used
  open_le : o.state = .established → o.high ≤ max u (1 + o.written.length)
  closing_le : o.Closing → o.high ≤ max u (2 + o.written.length) ∨ o.written.length + 2 ^ 31 ≤ u
  finWait2 : o.state = .finWait2 → u = o.written.length + 2 ∧ o.high = u

/-- The number of bytes left to send: none before the start of the buffer, and the right number
from there on. -/
theorem Kept.avail {x : Uint} (h : o.Kept u) (hx : SeqNum.At o.iss x k) (huk : u ≤ k)
    (hk : k ≤ 1 + o.written.length ∨ k < 2 ^ 32) :
    (0 < rbAvail o.outbuf x → k ≤ o.written.length ∧
      (o.outbuf.wSeq - x).toInt = (1 + o.written.length - k : ℕ) ∧
      1 + o.written.length - k ≤ o.outbuf.used) ∧
    (rbAvail o.outbuf x = -1 → k = o.written.length + 2) ∧
    (rbAvail o.outbuf x = 0 → k ≤ 1 + o.written.length ∨ o.written.length + 2 ^ 31 < k) := by
  have hsize := h.buffered.used_le_size
  have hused := h.buffered.used_le
  have hheld := h.held
  by_cases hfar : 1 + o.written.length + 2 ^ 31 < k
  · -- the difference of the words has wrapped to a positive number that is too large
    have hdist := h.buffered.wSeq.wrap.toInt_sub hx (by push_cast; omega) (by push_cast; omega)
    push_cast at hdist
    have hzero : rbAvail o.outbuf x = 0 := by
      rw [rbAvail, hdist]
      exact if_pos (by omega)
    refine ⟨?_, ?_, ?_⟩ <;> intro hs <;> omega
  · have hdist := h.buffered.wSeq.toInt_sub hx (by push_cast; omega) (by push_cast; omega)
    push_cast at hdist
    have hcases : rbAvail o.outbuf x =
        if (1 + o.written.length : ℤ) - k > o.outbuf.used then 0
        else (1 + o.written.length : ℤ) - k := by
      rw [rbAvail, hdist]
    rw [hcases, hdist]
    split
    · refine ⟨?_, ?_, ?_⟩ <;> intro hs <;> omega
    · refine ⟨?_, ?_, ?_⟩ <;> intro hs <;> omega

/-- Once the SYN is acknowledged, every byte from `snd_una` on is still held. -/
theorem Kept.avail_pos {x : Uint} (h : o.Kept u) (hx : SeqNum.At o.iss x k) (hu : 1 ≤ u)
    (huk : u ≤ k) (hk : k ≤ o.written.length) : 0 < rbAvail o.outbuf x := by
  have hheld := h.held
  obtain ⟨-, havail⟩ := h.buffered.avail hx (by omega) (by omega)
  omega

/-- The data of a segment ends with the bytes written at the latest. -/
theorem Kept.chunk {data : List Uchar} (h : o.Kept u) (hp : o.Placed u n) (hdata : o.Chunk data) :
    data = [] ∨ n + data.length ≤ 1 + o.written.length := by
  rcases hdata with rfl | ⟨hpos, m, hread⟩
  · exact .inl rfl
  · have hspace := hp.space
    have hsent := hp.sent
    obtain ⟨hlt, hback, hle⟩ := (h.avail hp.nxt hp.le (.inr (by omega))).1 hpos
    rw [Buffer.rbRead_spec h.buffered.ok hback hle] at hread
    right
    rw [← Option.some.inj hread, List.length_take, List.length_drop,
      Buffer.content_length h.buffered.ok]
    omega

/-- Where a segment ends, with its FIN. -/
theorem Kept.segment_end {fin : Bool} (h : o.Kept u) (hp : o.Placed u n)
    (hsyn : o.state ≠ .synRecvd)
    (hdata : o.Chunk s.data)
    (hfin : fin = true → rbAvail o.outbuf (o.nxt + BitVec.ofNat 32 s.data.length) = 0 ∧
      isClosingState o.state = true) :
    n + (s.data.length + (if fin then 1 else 0)) ≤ n + 16386 ∧
    (o.state = .established → n + (s.data.length + (if fin then 1 else 0)) ≤
      max n (1 + o.written.length)) ∧
    (n + (s.data.length + (if fin then 1 else 0)) ≤ max n (2 + o.written.length) ∨
      o.written.length + 2 ^ 31 ≤ u) ∧
    (o.state = .finWait2 → n + (s.data.length + (if fin then 1 else 0)) ≤ n) := by
  have hspace := hp.space
  have hsent := hp.sent
  have hle := hp.le
  have hheld := h.held
  have hsize := h.buffered.used_le_size
  have hchunk := h.chunk hp hdata
  have hempty : s.data = [] → s.data.length = 0 := fun hnil => by rw [hnil]; rfl
  have hlen : s.data.length = 0 ∨ n + s.data.length ≤ 1 + o.written.length :=
    hchunk.imp_left hempty
  have hfw : o.state = .finWait2 → s.data.length = 0 := by
    intro hs
    have hpos := (h.finWait2 hs).1
    omega
  cases fin with
  | false =>
      simp only [Bool.false_eq_true, if_false]
      refine ⟨by omega, fun _ => by omega, .inl (by omega), fun hs => ?_⟩
      have := hfw hs
      omega
  | true =>
      obtain ⟨havail, hclosing⟩ := hfin rfl
      have hend := (h.avail (hp.nxt.add s.data.length) (by omega) (by omega)).2.2 havail
      obtain ⟨-, hest, hfw2⟩ := ne_of_isClosingState hclosing
      simp only [if_true]
      refine ⟨by omega, fun hs => absurd hs hest, ?_, fun hs => absurd hs hfw2⟩
      rcases h.closing_le ⟨hsyn, hest⟩ with hhigh | hfar
      · omega
      · exact .inr hfar

/-- A segment that starts at `snd_nxt` and has a few sequence numbers. -/
theorem Placed.emit_high {len : ℕ} (h : o.Placed u n) (hseq : s.seq = o.nxt) (hspan : s.span = len)
    (hlen : len ≤ 16386) : (o.emit s).high = max o.high (n + len) := by
  have hat := h.nxt.add len
  have hsent := h.sent
  have hle := h.le
  have hnear := h.near
  rw [Outlet.emit, hseq, hspan]
  exact SeqNum.reach_eq_max hat (by push_cast; omega) (by push_cast; omega)

/-! ## Steps -/

theorem Kept.of_eq (h : o.Kept u) (hiss : o'.iss = o.iss) (hbuf : o'.outbuf = o.outbuf)
    (hwritten : o'.written = o.written) (hhigh : o'.high = o.high) (hstate : o'.state = o.state) :
    o'.Kept u := by
  refine ⟨h.buffered.of_eq hiss hbuf hwritten, ?_, ?_, ?_, ?_, ?_⟩
  · rw [hstate, hwritten]
    exact h.syn
  · rw [hwritten, hbuf]
    exact h.held
  · rw [hstate, hwritten, hhigh]
    exact h.open_le
  · rw [Closing, hstate, hwritten, hhigh]
    exact h.closing_le
  · rw [hstate, hwritten, hhigh]
    exact h.finWait2

/-- A new ACK number that was sent. -/
theorem Kept.acked (h : o.Kept u) (hp : o.Placed u n)
    (hack : o.NewAck s → s.ack.toNat ≤ o.iss.toNat + o.high) :
    ∃ u', (o.ack s).una.toNat = o.iss.toNat + u' ∧ (o.ack s).Kept u' := by
  by_cases hnew : o.NewAck s
  · rw [Outlet.ack, if_pos hnew]
    have hle := hack hnew
    have hlt := BitVec.lt_def.mp hnew.2
    have huna := hp.una
    obtain ⟨k, hk⟩ : ∃ k, s.ack.toNat = o.iss.toNat + k :=
      ⟨s.ack.toNat - o.iss.toNat, by omega⟩
    have hheld := h.held
    have hbuf : (o.advance s.ack).Buffered ∧
        1 + o.written.length ≤ max k 1 + (o.advance s.ack).outbuf.used := by
      by_cases hest : o.state = .established
      · have hopen := h.open_le hest
        have hout : (o.advance s.ack).outbuf = rbAdvance o.outbuf s.ack := if_pos hest
        obtain ⟨hfreed, hused⟩ := h.buffered.advance (SeqNum.at_of_toNat_eq hk) (by omega)
          (by omega)
        refine ⟨hfreed.of_eq rfl hout rfl, ?_⟩
        rw [hout, hused]
        omega
      · have hout : (o.advance s.ack).outbuf = o.outbuf := if_neg hest
        refine ⟨h.buffered.of_eq rfl hout rfl, ?_⟩
        rw [hout]
        omega
    refine ⟨k, hk, hbuf.1, h.syn, hbuf.2, fun hs => ?_, fun hs => ?_, fun hs => ?_⟩
    · have := h.open_le hs
      change o.high ≤ max k (1 + o.written.length)
      omega
    · have := h.closing_le hs
      change o.high ≤ max k (2 + o.written.length) ∨ o.written.length + 2 ^ 31 ≤ k
      omega
    · have := h.finWait2 hs
      omega
  · rw [Outlet.ack, if_neg hnew]
    exact ⟨u, hp.una, h⟩

/-- The state changes when everything is acknowledged. -/
theorem Kept.settled (h : o.Kept u) (hp : o.Placed u n) (hs : o.Settled s o') : o'.Kept u := by
  have hle := hp.le
  have hsent := hp.sent
  have hspace := hp.space
  have heq : o.una = o.nxt → u = n := by
    intro heq
    have hat : SeqNum.At o.iss o.nxt u := heq ▸ SeqNum.at_of_toNat_eq hp.una
    exact hat.inj hp.nxt (by omega) (by omega)
  cases hs with
  | same => exact h
  | opened _ huna hsyn =>
      have hn := hp.syn hsyn
      have hun := heq huna
      refine ⟨h.buffered.of_eq rfl rfl rfl, fun hs => (by cases hs), h.held, fun _ => ?_,
        fun hs => absurd rfl hs.2, fun hs => (by cases hs)⟩
      dsimp only
      omega
  | deleted => exact h.of_eq rfl rfl rfl rfl rfl
  | finAcked _ huna hstate havail =>
      have hend := (h.avail hp.nxt hle (.inr (by omega))).2.1 havail
      have hun := heq huna
      have hclosing := h.closing_le ⟨by rw [hstate]; nofun, by rw [hstate]; nofun⟩
      refine ⟨h.buffered.of_eq rfl rfl rfl, fun hs => (by cases hs), h.held,
        fun hs => (by cases hs), fun _ => hclosing, fun _ => ?_⟩
      dsimp only
      omega
  | bothClosed _ huna hstate havail =>
      have hclosing := h.closing_le ⟨by rw [hstate]; nofun, by rw [hstate]; nofun⟩
      exact ⟨h.buffered.of_eq rfl rfl rfl, fun hs => (by cases hs), h.held,
        fun hs => (by cases hs), fun _ => hclosing, fun hs => by cases hs⟩

/-- The state after the peer's FIN. -/
theorem Kept.moved (h : o.Kept u) (hm : o.Moved s o') : o'.Kept u := by
  cases hm with
  | same => exact h
  | lastAck _ hstate =>
      have hopen := h.open_le hstate
      refine ⟨h.buffered.of_eq rfl rfl rfl, fun hs => (by cases hs), h.held,
        fun hs => (by cases hs), fun _ => .inl ?_, fun hs => by cases hs⟩
      dsimp only
      omega
  | closing _ hstate =>
      have hclosing := h.closing_le ⟨by rw [hstate]; nofun, by rw [hstate]; nofun⟩
      exact ⟨h.buffered.of_eq rfl rfl rfl, fun hs => (by cases hs), h.held,
        fun hs => (by cases hs), fun _ => hclosing, fun hs => by cases hs⟩
  | timeWait _ hstate =>
      have hclosing := h.closing_le ⟨by rw [hstate]; nofun, by rw [hstate]; nofun⟩
      exact ⟨h.buffered.of_eq rfl rfl rfl, fun hs => (by cases hs), h.held,
        fun hs => (by cases hs), fun _ => hclosing, fun hs => by cases hs⟩

theorem Placed.acked (hp : o.Placed u n)
    (hack : o.NewAck s → s.ack.toNat ≤ o.iss.toNat + o.high) {u' : ℕ}
    (hu' : (o.ack s).una.toNat = o.iss.toNat + u') : ∃ n', n ≤ n' ∧ (o.ack s).Placed u' n' := by
  obtain ⟨v, m, hv, hm, huv, hvm, hnm, hmh⟩ :=
    ack_positions hp.una hp.nxt hp.le hp.sent hp.space hack
  obtain rfl : v = u' := by omega
  have hnear := hp.near
  refine ⟨m, hnm, ?_⟩
  have hstate := ack_state o s
  obtain ⟨una, nxt, buf, heq⟩ := ack_eq o s
  rw [heq] at hv hm hstate ⊢
  refine ⟨hv, hm, hvm, hmh, ?_, hp.space, fun hs => ?_⟩
  · change o.high ≤ v + 65537
    omega
  · have hn := hp.syn hs
    change m = o.high
    omega

theorem Kept.step (h : o.Kept u) (hp : o.Placed u n)
    (hack : ∀ s now, i = .packet s now → s.isRst = false → o.NewAck s →
      s.ack.toNat ≤ o.iss.toNat + o.high)
    (hstep : o.Step i o') : ∃ u', o'.una.toNat = o'.iss.toNat + u' ∧ o'.Kept u' := by
  cases hstep with
  | quiet => exact ⟨u, hp.una, h⟩
  | removed => exact ⟨u, hp.una, h.of_eq rfl rfl rfl rfl rfl⟩
  | reset => exact ⟨u, hp.una, h.of_eq rfl rfl rfl rfl rfl⟩
  | @packet s now o₁ _ hrst hsettled hmoved =>
      have hr : (o.receive s).Kept u := h.of_eq rfl rfl rfl rfl rfl
      have hpr : (o.receive s).Placed u n :=
        ⟨hp.una, hp.nxt, hp.le, hp.sent, hp.near, hp.space, hp.syn⟩
      obtain ⟨u', huna, hkept⟩ := hr.acked hpr (hack s now rfl hrst)
      obtain ⟨n', -, hplaced⟩ := hpr.acked (hack s now rfl hrst) huna
      have hlast := (hkept.settled hplaced hsettled).moved hmoved
      refine ⟨u', ?_, hlast⟩
      obtain ⟨una, nxt, buf, heq⟩ := ack_eq (o.receive s) s
      rw [heq] at hsettled huna
      obtain ⟨b, st, rfl⟩ := hsettled.eq
      obtain ⟨st', rfl⟩ := hmoved.eq
      exact huna
  | timeout => exact ⟨u, hp.una, h.of_eq rfl rfl rfl rfl rfl⟩
  | synAck hsyn =>
      refine ⟨u, hp.una, h.buffered.of_eq rfl rfl rfl, h.syn, h.held, fun hs => ?_, fun hs => ?_,
        fun hs => ?_⟩
      · exact absurd (hsyn.symm.trans hs) nofun
      · exact absurd hsyn hs.1
      · exact absurd (hsyn.symm.trans hs) nofun
  | @segment addr now s fin push hsyn hdata hseq hflags hfin =>
      obtain ⟨hlen, hopen, hclosing, hfw⟩ := h.segment_end hp hsyn hdata hfin
      have hhigh := hp.emit_high hseq (span_of_sendFlags hflags) (by omega)
      have hsent := hp.sent
      refine ⟨u, hp.una, h.buffered.of_eq rfl rfl rfl, h.syn, h.held, fun hs => ?_, fun hs => ?_,
        fun hs => ?_⟩
      · have hold := h.open_le hs
        have hnew := hopen hs
        change (o.emit s).high ≤ max u (1 + o.written.length)
        omega
      · have hold := h.closing_le hs
        change (o.emit s).high ≤ max u (2 + o.written.length) ∨ o.written.length + 2 ^ 31 ≤ u
        omega
      · have hold := h.finWait2 hs
        have hnew := hfw hs
        change u = o.written.length + 2 ∧ (o.emit s).high = u
        omega
  | @write i d r m hest hw =>
      obtain ⟨hbuf, hused, hlen⟩ := h.buffered.write hw
      have hheld := h.held
      have hopen := h.open_le hest
      refine ⟨u, hp.una, hbuf, fun hs => absurd (hest.symm.trans hs) nofun, ?_, fun _ => ?_,
        fun hs => absurd hest hs.2, fun hs => absurd (hest.symm.trans hs) nofun⟩
      · simp only [List.length_append, hlen, hused]
        omega
      · simp only [List.length_append, hlen]
        omega
  | close hest =>
      have hopen := h.open_le hest
      refine ⟨u, hp.una, h.buffered.of_eq rfl rfl rfl, fun hs => (by cases hs), h.held,
        fun hs => (by cases hs), fun _ => .inl ?_, fun hs => by cases hs⟩
      dsimp only
      omega
  | @abort i s hstate hseq hdata hflags =>
      have hhigh := hp.emit_high hseq (span_of_reset hdata hflags) (by omega)
      have hsent := hp.sent
      have hsame : (o.emit s).high = o.high := by omega
      exact ⟨u, hp.una, h.of_eq rfl rfl rfl hsame rfl⟩

theorem Kept.fresh (isn : Uint) (syn : Segment) : (Outlet.fresh isn syn).Kept 0 :=
  ⟨(Opening.fresh isn syn).buffered, fun _ => rfl, le_rfl, fun hs => (by cases hs),
    fun hs => absurd rfl hs.1, fun hs => (by cases hs)⟩

end Outlet

/-! ## Runs -/

variable {c c' : Conn} {i : Input} {b w u n : ℕ}

theorem Windowed.placed (h : Windowed c b w u n) (hspace : InSpace c) : c.outlet.Placed u n := by
  have hnear := h.near
  have hbase := h.base
  refine ⟨h.una, h.nxt, h.le, h.sent, ?_, hspace, h.syn⟩
  change c.trace.high ≤ u + 65537
  omega

/-- A connection that is alive has its send window and its limits. -/
def Located (c : Conn) : Prop :=
  c.live = true → ∃ b w u n, Windowed c b w u n ∧ c.outlet.Kept u

theorem Located.stepped (h : Located c) (hwf : WellFormed c) (hqueue : Queued c)
    (honce : AcceptOnce c) (htimer : TimerOk False c) (hok : SentOnly c i) (hlive : c.live = true)
    (hstep : Stepped c i c') : Located c' := by
  intro hlive'
  obtain ⟨b, w, u, n, hw, hkept⟩ := h hlive
  obtain ⟨b', w', u', n', hw', -⟩ := hw.stepped hwf hqueue honce hok hlive hlive' hstep
  have hack : ∀ s now, i = .packet s now → s.isRst = false → c.outlet.NewAck s →
      s.ack.toNat ≤ c.outlet.iss.toNat + c.outlet.high := by
    rintro s now rfl hrst hnew
    exact hok.2 hrst hnew.1
  obtain ⟨v, hv, hkept'⟩ :=
    hkept.step (hw.placed hok.inSpace) hack (step_outlet hwf htimer hlive hstep)
  have huna : c'.outlet.una.toNat = c'.outlet.iss.toNat + u' := hw'.una
  obtain rfl : v = u' := by omega
  exact ⟨b', w', v, n', hw', hkept'⟩

theorem Located.of_start {app : TcpCallback} (h : Start app c) : Located c := by
  intro hlive
  obtain ⟨w, -, -, -, -, hw⟩ := Windowed.of_start h hlive
  obtain ⟨isn, syn, hout | ⟨s, -, -, -, hout⟩⟩ := start_outlet h
  · refine ⟨0, w, 0, 0, hw, ?_⟩
    rw [hout]
    exact .fresh isn syn
  · have hdead : c.live = false := congrArg Outlet.live hout
    rw [hdead] at hlive
    cases hlive

end Ptrtd
