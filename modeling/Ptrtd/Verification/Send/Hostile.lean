import Ptrtd.Verification.Send.Transmission

/-! # ACK numbers that were never sent

The ACK number of a segment goes through an unsigned comparison and into `rb_advance`
without a check against what has been sent. The send side of an established connection
survives exactly the numbers up to the highest one sent. -/

namespace Ptrtd

variable {c c' : Conn} {i : Input} {s : Segment} {now : Timeval}

/-- A segment acknowledges nothing beyond the highest sequence number sent. -/
def AckWithin (c : Conn) (s : Segment) : Prop :=
  s.isRst = false → s.isAck = true → s.ack.toNat ≤ c.tcb.iss.toNat + c.trace.high

instance (c : Conn) (s : Segment) : Decidable (AckWithin c s) :=
  inferInstanceAs (Decidable (_ → _ → _))

/-- The condition on a run: every ACK number is within what was sent, and the SYN/ACK is sent
once. -/
def AcksWithin (c : Conn) : Input → Prop
  | .packet s _ => AckWithin c s
  | i => SynAckOnce c i

instance (c : Conn) : (i : Input) → Decidable (AcksWithin c i)
  | .packet s _ => inferInstanceAs (Decidable (AckWithin c s))
  | .alwaysEvent _ _ => inferInstanceAs (Decidable (_ → _))
  | .timeEvent _ | .fdEvent _ _ | .call _ | .others _ => isTrue trivial

namespace Outlet

variable {o o' : Outlet} {u n : ℕ}

/-- Established before the SYN/ACK was sent: nothing is sent, so nothing is acknowledged. -/
structure Unsynced (o : Outlet) : Prop where
  buffered : o.Buffered
  una : o.una = o.iss
  nxt : o.nxt = o.iss
  high : o.high = 0
  used : o.outbuf.used = o.written.length

theorem Unsynced.of_eq (h : o.Unsynced) (hiss : o'.iss = o.iss) (huna : o'.una = o.una)
    (hnxt : o'.nxt = o.nxt) (hbuf : o'.outbuf = o.outbuf) (hwritten : o'.written = o.written)
    (hhigh : o'.high = o.high) : o'.Unsynced :=
  ⟨h.buffered.of_eq hiss hbuf hwritten, by rw [huna, hiss, h.una], by rw [hnxt, hiss, h.nxt],
    hhigh.trans h.high, by rw [hbuf, hwritten, h.used]⟩

/-- Before the SYN/ACK, `snd_nxt` is older than the buffer reaches back. -/
theorem Unsynced.chunk (h : o.Unsynced) {data : List Uchar} (hdata : o.Chunk data) : data = [] := by
  rcases hdata with hnil | ⟨hpos, -⟩
  · exact hnil
  · have hsize := h.buffered.used_le_size
    have hused := h.used
    have hat : SeqNum.At o.iss o.nxt 0 := h.nxt ▸ SeqNum.at_zero
    have hdist := h.buffered.wSeq.toInt_sub hat (by omega) (by push_cast; omega)
    have hold : rbAvail o.outbuf o.nxt = 0 := by
      rw [rbAvail, hdist]
      exact if_pos (by push_cast; omega)
    omega

theorem Unsynced.not_new (h : o.Unsynced)
    (hack : o.NewAck s → s.ack.toNat ≤ o.iss.toNat + o.high) : ¬o.NewAck s := by
  intro hnew
  have hlt := BitVec.lt_def.mp hnew.2
  have hle := hack hnew
  rw [h.una] at hlt
  rw [h.high] at hle
  omega

theorem Unsynced.emit (h : o.Unsynced) (hseq : s.seq = o.nxt) (hspan : s.span = 0) :
    (o.emit s).high = 0 := by
  rw [Outlet.emit, hseq, hspan, h.high, h.nxt]
  exact SeqNum.reach_eq_max (SeqNum.at_zero.add 0) (by simp) (by simp)

/-- Such a connection stays as it is, or it is closed. -/
theorem Unsynced.step (h : o.Unsynced) (hest : o.state = .established)
    (hack : ∀ s now, i = .packet s now → s.isRst = false → o.NewAck s →
      s.ack.toNat ≤ o.iss.toNat + o.high)
    (hstep : o.Step i o') : o'.Unsynced ∨ o'.Closing := by
  cases hstep with
  | quiet => exact .inl h
  | removed => exact .inl (h.of_eq rfl rfl rfl rfl rfl rfl)
  | reset => exact .inl (h.of_eq rfl rfl rfl rfl rfl rfl)
  | @packet s now o₁ _ hrst hsettled hmoved =>
      have hsame : (o.receive s).ack s = o.receive s := if_neg (h.not_new (hack s now rfl hrst))
      rw [hsame] at hsettled
      cases hsettled with
      | same =>
          cases hmoved with
          | same => exact .inl (h.of_eq rfl rfl rfl rfl rfl rfl)
          | lastAck => exact .inr ⟨nofun, nofun⟩
          | closing _ hs => exact absurd (hest.symm.trans hs) nofun
          | timeWait _ hs => exact absurd (hest.symm.trans hs) nofun
      | opened _ _ hs => exact absurd (hest.symm.trans hs) nofun
      | deleted _ _ hs => exact absurd (hest.symm.trans hs) nofun
      | finAcked _ _ hs => exact absurd (hest.symm.trans hs) nofun
      | bothClosed _ _ hs => exact absurd (hest.symm.trans hs) nofun
  | timeout => exact .inl (h.of_eq rfl rfl (h.una.trans h.nxt.symm) rfl rfl rfl)
  | synAck hs => exact absurd (hest.symm.trans hs) nofun
  | @segment _ _ s fin _ _ hdata hseq hflags hfin =>
      have hnil := h.chunk hdata
      have hno : fin = false := by
        by_contra hyes
        have hclosing := (hfin (by simpa using hyes)).2
        exact (ne_of_isClosingState hclosing).2.1 hest
      subst hno
      have hspan : s.span = 0 := by simp [span_of_sendFlags hflags, hnil]
      refine .inl (h.of_eq rfl rfl ?_ rfl rfl ((h.emit hseq hspan).trans h.high.symm))
      simp [hnil]
  | write _ hw =>
      obtain ⟨hbuf, hused, hlen⟩ := h.buffered.write hw
      refine .inl ⟨hbuf, h.una, h.nxt, h.high, ?_⟩
      dsimp only
      rw [hused, h.used, List.length_append, hlen]
  | close => exact .inr ⟨nofun, nofun⟩
  | abort _ hseq hdata hflags =>
      have hspan := span_of_reset hdata hflags
      exact .inl (h.of_eq rfl rfl rfl rfl rfl ((h.emit hseq hspan).trans h.high.symm))

/-- Nothing that was not sent has been acknowledged. -/
structure Unharmed (o : Outlet) : Prop where
  iss : o.iss.toNat + 1 < 2 ^ 32
  opening : o.state = .synRecvd → (∃ u n, o.Opening u n) ∧ o.high ≤ 1
  established : o.state = .established → (∃ u n, o.Tight u n) ∨ o.Unsynced

end Outlet

open Outlet

/-- A segment in `SYN_RECVD`. -/
theorem Outlet.Unharmed.opening_packet {o o₁ o₂ : Outlet} (h : o.Unharmed)
    (hsyn : o.state = .synRecvd) (hack : o.NewAck s → s.ack.toNat ≤ o.iss.toNat + o.high)
    (hsettled : ((o.receive s).ack s).Settled s o₁) (hmoved : o₁.Moved s o₂) : o₂.Unharmed := by
  obtain ⟨⟨u, n, ho⟩, hone⟩ := h.opening hsyn
  have hiss := h.iss
  have hsame := ack_fixed o s
  rcases ho.packet hsyn hack (by omega) hsettled hmoved with
    ⟨ho₂, hs, u', hopening⟩ | ⟨-, hflight, ⟨u', hopening⟩, hm⟩
  · subst ho₂
    refine ⟨hsame.1 ▸ hiss, fun _ => ⟨⟨u', n, hopening⟩, hsame.2 ▸ hone⟩, fun hest => ?_⟩
    rw [hs] at hest
    cases hest
  · obtain ⟨st, hst⟩ := hm.eq
    have hnot : o₂.state ≠ .synRecvd := (hm.state.2.1 nofun).1
    refine ⟨?_, fun hs => absurd hs hnot, fun _ => ?_⟩
    · rw [hst]
      exact hsame.1 ▸ hiss
    · by_cases hsent : 1 ≤ o.high
      · have htight := hopening.tight hflight (hsame.2 ▸ hsent) (hsame.2 ▸ hone) (hsame.1 ▸ hiss)
        exact .inl ⟨n, n, htight.moved nofun hm⟩
      · -- established before anything was sent
        have hzero : o.high = 0 := by omega
        have hn : n = 0 := hopening.sent.trans (hsame.2.trans hzero)
        subst hn
        have hle := hopening.le
        have hu : u' = 0 := by omega
        subst hu
        have huna : ((o.receive s).ack s).una = ((o.receive s).ack s).iss :=
          BitVec.eq_of_toNat_eq hopening.una
        have hnil := hopening.written
        have hused := hopening.buffered.used_le
        rw [hnil, List.length_nil] at hused
        have hunsynced : Unsynced ((o.receive s).ack s) := by
          refine ⟨hopening.buffered, huna, hflight ▸ huna, hsame.2.trans hzero, ?_⟩
          rw [hnil, List.length_nil]
          omega
        rw [hst]
        exact .inr (hunsynced.of_eq rfl rfl rfl rfl rfl rfl)

theorem Outlet.Unharmed.step {o : Outlet} (h : c.outlet.Unharmed) (hok : AcksWithin c i)
    (hstep : c.outlet.Step i o) : o.Unharmed := by
  have hiss : o.iss.toNat + 1 < 2 ^ 32 := hstep.grows.1 ▸ h.iss
  have hack : ∀ s now, i = .packet s now → s.isRst = false → c.outlet.NewAck s →
      s.ack.toNat ≤ c.outlet.iss.toNat + c.outlet.high := by
    rintro s now rfl hrst hnew
    exact hok hrst hnew.1
  by_cases hsyn : c.tcb.state = .synRecvd
  · obtain ⟨⟨u, n, ho⟩, hone⟩ := h.opening hsyn
    have honce : ∀ addr now, i = .alwaysEvent addr now → c.outlet.nxt = c.outlet.iss := by
      rintro addr now rfl
      exact hok hsyn
    rcases ho.once hone hsyn honce hstep with
      ⟨hs, -, hopening, hone'⟩ | ⟨s, now, o₁, hi, hrst, hsettled, hmoved⟩
    · refine ⟨hiss, fun _ => ⟨hopening, hone'⟩, fun hest => ?_⟩
      rw [hs] at hest
      cases hest
    · exact h.opening_packet hsyn (hack s now hi hrst) hsettled hmoved
  · refine ⟨hiss, fun hs => absurd hs (hstep.state hsyn), fun hest => ?_⟩
    by_cases hold : c.tcb.state = .established
    · rcases h.established hold with ⟨u, n, htight⟩ | hunsynced
      · exact .inl (htight.step hsyn hack hstep)
      · refine .inr ((hunsynced.step hold hack hstep).resolve_right fun hc => ?_)
        exact hc.2 hest
    · exact absurd hest (hstep.closing ⟨hsyn, hold⟩).1.2

theorem Outlet.Unharmed.fresh (isn : Uint) (syn : Segment) : (Outlet.fresh isn syn).Unharmed := by
  have hiss := nextIsn_toNat isn
  refine ⟨?_, fun _ => ⟨⟨0, 0, .fresh isn syn⟩, Nat.zero_le 1⟩, nofun⟩
  change (nextIsn isn).toNat + 1 < 2 ^ 32
  omega

theorem Outlet.Unharmed.abort {o : Outlet} (h : o.Unharmed) (hsyn : o.state = .synRecvd)
    (hseq : s.seq = o.nxt) (hdata : s.data = []) (hflags : s.flags = 0x14) :
    Unharmed { o.emit s with live := false } := by
  obtain ⟨⟨u, n, ho⟩, hone⟩ := h.opening hsyn
  have hhigh := ho.emit_empty hseq (span_of_reset hdata hflags)
  refine ⟨h.iss, fun _ => ⟨⟨u, n, ho.of_eq rfl rfl rfl rfl rfl hhigh⟩, hhigh.trans_le hone⟩,
    fun hest => ?_⟩
  exact absurd (hsyn.symm.trans hest) nofun

theorem unharmed_of_reached (h : Reached AcksWithin c) : c.outlet.Unharmed :=
  h.outlet_invariant .fresh (fun _ _ ho => ho.abort) fun _ _ _ ho hok _ hstep => ho.step hok hstep

/-! ## A segment with any ACK number -/

/-- Without a new ACK number nothing changes. -/
theorem unchanged_of_not_newAck (hno : s.isRst = false → ¬c.outlet.NewAck s)
    (h : handleTcp (c.receive s) s now = some c') :
    c'.tcb.sndUna = c.tcb.sndUna ∧ c'.tcb.sndNxt = c.tcb.sndNxt ∧ c'.tcb.outbuf = c.tcb.outbuf := by
  rcases handleTcp_arrived h with ⟨-, heq⟩ | ⟨hrst, o₁, hsettled, hmoved⟩
  · exact ⟨congrArg Outlet.una heq, congrArg Outlet.nxt heq, congrArg Outlet.outbuf heq⟩
  · have hsame : (c.outlet.receive s).ack s = c.outlet.receive s := if_neg (hno hrst)
    rw [hsame] at hsettled
    obtain ⟨b, st, rfl⟩ := hsettled.eq
    obtain ⟨st', heq⟩ := hmoved.eq
    exact ⟨congrArg Outlet.una heq, congrArg Outlet.nxt heq, congrArg Outlet.outbuf heq⟩

/-- A new ACK number is taken over. -/
theorem sndUna_of_newAck (hrst : s.isRst = false) (hnew : c.outlet.NewAck s)
    (h : handleTcp (c.receive s) s now = some c') : c'.tcb.sndUna = s.ack := by
  have hadvance : (c.outlet.receive s).ack s = (c.outlet.receive s).advance s.ack := if_pos hnew
  rcases handleTcp_arrived h with ⟨hyes, -⟩ | ⟨-, o₁, hsettled, hmoved⟩
  · rw [hrst] at hyes
    cases hyes
  · rw [hadvance] at hsettled
    obtain ⟨b, st, rfl⟩ := hsettled.eq
    obtain ⟨st', heq⟩ := hmoved.eq
    exact congrArg Outlet.una heq

/-- A segment keeps the highest sequence number and the stream. -/
theorem handleTcp_keeps (h : handleTcp (c.receive s) s now = some c') :
    c'.tcb.iss = c.tcb.iss ∧ c'.trace.high = c.trace.high ∧
      c'.trace.written = c.trace.written := by
  rcases handleTcp_arrived h with ⟨-, heq⟩ | ⟨-, o₁, hsettled, hmoved⟩
  · exact ⟨congrArg Outlet.iss heq, congrArg Outlet.high heq, congrArg Outlet.written heq⟩
  · obtain ⟨b, st, una, nxt, buf, heq⟩ := packet_eq hsettled hmoved
    exact ⟨congrArg Outlet.iss heq, congrArg Outlet.high heq, congrArg Outlet.written heq⟩

/-- What has not been sent is neither acknowledged nor freed by the segment. -/
structure Harmless (c c' : Conn) (s : Segment) : Prop where
  used : 0 ≤ rbUsed c'.tcb.outbuf ∧ rbUsed c'.tcb.outbuf ≤ c'.tcb.outbuf.size
  una : (c'.tcb.sndUna - c.tcb.iss).toNat ≤ c.trace.high
  content : c'.tcb.outbuf.content =
    c.trace.written.drop (c.trace.written.length - c'.tcb.outbuf.used)
  kept : ∀ j < c.trace.written.length, ¬c.outlet.Transmitted j →
    c.trace.written.length - c'.tcb.outbuf.used ≤ j
  beyond : c.trace.high < (s.ack - c.tcb.iss).toNat → c'.tcb.sndUna = c.tcb.sndUna ∧
    c'.tcb.sndNxt = c.tcb.sndNxt ∧ c'.tcb.outbuf = c.tcb.outbuf

theorem rbUsed_le {r : Ringbuf} (h : r.Ok) : 0 ≤ rbUsed r ∧ rbUsed r ≤ r.size := by
  have := h.used_le
  rw [rbUsed]
  omega

theorem toNat_sub_iss {x iss : Uint} {k : ℕ} (h : x.toNat = iss.toNat + k) :
    (x - iss).toNat = k := by
  rw [BitVec.toNat_sub_of_le (BitVec.le_def.mpr (by omega))]
  omega

/-- An ACK number beyond what was sent is not new when it is harmless: it has wrapped. -/
theorem not_newAck_of_beyond {u : ℕ} (huna : c.tcb.sndUna.toNat = c.tcb.iss.toNat + u)
    (hrst : s.isRst = false) (hok : AckWithin c s)
    (hbeyond : c.trace.high < (s.ack - c.tcb.iss).toNat) : ¬c.outlet.NewAck s := by
  intro hnew
  have hlt : c.tcb.sndUna.toNat < s.ack.toNat := BitVec.lt_def.mp hnew.2
  have hle := hok hrst hnew.1
  rw [toNat_sub_iss (k := s.ack.toNat - c.tcb.iss.toNat) (by omega)] at hbeyond
  omega

theorem Outlet.Tight.harmless {u n : ℕ} (h : c.outlet.Tight u n)
    (hsyn : c.tcb.state ≠ .synRecvd) (hok : AckWithin c s)
    (htcp : handleTcp (c.receive s) s now = some c') : Harmless c c' s := by
  have hack : ∀ s' now', (Input.packet s now) = .packet s' now' → s'.isRst = false →
      c.outlet.NewAck s' → s'.ack.toNat ≤ c.outlet.iss.toNat + c.outlet.high := by
    rintro _ _ ⟨⟩ hrst hnew
    exact hok hrst hnew.1
  obtain ⟨u', n', h'⟩ := h.step hsyn hack (handleTcp_outlet htcp)
  obtain ⟨hiss, hhigh, hwritten⟩ := handleTcp_keeps htcp
  have huna : c'.tcb.sndUna.toNat = c.tcb.iss.toNat + u' := hiss ▸ h'.una
  have hcontent := h'.buffered.content
  have hheld : 1 + c'.trace.written.length ≤ u' + c'.tcb.outbuf.used := h'.held
  have hsent : n' ≤ c'.trace.high := h'.sent
  have hle := h'.le
  rw [hwritten] at hheld
  refine ⟨rbUsed_le h'.buffered.ok, ?_, hwritten ▸ hcontent, fun j hj hno => ?_, fun hbeyond => ?_⟩
  · rw [toNat_sub_iss huna]
    omega
  · have hunsent : c.trace.high ≤ j + 1 := by
      by_contra hlt
      exact hno (h.transmitted j (Nat.lt_of_not_le hlt) hj)
    omega
  · have hno : s.isRst = false → ¬c.outlet.NewAck s :=
      fun hrst => not_newAck_of_beyond h.una hrst hok hbeyond
    exact unchanged_of_not_newAck hno htcp

theorem Outlet.Unsynced.harmless (h : c.outlet.Unsynced) (hok : AckWithin c s)
    (htcp : handleTcp (c.receive s) s now = some c') : Harmless c c' s := by
  have hsame := unchanged_of_not_newAck
    (fun hrst => h.not_new fun hnew => hok hrst hnew.1) htcp
  have huna := hsame.1
  have hbuf := hsame.2.2
  have hiss : c.tcb.sndUna = c.tcb.iss := h.una
  have hused : c.tcb.outbuf.used = c.trace.written.length := h.used
  refine ⟨?_, ?_, ?_, fun j _ _ => ?_, fun _ => hsame⟩
  · rw [hbuf]
    exact rbUsed_le h.buffered.ok
  · rw [huna, hiss, BitVec.sub_self]
    exact Nat.zero_le _
  · rw [hbuf]
    exact h.buffered.content
  · rw [hbuf, hused]
    omega

/-- In `ESTABLISHED`, a segment leaves the send side intact exactly when its ACK number is
within what was sent, in every run in which that holds of the segments before. -/
theorem harmless_iff_ackWithin (h : Reached AcksWithin c) (hest : c.tcb.state = .established)
    (hstep : step c (.packet s now) = some c') : Harmless c c' s ↔ AckWithin c s := by
  have hunharmed := unharmed_of_reached h
  have hsyn : c.tcb.state ≠ .synRecvd := by
    rw [hest]
    nofun
  have htcp : handleTcp (c.receive s) s now = some c' := by
    cases (step_cases hstep).2 with
    | packet htcp => exact htcp
  constructor
  · intro hharmless hrst hack
    by_contra hover
    have hat : ∃ u ≤ c.trace.high, c.tcb.sndUna.toNat = c.tcb.iss.toNat + u := by
      rcases hunharmed.established hest with ⟨u, n, htight⟩ | hunsynced
      · exact ⟨u, htight.le.trans htight.sent, htight.una⟩
      · exact ⟨0, Nat.zero_le _, congrArg BitVec.toNat hunsynced.una⟩
    obtain ⟨u, hu, huna⟩ := hat
    have hnew : c.outlet.NewAck s := by
      refine ⟨hack, BitVec.lt_def.mpr ?_⟩
      change c.tcb.sndUna.toNat < s.ack.toNat
      omega
    have hmoved := hharmless.una
    rw [sndUna_of_newAck hrst hnew htcp,
      toNat_sub_iss (k := s.ack.toNat - c.tcb.iss.toNat) (by omega)] at hmoved
    omega
  · intro hok
    rcases hunharmed.established hest with ⟨u, n, htight⟩ | hunsynced
    · exact htight.harmless hsyn hok htcp
    · exact hunsynced.harmless hok htcp

/-- The ACK of a byte that was sent. -/
theorem harmless_iff_ackWithin_byte : ∃ c c', Reached AcksWithin c ∧
    step c (.packet ⟨1001, 0x10002, 0x10, 8192, []⟩ ⟨0, 0⟩) = some c' ∧
      c.trace.written = [7] ∧ c'.tcb.outbuf.used = 0 ∧
      Harmless c c' ⟨1001, 0x10002, 0x10, 8192, []⟩ := by
  have hexec : (execFrom AcksWithin .tcpMapCb 0 (clientSyn 8192) (.connected 5)
      (handshake ++ [.fdEvent 1 (.read (.data [7])), .alwaysEvent 2 ⟨0, 0⟩])).any
      (fun c => c.tcb.state = .established ∧ c.trace.written = [7] ∧
        AckWithin c ⟨1001, 0x10002, 0x10, 8192, []⟩ ∧
        (step c (.packet ⟨1001, 0x10002, 0x10, 8192, []⟩ ⟨0, 0⟩)).any
          (fun c' => c'.tcb.outbuf.used = 0)) = true := by
    decide +kernel
  obtain ⟨c, hreach, hc⟩ := reached_of_exec hexec
  obtain ⟨hest, hwritten, hok, hnext⟩ := of_decide_eq_true hc
  obtain ⟨c', hstep, hused⟩ := (Option.any_eq_true _ _).mp hnext
  exact ⟨c, c', hreach, hstep, hwritten, of_decide_eq_true hused,
    (harmless_iff_ackWithin hreach hest hstep).mpr hok⟩

/-- An ACK number half the sequence space away right after the handshake: `rb_advance` takes
the difference for a byte count, and `used` is far beyond `size`. -/
theorem used_beyond_size : ∃ c c', Reached AcksWithin c ∧ c.tcb.state = .established ∧
    step c (.packet ⟨1001, 0x80010002, 0x10, 8192, []⟩ ⟨0, 0⟩) = some c' ∧
      c'.tcb.outbuf.size = 16384 ∧ c'.tcb.outbuf.used = 0x7FFFFFFF ∧
      ¬Harmless c c' ⟨1001, 0x80010002, 0x10, 8192, []⟩ := by
  have hexec : (execFrom AcksWithin .tcpMapCb 0 (clientSyn 8192) (.connected 5) handshake).any
      (fun c => c.tcb.state = .established ∧
        (step c (.packet ⟨1001, 0x80010002, 0x10, 8192, []⟩ ⟨0, 0⟩)).any
          (fun c' => c'.tcb.outbuf.size = 16384 ∧ c'.tcb.outbuf.used = 0x7FFFFFFF)) = true := by
    decide +kernel
  obtain ⟨c, hreach, hc⟩ := reached_of_exec hexec
  obtain ⟨hest, hnext⟩ := of_decide_eq_true hc
  obtain ⟨c', hstep, hc'⟩ := (Option.any_eq_true _ _).mp hnext
  obtain ⟨hsize, hused⟩ := of_decide_eq_true hc'
  refine ⟨c, c', hreach, hest, hstep, hsize, hused, fun hharmless => ?_⟩
  have hle := hharmless.used.2
  rw [rbUsed, hsize, hused] at hle
  omega

end Ptrtd
