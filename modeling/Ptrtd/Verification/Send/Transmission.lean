import Ptrtd.Verification.Send.Invariant

/-! # What has been transmitted

When the SYN/ACK is sent once, the bytes start right behind it and nothing is skipped:
every byte below the highest sequence number sent has been part of a segment. -/

namespace Ptrtd

variable {c : Conn} {i : Input}

/-- `do_tcb_write` sends the SYN/ACK only once. -/
def SynAckOnce (c : Conn) : Input → Prop
  | .alwaysEvent _ _ => c.tcb.state = .synRecvd → c.tcb.sndNxt = c.tcb.iss
  | _ => True

instance (c : Conn) : (i : Input) → Decidable (SynAckOnce c i)
  | .alwaysEvent _ _ => inferInstanceAs (Decidable (_ → _))
  | .packet _ _ | .timeEvent _ | .fdEvent _ _ | .call _ | .others _ => isTrue trivial

namespace Outlet

variable {o o' : Outlet} {u n u' n' j : ℕ} {s : Segment}

/-- Byte `j` of the stream has been part of a segment. -/
def Transmitted (o : Outlet) (j : ℕ) : Prop :=
  ∃ s ∈ o.sent, ∃ k, s.seq = o.iss + 1 + BitVec.ofNat 32 k ∧ k ≤ j ∧ j < k + s.data.length

/-- The send side after a handshake with a single SYN/ACK. -/
structure Tight (o : Outlet) (u n : ℕ) : Prop extends o.Sending u n where
  tight : o.high ≤ o.limit
  transmitted : ∀ j, j + 1 < o.high → j < o.written.length → o.Transmitted j

theorem Transmitted.of_eq (h : o.Transmitted j) (hiss : o'.iss = o.iss)
    (hsent : ∀ s ∈ o.sent, s ∈ o'.sent) : o'.Transmitted j := by
  obtain ⟨s, hs, k, hseq, hle, hlt⟩ := h
  exact ⟨s, hsent s hs, k, hiss ▸ hseq, hle, hlt⟩

/-- Steps that neither send nor write. -/
theorem Tight.of_eq (h : o.Tight u n) (h' : o'.Sending u' n') (hiss : o'.iss = o.iss)
    (hsent : o'.sent = o.sent) (hwritten : o'.written = o.written) (hhigh : o'.high = o.high)
    (hlimit : o.limit ≤ o'.limit) : o'.Tight u' n' := by
  refine ⟨h', ?_, fun j hj hlen => ?_⟩
  · rw [hhigh]
    exact h.tight.trans hlimit
  · rw [hhigh] at hj
    rw [hwritten] at hlen
    exact (h.transmitted j hj hlen).of_eq hiss fun s hs => hsent ▸ hs

/-- The segment that is sent next leaves no byte out. -/
theorem Tight.segment (h : o.Tight u n) {fin push : Bool} (hdata : o.Chunk s.data)
    (hseq : s.seq = o.nxt) (hflags : s.flags = sendFlags push fin)
    (hfin : fin = true → rbAvail o.outbuf (o.nxt + BitVec.ofNat 32 s.data.length) = 0 ∧
      isClosingState o.state = true) :
    Tight
      { o.emit s with
        nxt := o.nxt + BitVec.ofNat 32 s.data.length + (if fin then 1 else 0) }
      u (n + (s.data.length + (if fin then 1 else 0))) := by
  obtain ⟨hsend, hhigh⟩ := h.toSending.segment hdata hseq hflags hfin
  obtain ⟨-, hchunk⟩ := h.chunk hdata
  have htight := h.tight
  have hsent := h.sent
  have hle := h.le
  have hpos := h.pos
  have hlimit : 1 + o.written.length ≤ o.limit := by
    rw [limit]
    split <;> omega
  have hone : (if fin = true then 1 else 0) ≤ 1 := by split <;> omega
  refine ⟨hsend, ?_, fun j hj hlen => ?_⟩
  · change (o.emit s).high ≤ o.limit
    rw [hhigh]
    cases fin with
    | false =>
        simp only [Bool.false_eq_true, if_false]
        omega
    | true =>
        have hend := h.fin hdata (hfin rfl).1
        have hlimit' := limit_of_closing (hfin rfl).2
        simp only [if_true]
        omega
  · change j + 1 < (o.emit s).high at hj
    change j < o.written.length at hlen
    rw [hhigh] at hj
    by_cases hold : j + 1 < o.high
    · exact (h.transmitted j hold hlen).of_eq rfl fun s hs => List.mem_append_left _ hs
    · refine ⟨s, List.mem_append_right _ (List.mem_singleton_self s), n - 1, ?_, by omega, ?_⟩
      · rw [hseq]
        exact at_stream h.nxt (by omega)
      · cases fin with
        | false =>
            simp only [Bool.false_eq_true, if_false] at hj
            omega
        | true =>
            have hend := h.fin hdata (hfin rfl).1
            simp only [if_true] at hj
            omega

theorem Tight.write {d : List Uchar} {r : Ringbuf} {m : ℕ} (h : o.Tight u n)
    (hest : o.state = .established) (hw : rbWrite o.outbuf d = some (r, m)) :
    Tight { o with outbuf := r, written := o.written ++ d.take m } u n := by
  have htight := h.tight
  rw [limit, if_pos hest] at htight
  refine ⟨h.toSending.write hw, ?_, fun j hj _ => ?_⟩
  · change o.high ≤ (o.written ++ d.take m).length + _
    rw [List.length_append]
    split <;> omega
  · have hj' : j + 1 < o.high := hj
    exact (h.transmitted j hj' (by omega)).of_eq rfl fun _ hs => hs

theorem Tight.step (h : o.Tight u n) (hsyn : o.state ≠ .synRecvd)
    (hack : ∀ s now, i = .packet s now → s.isRst = false → o.NewAck s →
      s.ack.toNat ≤ o.iss.toNat + o.high)
    (hstep : o.Step i o') : ∃ u' n', o'.Tight u' n' := by
  obtain ⟨u', n', h'⟩ := h.toSending.step hsyn hack hstep
  cases hstep with
  | @packet s _ _ _ hrst hsettled hmoved =>
      have hstate := ack_state (o.receive s) s
      have hs := hsettled.state.1 (by rw [hstate]; exact hsyn)
      have hm := hmoved.state.2.1 hs.1
      have hest : o'.state = .established → o.state = .established := fun he => by
        have := hs.2 (hm.2 he)
        rwa [hstate] at this
      have hmono : o'.written = o.written → (o'.state = .established → o.state = .established) →
          o.limit ≤ o'.limit := limit_mono
      obtain ⟨b, st, una, nxt, buf, rfl⟩ := packet_eq hsettled hmoved
      exact ⟨u', n', h.of_eq h' rfl rfl rfl rfl (hmono rfl hest)⟩
  | synAck hs => exact absurd hs hsyn
  | segment _ hdata hseq hflags hfin => exact ⟨u, _, h.segment hdata hseq hflags hfin⟩
  | write hest hw => exact ⟨u, n, h.write hest hw⟩
  | close => exact ⟨u', n', h.of_eq h' rfl rfl rfl rfl (limit_mono rfl nofun)⟩
  | @abort _ s _ hseq hdata hflags =>
      obtain ⟨-, hhigh⟩ := h.toSending.emit hseq (span_of_reset hdata hflags) (by omega)
      have hsent := h.sent
      have hhigh' : (o.emit s).high = o.high := by omega
      refine ⟨u', n', h', ?_, fun j hj hlen => ?_⟩
      · exact hhigh'.trans_le h.tight
      · have hj' : j + 1 < o.high := hhigh' ▸ hj
        exact (h.transmitted j hj' hlen).of_eq rfl fun s hs => List.mem_append_left _ hs
  | quiet | removed | reset | timeout => exact ⟨u', n', h.of_eq h' rfl rfl rfl rfl le_rfl⟩

/-- The handshake ends with a single SYN/ACK acknowledged. -/
theorem Opening.tight (h : o.Opening u n) (heq : o.una = o.nxt) (hpos : 1 ≤ o.high)
    (hone : o.high ≤ 1) (hiss : o.iss.toNat + 1 < 2 ^ 32) :
    Tight { o with state := .established } n n := by
  refine ⟨h.opened heq hpos (by omega) (by omega), ?_, fun j hj _ => ?_⟩
  · change o.high ≤ o.written.length + 1
    omega
  · have hj' : j + 1 < o.high := hj
    omega

theorem Tight.moved (h : o.Tight u n) (hsyn : o.state ≠ .synRecvd) (hm : o.Moved s o') :
    o'.Tight u n := by
  have h' := h.toSending.moved hsyn hm
  have hmono : o'.written = o.written → (o'.state = .established → o.state = .established) →
      o.limit ≤ o'.limit := limit_mono
  have hest := (hm.state.2.1 hsyn).2
  obtain ⟨st, rfl⟩ := hm.eq
  exact h.of_eq h' rfl rfl rfl rfl (hmono rfl hest)

/-! ## Regular connections -/

/-- The send side with at most one SYN/ACK, which is acknowledged when the connection is
established. -/
structure Regular (o : Outlet) : Prop where
  iss : o.iss.toNat + 1 < 2 ^ 32
  opening : o.state = .synRecvd → (∃ u n, o.Opening u n) ∧ o.high ≤ 1
  sending : o.state ≠ .synRecvd → ∃ u n, o.Tight u n

/-- A segment neither moves `iss` nor sends anything. -/
theorem ack_fixed (o : Outlet) (s : Segment) :
    ((o.receive s).ack s).iss = o.iss ∧ ((o.receive s).ack s).high = o.high := by
  obtain ⟨una, nxt, buf, heq⟩ := ack_eq (o.receive s) s
  rw [heq]
  exact ⟨rfl, rfl⟩

/-- In `SYN_RECVD` only the SYN/ACK is sent, and only a segment leads to another state. -/
theorem Opening.once (ho : o.Opening u n) (hone : o.high ≤ 1) (hsyn : o.state = .synRecvd)
    (honce : ∀ addr now, i = .alwaysEvent addr now → o.nxt = o.iss) (hstep : o.Step i o') :
    (o'.state = .synRecvd ∧ o'.iss = o.iss ∧ (∃ u n, o'.Opening u n) ∧ o'.high ≤ 1) ∨
      ∃ s now o₁, i = .packet s now ∧ s.isRst = false ∧ ((o.receive s).ack s).Settled s o₁ ∧
        o₁.Moved s o' := by
  cases hstep with
  | quiet => exact .inl ⟨hsyn, rfl, ⟨u, n, ho⟩, hone⟩
  | removed => exact .inl ⟨hsyn, rfl, ⟨u, n, ho.of_eq rfl rfl rfl rfl rfl rfl⟩, hone⟩
  | reset => exact .inl ⟨hsyn, rfl, ⟨u, n, ho.of_eq rfl rfl rfl rfl rfl rfl⟩, hone⟩
  | @packet s now o₁ _ hrst hsettled hmoved =>
      exact .inr ⟨s, now, o₁, rfl, hrst, hsettled, hmoved⟩
  | timeout hs => exact absurd hsyn hs
  | synAck _ hseq hdata hflags =>
      obtain ⟨hnext, hhigh⟩ := ho.synAck hseq (span_of_synAck hdata hflags)
      -- nothing has been sent before
      have hzero : n = 0 := by
        have hnxt : SeqNum.At o.iss o.nxt 0 := by
          rw [honce _ _ rfl]
          exact SeqNum.at_zero
        have hn := ho.sent
        exact ho.nxt.inj hnxt (by omega) (by omega)
      refine .inl ⟨hsyn, rfl, ⟨u, n + 1, hnext⟩, ?_⟩
      change (o.emit _).high ≤ 1
      rw [hhigh, ← ho.sent, hzero]
  | segment hs => exact absurd hsyn hs
  | write hs => exact absurd (hsyn.symm.trans hs) nofun
  | close hs => exact absurd (hsyn.symm.trans hs) nofun
  | abort _ hseq hdata hflags =>
      have hhigh := ho.emit_empty hseq (span_of_reset hdata hflags)
      exact .inl ⟨hsyn, rfl, ⟨u, n, ho.of_eq rfl rfl rfl rfl rfl hhigh⟩, hhigh.trans_le hone⟩

theorem Regular.of_opening (hiss : o.iss.toNat + 1 < 2 ^ 32) (hsyn : o.state = .synRecvd)
    (h : ∃ u n, o.Opening u n) (hone : o.high ≤ 1) : o.Regular :=
  ⟨hiss, fun _ => ⟨h, hone⟩, fun hne => absurd hsyn hne⟩

/-- A segment in `SYN_RECVD`; an ACK comes after the SYN/ACK. -/
theorem Regular.opening_packet {o₁ o₂ : Outlet} (h : o.Regular) (hsyn : o.state = .synRecvd)
    (hack : o.NewAck s → s.ack.toNat ≤ o.iss.toNat + o.high) (hsent : s.isAck = true → 1 ≤ o.high)
    (hsettled : ((o.receive s).ack s).Settled s o₁) (hmoved : o₁.Moved s o₂) : o₂.Regular := by
  obtain ⟨⟨u, n, ho⟩, hone⟩ := h.opening hsyn
  have hiss := h.iss
  have hsame := ack_fixed o s
  rcases ho.packet hsyn hack (by omega) hsettled hmoved with
    ⟨rfl, hs, hopening⟩ | ⟨hflag, hflight, ⟨u', hopening⟩, hm⟩
  · obtain ⟨u', hopening⟩ := hopening
    exact .of_opening (hsame.1 ▸ hiss) hs ⟨u', n, hopening⟩ (hsame.2 ▸ hone)
  · have htight := hopening.tight hflight (hsame.2 ▸ hsent hflag) (hsame.2 ▸ hone) (hsame.1 ▸ hiss)
    have hne : o₂.state ≠ .synRecvd := (hm.state.2.1 nofun).1
    refine ⟨?_, fun hs => absurd hs hne, fun _ => ⟨n, n, htight.moved nofun hm⟩⟩
    obtain ⟨st, rfl⟩ := hm.eq
    exact hsame.1 ▸ hiss

theorem Regular.opening_step (h : o.Regular) (hsyn : o.state = .synRecvd)
    (honce : ∀ addr now, i = .alwaysEvent addr now → o.nxt = o.iss)
    (hack : ∀ s now, i = .packet s now → s.isRst = false → o.NewAck s →
      s.ack.toNat ≤ o.iss.toNat + o.high)
    (hsent : ∀ s now, i = .packet s now → s.isRst = false → s.isAck = true → 1 ≤ o.high)
    (hstep : o.Step i o') : o'.Regular := by
  obtain ⟨⟨u, n, ho⟩, hone⟩ := h.opening hsyn
  rcases ho.once hone hsyn honce hstep with
    ⟨hs, hiss, hopening, hone'⟩ | ⟨s, now, o₁, hi, hrst, hsettled, hmoved⟩
  · exact .of_opening (hiss ▸ h.iss) hs hopening hone'
  · exact h.opening_packet hsyn (hack s now hi hrst) (hsent s now hi hrst) hsettled hmoved

theorem Regular.fresh (isn : Uint) (syn : Segment) : (Outlet.fresh isn syn).Regular := by
  have hiss := nextIsn_toNat isn
  refine .of_opening ?_ rfl ⟨0, 0, .fresh isn syn⟩ (Nat.zero_le 1)
  change (nextIsn isn).toNat + 1 < 2 ^ 32
  omega

theorem Regular.abort (h : o.Regular) (hsyn : o.state = .synRecvd) (hseq : s.seq = o.nxt)
    (hdata : s.data = []) (hflags : s.flags = 0x14) :
    Regular { o.emit s with live := false } := by
  obtain ⟨⟨u, n, ho⟩, hone⟩ := h.opening hsyn
  have hhigh := ho.emit_empty hseq (span_of_reset hdata hflags)
  exact .of_opening h.iss hsyn ⟨u, n, ho.of_eq rfl rfl rfl rfl rfl hhigh⟩ (hhigh.trans_le hone)

end Outlet

open Outlet

/-- Regular connections stay regular while the peer acknowledges nothing before it is sent. -/
theorem Outlet.Regular.step {o : Outlet} (h : c.outlet.Regular) (honce : SynAckOnce c i)
    (hack : ∀ s now, i = .packet s now → s.isRst = false → c.outlet.NewAck s →
      s.ack.toNat ≤ c.outlet.iss.toNat + c.outlet.high)
    (hsent : ∀ s now, i = .packet s now → s.isRst = false → s.isAck = true →
      c.tcb.state = .synRecvd → 1 ≤ c.outlet.high)
    (hstep : c.outlet.Step i o) : o.Regular := by
  by_cases hsyn : c.tcb.state = .synRecvd
  · refine h.opening_step hsyn ?_ hack (fun s now hi hrst hflag => hsent s now hi hrst hflag hsyn)
      hstep
    rintro addr now rfl
    exact honce hsyn
  · obtain ⟨u, n, htight⟩ := h.sending hsyn
    exact ⟨hstep.grows.1 ▸ h.iss, fun hs => absurd hs (hstep.state hsyn),
      fun _ => htight.step hsyn hack hstep⟩

end Ptrtd
