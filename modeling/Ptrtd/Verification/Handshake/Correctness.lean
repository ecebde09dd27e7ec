import Ptrtd.Verification.Session.History

/-! # The handshake

A block leaves `SYN_RECVD` when `snd_una` equals `snd_nxt`, which is also the case before
the SYN/ACK has been sent. The handshake is safe as long as no ACK arrives that early, none
jumps over `iss + 1`, and the peer does not open a closed window before `tcp_accept`, which
would send the SYN/ACK without it. -/

namespace Ptrtd

variable {a c c' : Conn} {i : Input} {s : Segment} {now : Timeval}

/-- The SYN/ACK with sequence number `iss` has been sent. -/
def SynAckSent (c : Conn) : Prop :=
  ∃ s ∈ c.trace.sent, s.isSyn = true ∧ s.isAck = true ∧ s.seq = c.tcb.iss

/-- A segment that acknowledges exactly the SYN/ACK has arrived. -/
def FinalAckArrived (c : Conn) : Prop :=
  ∃ s ∈ c.trace.received, s.isAck = true ∧ s.ack = c.tcb.iss + 1

/-- Everything that a connection needs to be established. -/
structure HandshakeDone (c : Conn) : Prop where
  accept : c.trace.acceptCalled = true
  synAck : SynAckSent c
  ack : FinalAckArrived c

theorem SynAckSent.later (h : SynAckSent c) (hl : Later c c') : SynAckSent c' := by
  obtain ⟨s, hs, hsyn, hack, hseq⟩ := h
  exact ⟨s, hl.sent s hs, hsyn, hack, hseq.trans hl.iss.symm⟩

theorem FinalAckArrived.later (h : FinalAckArrived c) (hl : Later c c') : FinalAckArrived c' := by
  obtain ⟨s, hs, hack, hnum⟩ := h
  exact ⟨s, hl.received s hs, hack, by rw [hnum, hl.iss]⟩

theorem HandshakeDone.later (h : HandshakeDone c) (hl : Later c c') : HandshakeDone c' :=
  ⟨hl.accept h.accept, h.synAck.later hl, h.ack.later hl⟩

/-- In `SYN_RECVD`, no ACK arrives before the SYN/ACK was sent or jumps over `iss + 1`, and
no segment opens a closed window before `tcp_accept`. -/
def RegularHandshake (c : Conn) : Input → Prop
  | .packet s _ => c.tcb.state = .synRecvd → s.isRst = false →
      (s.isAck = true →
        c.tcb.sndNxt ≠ c.tcb.iss ∧ (c.tcb.sndUna = c.tcb.iss → s.ack ≤ c.tcb.iss + 1)) ∧
      (c.trace.acceptCalled = false → ¬s.seq < c.tcb.rcvNxt →
        s.wnd = 0 ∨ windowSize c.tcb > 0)
  | _ => True

instance (c : Conn) : (i : Input) → Decidable (RegularHandshake c i)
  | .packet _ _ => inferInstanceAs (Decidable (_ → _))
  | .timeEvent _ | .fdEvent _ _ | .alwaysEvent _ _ | .call _ | .others _ => isTrue trivial

/-- What holds in `SYN_RECVD`. -/
structure InHandshake (c : Conn) : Prop where
  una : c.tcb.sndUna ≠ c.tcb.iss → FinalAckArrived c
  nxt : c.tcb.sndNxt ≠ c.tcb.iss → SynAckSent c
  idle : c.trace.acceptCalled = false → c.tcb.sndUna = c.tcb.iss ∧ c.tcb.sndNxt = c.tcb.iss ∧
    ∀ e ∈ c.ev.alwaysEventList, c.owns e = false

/-- The invariant of the handshake. -/
structure Handshake (c : Conn) : Prop where
  iss : c.tcb.iss.toNat + 1 < 2 ^ 32
  syn : c.live = true → c.tcb.state = .synRecvd → InHandshake c
  done : c.tcb.state ≠ .synRecvd → HandshakeDone c

theorem HandshakeDone.inHandshake (h : HandshakeDone c) : InHandshake c :=
  ⟨fun _ => h.ack, fun _ => h.synAck, fun hno => absurd (h.accept.symm.trans hno) nofun⟩

/-! ## Segments in `SYN_RECVD` -/

/-- An ACK number just above `iss` is `iss + 1`. -/
theorem eq_iss_succ {iss ack : Uint} (hiss : iss.toNat + 1 < 2 ^ 32) (hlt : iss < ack)
    (hle : ack ≤ iss + 1) : ack = iss + 1 := by
  apply BitVec.eq_of_toNat_eq
  have hsucc : (iss + 1).toNat = iss.toNat + 1 := by
    rw [BitVec.toNat_add]
    exact Nat.mod_eq_of_lt (by simpa using hiss)
  rw [BitVec.lt_def] at hlt
  rw [BitVec.le_def] at hle
  omega

/-- The outcome of the block for ACK in `SYN_RECVD`. -/
theorem handleAck_synRecvd {f : Flow} (hiss : c.tcb.iss.toNat + 1 < 2 ^ 32)
    (hstate : c.tcb.state = .synRecvd) (h : InHandshake c) (hmem : s ∈ c.trace.received)
    (hack : s.isAck = true →
      c.tcb.sndNxt ≠ c.tcb.iss ∧ (c.tcb.sndUna = c.tcb.iss → s.ack ≤ c.tcb.iss + 1))
    (hf : handleAck c s now = some f) : ∃ a, f = .next a ∧ Later c a ∧
      (a.tcb.state = .synRecvd ∧ InHandshake a ∧ (a.trace.acceptCalled = false → a = c) ∨
        HandshakeDone a) := by
  rcases handleAck_cases hf with ⟨-, rfl⟩ | ⟨hflag, a, hnew, hall⟩
  · exact ⟨c, rfl, .rfl, .inl ⟨hstate, h, fun _ => rfl⟩⟩
  · obtain ⟨hnxt, hjump⟩ := hack hflag
    have hsent := h.nxt hnxt
    have haccept : c.trace.acceptCalled = true := by
      by_contra hnot
      exact hnxt (h.idle (Bool.eq_false_iff.mpr hnot)).2.1
    have hfirst : Later c a ∧ a.tcb.state = .synRecvd ∧ InHandshake a ∧
        (a.tcb.sndUna = a.tcb.sndNxt → FinalAckArrived a) := by
      rcases hnew with ⟨hlt, hnew⟩ | ⟨-, rfl⟩
      · have hl : Later c a := .handleNewAck hnew
        have harrived : FinalAckArrived c := by
          by_cases huna : c.tcb.sndUna = c.tcb.iss
          · exact ⟨s, hmem, hflag, eq_iss_succ hiss (huna ▸ hlt) (hjump huna)⟩
          · exact h.una huna
        obtain ⟨m, ev, r, d, o, e, k, w, -, -, -, rfl⟩ := handleNewAck_eq hnew
        refine ⟨hl, hstate, ⟨fun _ => harrived.later hl, fun _ => hsent.later hl, fun hno => ?_⟩,
          fun _ => harrived.later hl⟩
        exact absurd (haccept.symm.trans hno) nofun
      · refine ⟨.rfl, hstate, h, fun heq => h.una ?_⟩
        rw [heq]
        exact hnxt
    obtain ⟨hl, hsyn, hin, hfinal⟩ := hfirst
    have hkeep : a.trace.acceptCalled = false → a = c := by
      intro hno
      exact absurd ((hl.accept haccept).symm.trans hno) nofun
    rcases hall with ⟨heq, hall⟩ | ⟨-, rfl⟩
    · have hdone : HandshakeDone a := ⟨hl.accept haccept, hsent.later hl, hfinal heq⟩
      have hl' := Later.handleAllAcked hall
      cases handleAllAcked_effect hall with
      | opened => exact ⟨_, rfl, hl.trans hl', .inr (hdone.later hl')⟩
      | deleted hs => rw [hsyn] at hs; cases hs
      | finAcked hs => rw [hsyn] at hs; cases hs
      | bothClosed hs => rw [hsyn] at hs; cases hs
      | stillClosing hs => rw [hsyn] at hs; cases hs
      | other hs => exact absurd hsyn hs
    · exact ⟨a, rfl, hl, .inl ⟨hsyn, hin, hkeep⟩⟩

/-- With nothing in flight, a window of zero leaves no room to send. -/
theorem windowSize_of_zero {t : Tcb} (hwnd : t.sndWnd = 0) (huna : t.sndUna = t.sndNxt) :
    windowSize (windowUpdate t) = 0 := by
  have hle := updatedCwnd_le t
  rw [hwnd] at hle
  have hcwnd : updatedCwnd t = 0 := BitVec.le_zero_iff.mp hle
  simp [windowSize, windowUpdate, hcwnd, huna]

/-- The window update schedules nothing unless it opens a closed window. -/
theorem handleWindow_quiet (h : s.wnd = 0 ∧ c.tcb.sndUna = c.tcb.sndNxt ∨ windowSize c.tcb > 0) :
    (handleWindow c s).ev = c.ev := by
  rw [handleWindow]
  dsimp only
  split
  · next hclosed =>
      rcases h with ⟨hwnd, huna⟩ | hopen
      · have hwnd' : s.wnd.setWidth 32 = (0 : Uint) := by rw [hwnd]; rfl
        have hsize :=
          windowSize_of_zero (t := { c.tcb with sndWnd := s.wnd.setWidth 32 }) hwnd' huna
        rw [if_neg (by rw [hsize]; decide)]
      · exact absurd hopen (not_lt.mpr hclosed)
  · rfl

theorem tcpRead_quiet {len : ℤ} {d : List Uchar} (hleft : rbLeft c.tcb.inbuf ≠ 0)
    (h : tcpRead c len = some (c', d)) : c'.ev = c.ev := by
  rw [tcpRead, Option.map_eq_some_iff] at h
  obtain ⟨b, -, h⟩ := h
  dsimp only at h
  rw [if_neg hleft] at h
  obtain ⟨rfl, -⟩ := Prod.mk.inj h
  rfl

theorem InHandshake.of_later (h : InHandshake c) (hl : Later c c')
    (huna : c'.tcb.sndUna = c.tcb.sndUna) (hnxt : c'.tcb.sndNxt = c.tcb.sndNxt)
    (hidle : c'.trace.acceptCalled = false → ∀ e ∈ c'.ev.alwaysEventList, c'.owns e = false) :
    InHandshake c' := by
  refine ⟨fun hne => ?_, fun hne => ?_, fun hno => ?_⟩
  · rw [huna, hl.iss] at hne
    exact (h.una hne).later hl
  · rw [hnxt, hl.iss] at hne
    exact (h.nxt hne).later hl
  · have hno' : c.trace.acceptCalled = false := by
      by_contra hyes
      rw [hl.accept (by simpa using hyes)] at hno
      cases hno
    obtain ⟨h₁, h₂, -⟩ := h.idle hno'
    exact ⟨by rw [huna, hl.iss, h₁], by rw [hnxt, hl.iss, h₂], hidle hno⟩

/-- A segment that leaves the block in `SYN_RECVD` leaves it as it should be there. -/
theorem handleTcp_synRecvd (hiss : c.tcb.iss.toNat + 1 < 2 ^ 32)
    (hstate : c.tcb.state = .synRecvd) (h : InHandshake c) (hmem : s ∈ c.trace.received)
    (hok : RegularHandshake c (.packet s now)) (htcp : handleTcp c s now = some c') :
    c'.live = false ∧ c'.tcb.state = .synRecvd ∨
      c'.tcb.state = .synRecvd ∧ InHandshake c' ∨ HandshakeDone c' := by
  rcases handleTcp_cases htcp with ⟨-, hrst⟩ | ⟨hrst, hdone⟩ | ⟨hrst, a, hnext, hrest⟩
  · obtain ⟨m, ev, b, -, -, rfl⟩ := handleRst_eq hrst
    exact .inl ⟨rfl, hstate⟩
  · obtain ⟨a, ha, -⟩ := handleAck_synRecvd hiss hstate h hmem (hok hstate hrst).1 hdone
    cases ha
  · obtain ⟨b, hb, hl, hout⟩ := handleAck_synRecvd hiss hstate h hmem (hok hstate hrst).1 hnext
    cases hb
    rcases hout with ⟨hsyn, hin, hkeep⟩ | hdone
    · refine .inr (.inl ?_)
      rcases hrest with ⟨-, rfl⟩ | ⟨hseq, hdata⟩
      · rw [handleOld, if_pos hsyn]
        exact ⟨hsyn, hin⟩
      · have hquiet : a.trace.acceptCalled = false → (handleWindow a s).ev = a.ev := by
          intro hno
          have hac := hkeep hno
          subst hac
          obtain ⟨huna, hnxt, -⟩ := hin.idle hno
          apply handleWindow_quiet
          rcases (hok hstate hrst).2 hno hseq with hwnd | hopen
          · exact .inl ⟨hwnd, huna.trans hnxt.symm⟩
          · exact .inr hopen
        have hwl := Later.handleWindow a s
        obtain ⟨l, n, e, heq⟩ := handleWindow_eq a s
        rw [heq] at hdata hquiet hwl
        have hw := hin.of_later hwl rfl rfl fun hno => by
          rw [hquiet hno]
          exact (hin.idle hno).2.2
        have hwstate : a.tcb.state = .synRecvd := hsyn
        cases handleData_effect hdata with
        | ignored => exact ⟨hsyn, hw⟩
        | data _ _ hs =>
            rcases hs with hs | hs | hs <;> exact absurd (hsyn.symm.trans hs) (by decide)
        | finWait2 hs => exact absurd (hsyn.symm.trans hs) (by decide)
        | finWait1 hs => exact absurd (hsyn.symm.trans hs) (by decide)
        | closeWait hs => exact absurd (hsyn.symm.trans hs) (by decide)
    · refine .inr (.inr ?_)
      rcases hrest with ⟨-, rfl⟩ | ⟨-, hdata⟩
      · exact hdone.later (.handleOld a)
      · exact (hdone.later (.handleWindow a s)).later (.handleData hdata)

/-! ## All steps -/

theorem Handshake.step (hwf : WellFormed c) (h : Handshake c) (hlive : c.live = true)
    (hok : RegularHandshake c i) (hstep : Stepped c i c') : Handshake c' := by
  have hl := Later.stepped hstep
  have hiss : c'.tcb.iss.toNat + 1 < 2 ^ 32 := hl.iss ▸ h.iss
  by_cases hstate : c.tcb.state = .synRecvd
  swap
  · exact ⟨hiss, fun _ hs => absurd hs (hl.state hstate), fun _ => (h.done hstate).later hl⟩
  have hin := h.syn hlive hstate
  -- a deleted block stays in `SYN_RECVD`
  have hreset : c'.live = false → c'.tcb.state = .synRecvd → Handshake c' := fun hdead hsyn =>
    ⟨hiss, fun hl' => absurd (hdead.symm.trans hl') nofun, fun hs => absurd hsyn hs⟩
  have hstay : c'.tcb.state = .synRecvd → InHandshake c' → Handshake c' := fun hsyn hin' =>
    ⟨hiss, fun _ _ => hin', fun hs => absurd hsyn hs⟩
  have hfd : ∀ e ∈ c.ev.fdEventList, c.owns e = true → e.func = .handleFdDidConnect :=
    hwf.synFd hlive hstate
  cases hstep with
  | @packet s now _ htcp =>
      have hmem : s ∈ (c.receive s).trace.received :=
        List.mem_append_right _ (List.mem_singleton_self s)
      have hin' : InHandshake (c.receive s) :=
        hin.of_later (.receive c s) rfl rfl fun hno => (hin.idle hno).2.2
      rcases handleTcp_synRecvd (c := c.receive s) h.iss hstate hin' hmem hok htcp with
        ⟨hdead, hsyn⟩ | ⟨hsyn, hin⟩ | hdone
      · exact hreset hdead hsyn
      · exact hstay hsyn hin
      · exact ⟨hiss, fun _ _ => hdone.inHandshake, fun _ => hdone⟩
  | timeout he hown => exact absurd hstate (hwf.timer_state hlive he hown)
  | removed he hown => exact absurd hstate (hwf.timer_state hlive he hown)
  | canRead he hown hfunc =>
      have := hfd _ he hown
      rw [hfunc] at this
      cases this
  | canWrite he hown hfunc =>
      have := hfd _ he hown
      rw [hfunc] at this
      cases this
  | didConnect _ _ _ _ hconn _ =>
      cases hconn with
      | accepted =>
          obtain ⟨l, n, e, -, heq⟩ := tcpAccept_eq { c with map := _ }
          rw [heq] at hl hstay ⊢
          exact hstay hstate (hin.of_later hl rfl rfl nofun)
      | closed _ hclose =>
          cases hclose with
          | reset => exact hreset rfl hstate
          | fin hs => exact absurd hstate hs
  | write he hown _ hw _ =>
      cases hw with
      | syn =>
          -- the event was there, so `tcp_accept` has been called
          have haccept : c.trace.acceptCalled = true := by
            by_contra hno
            rw [(hin.idle (by simpa using hno)).2.2 _ he] at hown
            cases hown
          refine hstay hstate ⟨fun huna => (hin.una huna).later hl, fun _ => ?_, fun hno => ?_⟩
          · by_cases hnxt : c.tcb.sndNxt = c.tcb.iss
            · exact ⟨_, List.mem_append_right _ (List.mem_singleton_self _),
                by simp [makeTcpHdr, Segment.isSyn], by simp [makeTcpHdr, Segment.isAck], hnxt⟩
            · exact (hin.nxt hnxt).later hl
          · exact absurd (haccept.symm.trans hno) nofun
      | nothing hs => exact absurd hstate hs
      | segment hs => exact absurd hstate hs
  | accept =>
      obtain ⟨l, n, e, -, heq⟩ := tcpAccept_eq c
      rw [heq] at hl hstay ⊢
      exact hstay hstate (hin.of_later hl rfl rfl nofun)
  | send _ hest => rw [hstate] at hest; cases hest
  | read _ hread =>
      have hleft : rbLeft c.tcb.inbuf ≠ 0 := by
        rw [rbLeft, hwf.inSize, hwf.synIn hstate]
        decide
      have hev := tcpRead_quiet hleft hread
      obtain ⟨l, m, e, la, -, rfl⟩ := tcpRead_eq hread
      refine hstay hstate (hin.of_later hl rfl rfl fun hno => ?_)
      rw [hev]
      exact (hin.idle hno).2.2
  | close =>
      obtain ⟨ev, heq⟩ := @tcpClose_reset c _ (.inr hstate)
      rw [heq] at hreset ⊢
      exact hreset rfl hstate
  | @others ev hev =>
      refine hstay hstate (hin.of_later hl rfl rfl fun hno e he => ?_)
      refine Bool.eq_false_iff.mpr fun hown => ?_
      have hmem : e ∈ c.ev.alwaysEventList.filter c.owns :=
        hev.2.2.2 ▸ List.mem_filter.mpr ⟨he, hown⟩
      have hold := List.mem_filter.mp hmem
      rw [(hin.idle hno).2.2 e hold.1] at hold
      cases hold.2

theorem Handshake.fresh {self : ℕ} {app : TcpCallback} {isn : Uint} {ev : EventLists}
    {syn : Segment} (hev : freshAddr self ev) : InHandshake (.fresh self app isn ev syn) := by
  refine ⟨fun h => absurd rfl h, fun h => absurd rfl h, fun _ => ⟨rfl, rfl, fun e he => ?_⟩⟩
  exact Bool.eq_false_iff.mpr (List.filter_eq_nil_iff.mp (filter_owns_fresh hev).2.2 e he)

/-- `next_isn` yields multiples of 65536. -/
theorem Handshake.of_start {app : TcpCallback} (h : Start app c) : Handshake c := by
  obtain ⟨self, isn, ev, syn, hfresh, hopen⟩ := start_cases h
  have hin : InHandshake (.fresh self app isn ev syn) := Handshake.fresh hfresh
  have hiss : (nextIsn isn).toNat + 1 < 2 ^ 32 := by
    have := nextIsn_toNat isn
    omega
  cases hopen with
  | other => exact ⟨hiss, fun _ _ => hin, fun hs => absurd rfl hs⟩
  | accepted =>
      obtain ⟨l, n, e, -, heq⟩ := tcpAccept_eq { Conn.fresh self app isn ev syn with map := _ }
      rw [heq]
      have hl : Later (Conn.fresh self app isn ev syn) _ :=
        heq ▸ (Later.setMap _ _).trans (.tcpAccept _)
      exact ⟨hiss, fun _ _ => hin.of_later hl rfl rfl nofun, fun hs => absurd rfl hs⟩
  | connecting =>
      exact ⟨hiss, fun _ _ => hin.of_later (.of_eq rfl rfl rfl rfl) rfl rfl
        fun hno => (hin.idle hno).2.2, fun hs => absurd rfl hs⟩
  | failed _ hclose =>
      cases hclose with
      | reset => exact ⟨hiss, nofun, fun hs => absurd rfl hs⟩
      | fin hs => exact absurd rfl hs

/-- As long as the handshake is regular, a block has left `SYN_RECVD` only if the
application has accepted, the SYN/ACK with `iss` was sent and `iss + 1` was acknowledged. -/
theorem handshake_done_of_regular (h : Reached RegularHandshake c)
    (hstate : c.tcb.state ≠ .synRecvd) :
    c.trace.acceptCalled = true ∧
      (∃ s ∈ c.trace.sent, s.isSyn = true ∧ s.isAck = true ∧ s.seq = c.tcb.iss) ∧
      ∃ s ∈ c.trace.received, s.isAck = true ∧ s.ack = c.tcb.iss + 1 := by
  have hinv : Handshake c := h.invariant (fun _ _ => .of_start)
    fun _ _ _ hwf hinv hok hlive hstep => hinv.step hwf hlive hok hstep
  obtain ⟨haccept, hsyn, hack⟩ := hinv.done hstate
  exact ⟨haccept, hsyn, hack⟩

theorem handshake_done_of_regular_client : ∃ c, Reached RegularHandshake c ∧
    c.tcb.state ≠ .synRecvd ∧ c.trace.acceptCalled = true ∧
      (∃ s ∈ c.trace.sent, s.isSyn = true ∧ s.isAck = true ∧ s.seq = c.tcb.iss) ∧
      ∃ s ∈ c.trace.received, s.isAck = true ∧ s.ack = c.tcb.iss + 1 := by
  have hexec : (execFrom RegularHandshake .tcpMapCb 0 (clientSyn 8192) (.connected 5) handshake).any
      (fun c => c.tcb.state ≠ .synRecvd) = true := by
    decide +kernel
  obtain ⟨c, hreach, hc⟩ := reached_of_exec hexec
  have hstate := of_decide_eq_true hc
  exact ⟨c, hreach, hstate, handshake_done_of_regular hreach hstate⟩

/-- While the IPv4 side is still connecting, one segment with the ACK flag and any number up
to `iss` establishes the connection: nothing has been accepted, sent or acknowledged. -/
theorem early_ack_establishes : ∃ c, Reached Transition.Always c ∧ c.live = true ∧
    c.tcb.state = .established ∧ c.trace.acceptCalled = false ∧ c.trace.sent = [] ∧
      ∀ s ∈ c.trace.received, ¬(s.isAck = true ∧ s.ack = c.tcb.iss + 1) := by
  have hexec : (execFrom Transition.Always .tcpMapCb 0 (clientSyn 8192) (.inProgress 5)
      [client 1001 0 0x10 8192 []]).any
      (fun c => c.live = true ∧ c.tcb.state = .established ∧ c.trace.acceptCalled = false ∧
        c.trace.sent = [] ∧
        ∀ s ∈ c.trace.received, ¬(s.isAck = true ∧ s.ack = c.tcb.iss + 1)) = true := by
    decide +kernel
  obtain ⟨c, hreach, hc⟩ := reached_of_exec hexec
  exact ⟨c, hreach, of_decide_eq_true hc⟩

end Ptrtd
