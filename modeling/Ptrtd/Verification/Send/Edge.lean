import Ptrtd.Verification.Send.Window

/-! # The right edge of the peer's window

The peer announces a right edge with every segment: its ACK number plus its window. The
daemon keeps `snd_una` and the last window apart, and counts the window from `snd_una`. When
the two come from different segments, the edge it sends up to is one that the peer never
announced. -/

namespace Ptrtd

variable {c c' : Conn} {i : Input} {s : Segment}

/-- The right window edge that a segment announces; the SYN counts from `iss + 1`, and a
segment with neither SYN nor ACK announces none. -/
def Segment.edge (iss : Uint) (s : Segment) : ℕ :=
  if s.isAck then s.ack.toNat + s.wnd.toNat
  else if s.isSyn then iss.toNat + 1 + s.wnd.toNat
  else 0

/-- The largest right window edge among some segments. -/
def maxEdge (iss : Uint) (received : List Segment) : ℕ :=
  (received.map (Segment.edge iss)).foldr max 0

/-- The largest right window edge that the peer has announced so far. -/
def rightEdge (c : Conn) : ℕ := maxEdge c.tcb.iss c.trace.received

/-- Wherever a window is set, counting it from `snd_una` does not lead beyond the largest edge:
neither when it is taken over from a segment, nor when a timeout cuts it to one segment. -/
def EdgeKept (c : Conn) : Input → Prop
  | .packet s _ => TakesWindow c s →
      (c.outlet.ack s).una.toNat + s.wnd.toNat ≤ max (rightEdge c) (s.edge c.tcb.iss)
  | .timeEvent addr => RunsTimeout c addr →
      c.tcb.sndUna.toNat + min c.tcb.mss.toNat c.tcb.sndWnd.toNat ≤ rightEdge c
  | _ => True

instance (c : Conn) : (i : Input) → Decidable (EdgeKept c i)
  | .packet _ _ | .timeEvent _ => inferInstanceAs (Decidable (_ → _))
  | .fdEvent _ _ | .alwaysEvent _ _ | .call _ | .others _ => isTrue trivial

/-- The condition on a run: the peer acknowledges what was sent, and windows stay below the
largest edge. -/
def WithinEdge (c : Conn) (i : Input) : Prop := SentOnly c i ∧ EdgeKept c i

instance (c : Conn) (i : Input) : Decidable (WithinEdge c i) :=
  inferInstanceAs (Decidable (_ ∧ _))

theorem edge_le_maxEdge {iss : Uint} {l : List Segment} (h : s ∈ l) :
    s.edge iss ≤ maxEdge iss l := by
  induction l with
  | nil => cases h
  | cons x rest ih =>
      have hcons : maxEdge iss (x :: rest) = max (x.edge iss) (maxEdge iss rest) := rfl
      rw [hcons]
      rcases List.mem_cons.mp h with rfl | hrest
      · exact le_max_left _ _
      · exact (ih hrest).trans (le_max_right _ _)

theorem maxEdge_le {iss : Uint} {l : List Segment} {k : ℕ} (h : ∀ s ∈ l, s.edge iss ≤ k) :
    maxEdge iss l ≤ k := by
  induction l with
  | nil => exact Nat.zero_le k
  | cons x rest ih =>
      have hcons : maxEdge iss (x :: rest) = max (x.edge iss) (maxEdge iss rest) := rfl
      rw [hcons]
      exact max_le (h x (by simp)) (ih fun s hs => h s (by simp [hs]))

/-- The largest edge only grows. -/
theorem rightEdge_mono (h : Later c c') : rightEdge c ≤ rightEdge c' := by
  rw [rightEdge, rightEdge, h.iss]
  exact maxEdge_le fun s hs => edge_le_maxEdge (h.received s hs)

/-- What is sent ends below the largest edge: `snd_max` does not lie beyond it. -/
def Edged (c : Conn) : Prop :=
  c.live = true → ∃ b w u n, Windowed c b w u n ∧ c.tcb.iss.toNat + b + w ≤ rightEdge c

theorem Edged.stepped (h : Edged c) (hwf : WellFormed c) (hqueue : Queued c)
    (honce : AcceptOnce c) (hok : WithinEdge c i) (hlive : c.live = true)
    (hstep : Stepped c i c') : Edged c' := by
  intro hlive'
  obtain ⟨b, w, u, n, hw, hedge⟩ := h hlive
  have hlater := Later.stepped hstep
  have hmono := rightEdge_mono hlater
  obtain ⟨b', w', u', n', hw', hset⟩ := hw.stepped hwf hqueue honce hok.1 hlive hlive' hstep
  refine ⟨b', w', u', n', hw', ?_⟩
  rw [hlater.iss]
  rcases hset with ⟨rfl, rfl⟩ | hopens
  · omega
  · cases i with
    | packet s now =>
        obtain ⟨htakes, huna, hle⟩ := hopens
        have hkept := hok.2 htakes
        have hnew : s.edge c.tcb.iss ≤ rightEdge c' := by
          rw [← hlater.iss]
          refine edge_le_maxEdge ?_
          cases hstep with
          | packet htcp =>
              exact (Later.handleTcp htcp).received s (List.mem_append_right _ (by simp))
        omega
    | timeEvent addr =>
        obtain ⟨hruns, huna, hle⟩ := hopens
        have hkept := hok.2 hruns
        omega
    | fdEvent | alwaysEvent | call | others => exact hopens.elim

theorem Edged.of_start {app : TcpCallback} (h : Start app c) : Edged c := by
  intro hlive
  obtain ⟨w, syn, hle, hflags, hreceived, hw⟩ := Windowed.of_start h hlive
  refine ⟨0, w, 0, 0, hw, ?_⟩
  have hedge : syn.edge c.tcb.iss = c.tcb.iss.toNat + 1 + syn.wnd.toNat := by
    simp [Segment.edge, Segment.isAck, Segment.isSyn, hflags]
  have hmem : syn.edge c.tcb.iss ≤ rightEdge c := edge_le_maxEdge (by simp [hreceived])
  omega

theorem Edged.of_reached (h : Reached WithinEdge c) : Edged c := by
  have hinv : Queued c ∧ AcceptOnce c ∧ Edged c := by
    apply h.run_invariant
    · exact fun _ _ hs => ⟨.of_start hs, .of_start hs, .of_start hs⟩
    · intro c i c' hwf ⟨hqueue, honce, hedged⟩ hok hstep
      obtain ⟨hlive, hstepped⟩ := step_cases hstep
      exact ⟨hqueue.step hstep, honce.step hwf hstep,
        hedged.stepped hwf hqueue honce hok hlive hstepped⟩
  exact hinv.2.2

/-- Outside `do_tcb_write` at most a reset is sent. -/
theorem Outlet.Step.sent_other {o o' : Outlet} (h : o.Step i o')
    (hi : ∀ addr now, i ≠ .alwaysEvent addr now) :
    o'.sent = o.sent ∨ ∃ s, o'.sent = o.sent ++ [s] ∧ s.data = [] ∧ s.isFin = false := by
  cases h with
  | packet _ hsettled hmoved =>
      obtain ⟨b, st, una, nxt, buf, rfl⟩ := packet_eq hsettled hmoved
      exact .inl rfl
  | synAck | segment => exact absurd rfl (hi _ _)
  | @abort _ s _ _ hdata hflags =>
      exact .inr ⟨s, rfl, hdata, by simp [Segment.isFin, hflags]⟩
  | quiet | removed | reset | timeout | write | close => exact .inl rfl

/-- A segment with data or FIN is emitted by `tcp_send_and_ack`, and it ends below `snd_max`. -/
theorem Windowed.emitted_le {b w u n : ℕ} {addr : ℕ} {now : Timeval}
    (h : Windowed c b w u n) (hspace : InSpace c) (hstep : Stepped c (.alwaysEvent addr now) c')
    (hsent : c'.trace.sent = c.trace.sent ++ [s]) (hcarries : s.data ≠ [] ∨ s.isFin = true) :
    s.seq.toNat + s.span ≤ c.tcb.iss.toNat + b + w := by
  have hsize := h.sent
  have hspace' : c.tcb.iss.toNat + c.trace.high < 2 ^ 32 := hspace
  have hnxt : c.tcb.sndNxt.toNat = c.tcb.iss.toNat + n := h.nxt.toNat_eq (by omega)
  cases hstep with
  | write _ _ _ hw _ =>
      cases hw with
      | syn =>
          have hs := List.append_cancel_left hsent
          obtain rfl := List.singleton_inj.mp hs
          rcases hcarries with hdata | hfin
          · exact absurd rfl hdata
          · simp [Segment.isFin, makeTcpHdr] at hfin
      | nothing => simp at hsent
      | @segment d x e hpast hdata hx _ =>
          obtain ⟨l, m, e', k, r, q, v, la, heq⟩ := emitSegment_eq c d (finDue c.tcb d.length) now
          rw [heq] at hx
          subst hx
          have hs := List.append_cancel_left hsent
          obtain rfl := List.singleton_inj.mp hs
          have hend := h.segment_le hdata
          rw [Outlet.span_of_sendFlags rfl]
          have hpos : 0 < d.length + (if finDue c.tcb d.length then 1 else 0) := by
            rcases hcarries with hne | hfin
            · have hlen : 0 < d.length := List.length_pos_of_ne_nil hne
              omega
            · rw [Outlet.isFin_of_sendFlags rfl] at hfin
              rw [if_pos hfin]
              omega
          dsimp only
          omega

/-- Everything that is sent lies below the largest right edge that the peer has announced, in
every run in which no window is counted from an ACK number that it did not come with so as to
reach beyond it. -/
theorem below_edge_of_withinEdge (h : Reached WithinEdge c) (hok : SentOnly c i)
    (hstep : step c i = some c') (hsent : c'.trace.sent = c.trace.sent ++ [s])
    (hcarries : s.data ≠ [] ∨ s.isFin = true) : s.seq.toNat + s.span ≤ rightEdge c := by
  obtain ⟨hlive, hstepped⟩ := step_cases hstep
  obtain ⟨b, w, u, n, hw, hedge⟩ := Edged.of_reached h hlive
  have htimer : TimerOk False c := h.invariant (fun _ _ => .of_start)
    fun _ _ _ hwf hinv _ hl hs => hinv.stepped hwf hl False.elim hs
  have hout := step_outlet (.of_reached h) htimer hlive hstepped
  have hsent' : c'.outlet.sent = c.outlet.sent ++ [s] := hsent
  -- only the write event sends data or a FIN
  cases i with
  | alwaysEvent addr now =>
      exact (hw.emitted_le hok hstepped hsent hcarries).trans hedge
  | packet | timeEvent | fdEvent | call | others =>
      rcases hout.sent_other (by nofun) with hsame | ⟨s', hs', hdata, hfin⟩
      · rw [hsame] at hsent'
        simp at hsent'
      · obtain rfl := List.singleton_inj.mp (List.append_cancel_left (hs'.symm.trans hsent'))
        rcases hcarries with hne | hf
        · exact absurd hdata hne
        · rw [hfin] at hf
          cases hf

/-- A byte sent into a window of one byte. -/
theorem below_edge_of_withinEdge_byte : ∃ c c' s, Reached WithinEdge c ∧
    step c (.alwaysEvent 2 ⟨0, 0⟩) = some c' ∧ c'.trace.sent = c.trace.sent ++ [s] ∧
      s.data = [7] ∧ s.seq.toNat + s.span ≤ rightEdge c := by
  have hexec : (execFrom WithinEdge .tcpMapCb 0 (clientSyn 1) (.connected 5)
      [.alwaysEvent 0 ⟨0, 0⟩, client 1001 0x10001 0x10 1 [], .fdEvent 1 (.read (.data [7]))]).any
      (fun c => SentOnly c (.alwaysEvent 2 ⟨0, 0⟩) ∧ (step c (.alwaysEvent 2 ⟨0, 0⟩)).any
        (fun c' => c'.trace.sent.getLast?.any (fun s =>
          c'.trace.sent = c.trace.sent ++ [s] ∧ s.data = [7]))) = true := by
    decide +kernel
  obtain ⟨c, hreach, hc⟩ := reached_of_exec hexec
  obtain ⟨hok, hnext⟩ := of_decide_eq_true hc
  obtain ⟨c', hstep, hc'⟩ := (Option.any_eq_true _ _).mp hnext
  obtain ⟨s, -, hs⟩ := (Option.any_eq_true _ _).mp hc'
  obtain ⟨hsent, hdata⟩ := of_decide_eq_true hs
  exact ⟨c, c', s, hreach, hstep, hsent, hdata,
    below_edge_of_withinEdge hreach hok hstep hsent (.inl (by rw [hdata]; nofun))⟩

/-- The peer acknowledges the first byte with a closed window, and its previous ACK, which
offered one byte, arrives after that: the second byte is sent beyond both edges. -/
theorem beyond_edge_after_reordering : ∃ c c' s, Reached SentOnly c ∧
    SentOnly c (.alwaysEvent 4 ⟨0, 0⟩) ∧ step c (.alwaysEvent 4 ⟨0, 0⟩) = some c' ∧
      c'.trace.sent = c.trace.sent ++ [s] ∧ s.data = [8] ∧ rightEdge c < s.seq.toNat + s.span := by
  have hexec : (execFrom SentOnly .tcpMapCb 0 (clientSyn 1) (.connected 5)
      [.alwaysEvent 0 ⟨0, 0⟩, client 1001 0x10001 0x10 1 [], .fdEvent 1 (.read (.data [7])),
        .alwaysEvent 2 ⟨0, 0⟩, client 1001 0x10002 0x10 0 [], .fdEvent 1 (.read (.data [8])),
        client 1001 0x10001 0x10 1 []]).any
      (fun c => SentOnly c (.alwaysEvent 4 ⟨0, 0⟩) ∧ (step c (.alwaysEvent 4 ⟨0, 0⟩)).any
        (fun c' => c'.trace.sent.getLast?.any (fun s =>
          c'.trace.sent = c.trace.sent ++ [s] ∧ s.data = [8] ∧
            rightEdge c < s.seq.toNat + s.span))) = true := by
    decide +kernel
  obtain ⟨c, hreach, hc⟩ := reached_of_exec hexec
  obtain ⟨hok, hnext⟩ := of_decide_eq_true hc
  obtain ⟨c', hstep, hc'⟩ := (Option.any_eq_true _ _).mp hnext
  obtain ⟨s, -, hs⟩ := (Option.any_eq_true _ _).mp hc'
  obtain ⟨hsent, hdata, hbeyond⟩ := of_decide_eq_true hs
  exact ⟨c, c', s, hreach, hok, hstep, hsent, hdata, hbeyond⟩

end Ptrtd
