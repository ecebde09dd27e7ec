import Ptrtd.Verification.Send.Window
import Ptrtd.Verification.Timer.Estimate

/-! # Samples of the round-trip time

`handle_tcp` takes a sample when the measured byte is newly acknowledged. Nothing else changes the
estimate, so that it keeps to the bounds of the samples throughout a run. -/

namespace Ptrtd

variable {c c' : Conn} {i : Input} {s : Segment} {now : Timeval} {M : ℕ}

/-- Everything about a block that concerns the measurement of round-trip times. -/
structure Meter where
  mark : Uint
  limit : Uint
  time : Timeval
  estimate : Estimate
  deriving DecidableEq, Repr

def Tcb.meter (t : Tcb) : Meter :=
  { mark := t.rttMark, limit := t.rttLimit, time := t.rttTime, estimate := t.estimate }

/-- `handle_tcp` takes a sample for the segment. -/
def Samples (c : Conn) (s : Segment) : Prop :=
  s.isRst = false ∧ s.isAck = true ∧ c.tcb.sndUna < s.ack ∧
    c.tcb.sndUna ≤ c.tcb.rttMark ∧ c.tcb.rttMark < s.ack

instance (c : Conn) (s : Segment) : Decidable (Samples c s) :=
  inferInstanceAs (Decidable (_ ∧ _ ∧ _))

/-- The meter with the sample for the segment, if there is one. -/
def sampled (c : Conn) (s : Segment) (now : Timeval) : Meter :=
  { c.tcb.meter with
    estimate := if Samples c s then c.tcb.estimate.sample (timeAgo now c.tcb.rttTime)
      else c.tcb.estimate }

theorem sampled_of_not (h : ¬Samples c s) : sampled c s now = c.tcb.meter := by
  rw [sampled, if_neg h]
  rfl

/-! ## The arithmetic of the code -/

theorem srttExpr_value (diff srtt : ℤ) : (srttExpr diff srtt).value =
    if srtt > 0 then (2 * diff + 8 * srtt + 5).tdiv 10 else diff := by
  rw [srttExpr]
  split <;> rfl

theorem sdevExpr_value (diff srtt sdev : ℤ) : (sdevExpr diff srtt sdev).value =
    if diff > srtt then (75 * sdev + 25 * (diff - srtt) + 50).tdiv 100
    else (75 * sdev + 25 * (srtt - diff) + 50).tdiv 100 := by
  rw [sdevExpr]
  split <;> rfl

/-- The two assignments of `handle_tcp`. -/
theorem sampleRtt_estimate (t : Tcb) (now : Timeval) :
    (sampleRtt t now).estimate = t.estimate.sample (timeAgo now t.rttTime) := by
  rw [Estimate.sample]
  simp only [srttExpr_value, sdevExpr_value]
  rfl

/-- `m` of `set_timeout`. -/
theorem timeoutDelay_estimate (t : Tcb) : timeoutDelay t = t.estimate.timeout := rfl

/-! ## Segments -/

theorem ackUna_meter (t : Tcb) (ack : Uint) (now : Timeval) : (ackUna t ack now).meter =
    { t.meter with
      estimate := if t.sndUna ≤ t.rttMark ∧ t.rttMark < ack
        then t.estimate.sample (timeAgo now t.rttTime) else t.estimate } := by
  rw [← sampleRtt_estimate, ackUna]
  split <;> rfl

theorem handleNewAck_meter {ack : Uint} (h : handleNewAck c ack now = some c') :
    c'.tcb.meter = (ackUna c.tcb ack now).meter := by
  rw [handleNewAck] at h
  dsimp only at h
  split at h
  · obtain ⟨a, ha, rfl⟩ := Option.map_eq_some_iff.mp h
    obtain ⟨-, m, l, n, -, rfl⟩ := cbOutputBufferSpace_change ha
    obtain ⟨l', n', e, k, w, heq⟩ := ackTimer_eq _ ack now
    rw [heq]
    rfl
  iterate 3
    · cases h
      obtain ⟨l', n', e, k, w, heq⟩ := ackTimer_eq _ ack now
      rw [heq]
      rfl
  · cases h
    rfl

theorem handleAllAcked_meter {f : Flow} (h : handleAllAcked c now = some f) :
    f.conn.tcb.meter = c.tcb.meter := by
  cases handleAllAcked_effect h with
  | opened _ _ hchange =>
      obtain ⟨m, l, n, -, rfl⟩ := hchange
      rfl
  | bothClosed =>
      obtain ⟨l, n, e, heq⟩ := enterTimeWait_eq c now
      rw [Flow.conn, heq]
      rfl
  | deleted | finAcked | stillClosing | other => rfl

theorem handleAck_meter {f : Flow} (hrst : s.isRst = false) (h : handleAck c s now = some f) :
    f.conn.tcb.meter = sampled c s now := by
  rcases handleAck_cases h with ⟨hno, rfl⟩ | ⟨hack, a, hnew, hall⟩
  · refine (sampled_of_not fun hs => ?_).symm
    rw [hs.2.1] at hno
    cases hno
  · have ha : a.tcb.meter = sampled c s now := by
      rcases hnew with ⟨hlt, hnew⟩ | ⟨hnot, rfl⟩
      · rw [handleNewAck_meter hnew, ackUna_meter, sampled]
        have hiff : Samples c s ↔ c.tcb.sndUna ≤ c.tcb.rttMark ∧ c.tcb.rttMark < s.ack :=
          ⟨fun hs => hs.2.2.2, fun hs => ⟨hrst, hack, hlt, hs⟩⟩
        simp only [hiff]
      · exact (sampled_of_not fun hs => hnot hs.2.2.1).symm
    rcases hall with ⟨-, hall⟩ | ⟨-, rfl⟩
    · rw [handleAllAcked_meter hall, ha]
    · exact ha

theorem handleData_meter (h : handleData c s now = some c') : c'.tcb.meter = c.tcb.meter := by
  cases handleData_effect h with
  | ignored => rfl
  | data _ hrecv _ =>
      obtain ⟨-, m, ev, e, r, w, x, -, -, -, rfl⟩ := tcpRecvData_eq hrecv
      rfl
  | finWait2 _ hrecv =>
      obtain ⟨-, m, ev, e, r, w, x, -, -, -, rfl⟩ := tcpRecvData_eq hrecv
      rfl
  | finWait1 _ hrecv =>
      obtain ⟨-, m, ev, e, r, w, x, -, -, -, rfl⟩ := tcpRecvData_eq hrecv
      rfl
  | closeWait _ _ hrecv hclose =>
      obtain ⟨-, m, ev, e, r, w, x, -, -, -, rfl⟩ := tcpRecvData_eq hrecv
      obtain ⟨m, ev, e, b, -, -, -, -, rfl⟩ := tcpRemoteClose_eq rfl hclose
      rfl

/-- A segment takes a sample or leaves the measurement alone. -/
theorem handleTcp_meter (h : handleTcp (c.receive s) s now = some c') :
    c'.tcb.meter = sampled c s now := by
  have hsame : sampled (c.receive s) s now = sampled c s now := rfl
  rcases handleTcp_cases h with ⟨hrst, h⟩ | ⟨hrst, hdone⟩ | ⟨hrst, a, hnext, hrest⟩
  · obtain ⟨m, ev, b, -, -, rfl⟩ := handleRst_eq h
    refine (sampled_of_not fun hs => ?_).symm
    rw [hs.1] at hrst
    cases hrst
  · rw [← hsame]
    exact handleAck_meter hrst hdone
  · have ha : a.tcb.meter = sampled c s now := handleAck_meter hrst hnext
    rw [← ha]
    rcases hrest with ⟨-, rfl⟩ | ⟨-, hdata⟩
    · obtain ⟨l, n, e, la, heq⟩ := handleOld_eq a
      rw [heq]
      rfl
    · obtain ⟨l, n, e, heq⟩ := handleWindow_eq a s
      rw [handleData_meter hdata, heq]
      rfl

/-! ## All steps -/

theorem tcpClose_estimate (c : Conn) (hard : Bool) :
    (tcpClose c hard).tcb.estimate = c.tcb.estimate := by
  generalize hclosed : tcpClose c hard = a
  cases tcpClose_cases hclosed <;> rfl

theorem closedBoth_estimate {m : Option TcpMap} (h : ClosedBoth { c with map := m } c') :
    c'.tcb.estimate = c.tcb.estimate := by
  cases h <;> rfl

theorem tcpRead_estimate {len : ℤ} {d : List Uchar} (h : tcpRead c len = some (c', d)) :
    c'.tcb.estimate = c.tcb.estimate := by
  obtain ⟨l, n, e, la, -, rfl⟩ := tcpRead_eq h
  rfl

theorem tcpSend_estimate {d : List Uchar} (h : tcpSend c d = some c') :
    c'.tcb.estimate = c.tcb.estimate := by
  obtain ⟨r, k, l, n, e, -, rfl⟩ := tcpSend_eq h
  rfl

theorem tcpAccept_estimate (c : Conn) : (tcpAccept c).tcb.estimate = c.tcb.estimate := by
  obtain ⟨l, n, e, -, heq⟩ := tcpAccept_eq c
  rw [heq]
  rfl

/-- What an input makes of the estimate. -/
def estimateAfter (c : Conn) : Input → Estimate
  | .packet s now => (sampled c s now).estimate
  | _ => c.tcb.estimate

theorem stepped_estimate (h : Stepped c i c') : c'.tcb.estimate = estimateAfter c i := by
  cases h with
  | packet htcp => exact congrArg Meter.estimate (handleTcp_meter htcp)
  | timeout =>
      obtain ⟨l, n, e, w, -, -, -, heq⟩ := tcpTimeout_eq c
      rw [heq]
      rfl
  | removed => rfl
  | canRead _ _ _ _ hread _ =>
      cases hread with
      | nothing => rfl
      | closed _ hclose =>
          have heq := closedBoth_estimate hclose
          exact heq
      | sent _ _ hsend _ =>
          have heq := tcpSend_estimate hsend
          exact heq
  | canWrite _ _ _ _ hwrite _ =>
      cases hwrite with
      | again _ hread _ =>
          have heq := tcpRead_estimate hread
          exact heq
      | closed _ hread hclose =>
          have heq := (closedBoth_estimate hclose).trans (tcpRead_estimate hread)
          exact heq
      | wrote _ _ _ hread _ =>
          have heq := tcpRead_estimate hread
          exact heq
  | didConnect _ _ _ _ hconn _ =>
      cases hconn with
      | @accepted m =>
          have heq := tcpAccept_estimate { c with map := m }
          exact heq
      | closed _ hclose =>
          have heq := closedBoth_estimate hclose
          exact heq
  | @write e now _ _ _ _ _ _ hw _ =>
      cases hw with
      | syn | nothing => rfl
      | @segment data a e _ _ ha _ =>
          obtain ⟨l, n, e', k, m, r, w, la, heq⟩ :=
            emitSegment_eq c data (finDue c.tcb data.length) now
          rw [ha, heq]
          rfl
  | accept => exact tcpAccept_estimate c
  | send _ _ _ hsend => exact tcpSend_estimate hsend
  | read _ hread => exact tcpRead_estimate hread
  | close => exact tcpClose_estimate c _
  | others => rfl

/-- The samples are at most `M` milliseconds, forward or back. -/
def SamplesWithin (M : ℕ) (c : Conn) : Input → Prop
  | .packet s now => Samples c s →
      -(M : ℤ) ≤ timeAgo now c.tcb.rttTime ∧ timeAgo now c.tcb.rttTime ≤ M
  | _ => True

theorem start_estimate {app : TcpCallback} (h : Start app c) : c.tcb.estimate = ⟨0, 0⟩ := by
  obtain ⟨self, isn, ev, syn, -, hopen⟩ := start_cases h
  cases hopen with
  | other => rfl
  | accepted => exact tcpAccept_estimate _
  | connecting => rfl
  | failed _ hclose => exact closedBoth_estimate hclose

/-- In every run the estimate keeps to the bound of its samples, and with it the delay of every
timer that is started. -/
theorem Estimate.bounded_of_reached (hM : 200 * M + 50 ≤ 2 ^ 31 - 1)
    (h : Reached (SamplesWithin M) c) : c.tcb.estimate.Bounded M ∧
      (timeoutExpr c.tcb.estimate).Fits ∧ 500 ≤ timeoutDelay c.tcb ∧
        timeoutDelay c.tcb ≤ 30000 := by
  have hbounded : c.tcb.estimate.Bounded M := by
    apply h.invariant
    · intro app c₀ hs
      rw [start_estimate hs]
      exact ⟨by simp, by simp, le_rfl, by simp⟩
    · intro c i c' _ hinv hok _ hstep
      rw [stepped_estimate hstep]
      cases i with
      | packet s now =>
          by_cases hs : Samples c s
          · obtain ⟨hlo, hhi⟩ := hok hs
            have hnext := (hinv.sample hM hlo hhi).1
            rwa [estimateAfter, sampled, if_pos hs]
          · rw [estimateAfter, sampled_of_not hs]
            exact hinv
      | timeEvent | fdEvent | alwaysEvent | call | others => exact hinv
  refine ⟨hbounded, hbounded.timeoutFits hM, ?_⟩
  rw [timeoutDelay_estimate]
  exact c.tcb.estimate.timeout_bounds

end Ptrtd
