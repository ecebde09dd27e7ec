import Ptrtd.Verification.Send.Limits
import Ptrtd.Verification.Timer.Sample

/-! # What is measured

A measurement starts with a segment that begins where nothing has been sent before. While it runs,
`snd_nxt` does not go back, so that the measured byte is not sent again; a timeout ends it. -/

namespace Ptrtd

variable {c c' : Conn} {i : Input} {s : Segment} {now : Timeval} {b w u n k : ℕ} {m : Uint}

/-! ## The log of a run -/

/-- The time that an input reads from the clock. -/
def Input.clock : Input → Option Timeval
  | .packet _ now => some now
  | .alwaysEvent _ now => some now
  | _ => none

/-- A connection with everything it has sent, and when. -/
structure Logged where
  conn : Conn
  log : List (Segment × Option Timeval)

def Logged.start (c : Conn) : Logged := { conn := c, log := c.trace.sent.map fun s => (s, none) }

/-- The segments that a step has handed to `send_pkt`. -/
def newlySent (c c' : Conn) : List Segment := c'.trace.sent.drop c.trace.sent.length

def loggedStep (x : Logged) (i : Input) : Option Logged :=
  (step x.conn i).map fun c =>
    { conn := c, log := x.log ++ (newlySent x.conn c).map fun s => (s, i.clock) }

/-- The sequence number is one of those that the segment takes. -/
def Segment.carries (s : Segment) (m : Uint) : Bool :=
  decide (s.seq.toNat ≤ m.toNat) && decide (m.toNat < s.seq.toNat + s.span)

/-- The entries of a log that carry a sequence number. -/
def carriers (log : List (Segment × Option Timeval)) (m : Uint) : List (Segment × Option Timeval) :=
  log.filter fun e => e.1.carries m

theorem carries_iff : s.carries m = true ↔
    s.seq.toNat ≤ m.toNat ∧ m.toNat < s.seq.toNat + s.span := by
  simp [Segment.carries]

/-! ## The invariant -/

/-- The measured byte has been sent once, by the segment that started the measurement. -/
def SentOnce (c : Conn) (log : List (Segment × Option Timeval)) : Prop :=
  ∃ s, carriers log c.tcb.rttMark = [(s, some c.tcb.rttTime)] ∧ s.seq = c.tcb.rttMark ∧ s.data ≠ []

/-- Nothing has been sent beyond `rtt_limit` or `snd_una`, in the handshake beyond `snd_nxt`; and
a byte that is being measured has been sent once. The mark before sequence number 0 is the last
one, which is never acknowledged. -/
structure Measured (c : Conn) (log : List (Segment × Option Timeval)) : Prop where
  sent : log.map Prod.fst = c.trace.sent
  opening : c.tcb.state = .synRecvd → ∀ s ∈ c.trace.sent,
    s.seq.toNat + s.span ≤ c.tcb.sndNxt.toNat
  past : c.tcb.state ≠ .synRecvd → ∀ s ∈ c.trace.sent,
    s.seq.toNat + s.span ≤ max c.tcb.rttLimit.toNat c.tcb.sndUna.toNat
  mark : c.tcb.sndUna ≤ c.tcb.rttMark → c.tcb.rttMark = BitVec.allOnes 32 ∨
    c.tcb.rttMark < c.tcb.sndNxt ∧ SentOnce c log

variable {log : List (Segment × Option Timeval)}

/-- Nothing is sent, and `snd_una` and `snd_nxt` do not go back. -/
theorem Measured.mono (h : Measured c log) (hsent : c'.trace.sent = c.trace.sent)
    (hmark : c'.tcb.rttMark = c.tcb.rttMark) (hlimit : c'.tcb.rttLimit = c.tcb.rttLimit)
    (htime : c'.tcb.rttTime = c.tcb.rttTime) (huna : c.tcb.sndUna ≤ c'.tcb.sndUna)
    (hnxt : c.tcb.sndNxt ≤ c'.tcb.sndNxt)
    (hsyn : c'.tcb.state = .synRecvd → c.tcb.state = .synRecvd)
    (hopen : c.tcb.state = .synRecvd → c'.tcb.state ≠ .synRecvd → c'.tcb.sndUna = c'.tcb.sndNxt) :
    Measured c' log := by
  have huna' := BitVec.le_def.mp huna
  have hnxt' := BitVec.le_def.mp hnxt
  refine ⟨by rw [hsent, h.sent], fun hs x hx => ?_, fun hs x hx => ?_, fun hle => ?_⟩
  · rw [hsent] at hx
    exact (h.opening (hsyn hs) x hx).trans hnxt'
  · rw [hsent] at hx
    by_cases hold : c.tcb.state = .synRecvd
    · have hend := h.opening hold x hx
      rw [hopen hold hs]
      omega
    · have hend := h.past hold x hx
      rw [hlimit]
      omega
  · rw [hmark] at hle ⊢
    refine (h.mark (BitVec.le_trans huna hle)).imp_right fun ⟨hlt, honce⟩ => ⟨?_, ?_⟩
    · exact BitVec.lt_def.mpr ((BitVec.lt_def.mp hlt).trans_le hnxt')
    · rwa [SentOnce, hmark, htime]

theorem Measured.of_eq (h : Measured c log) (hsent : c'.trace.sent = c.trace.sent)
    (hmeter : c'.tcb.meter = c.tcb.meter) (huna : c'.tcb.sndUna = c.tcb.sndUna)
    (hnxt : c'.tcb.sndNxt = c.tcb.sndNxt)
    (hstate : c'.tcb.state = .synRecvd ↔ c.tcb.state = .synRecvd) : Measured c' log :=
  h.mono hsent (congrArg Meter.mark hmeter) (congrArg Meter.limit hmeter)
    (congrArg Meter.time hmeter) (huna ▸ BitVec.le_refl _) (hnxt ▸ BitVec.le_refl _) hstate.mp
    fun hs hs' => absurd (hstate.mpr hs) hs'

/-! ## Sending -/

theorem carriers_append (l l' : List (Segment × Option Timeval)) (m : Uint) :
    carriers (l ++ l') m = carriers l m ++ carriers l' m := List.filter_append ..

/-- A segment that begins behind the mark does not carry it. -/
theorem carriers_snoc {t : Option Timeval} (h : m.toNat < s.seq.toNat) :
    carriers (log ++ [(s, t)]) m = carriers log m := by
  have hnot : s.carries m = false := by
    rw [← Bool.not_eq_true, carries_iff]
    omega
  rw [carriers_append, carriers, carriers, List.filter_singleton, hnot]
  simp

/-- The first segment that carries a sequence number. -/
theorem carriers_first {t : Option Timeval} (hpast : ∀ e ∈ log, e.1.seq.toNat + e.1.span ≤ m.toNat)
    (hseq : s.seq = m) (hspan : 0 < s.span) : carriers (log ++ [(s, t)]) m = [(s, t)] := by
  have hnone : carriers log m = [] := by
    refine List.filter_eq_nil_iff.mpr fun e he hcarries => ?_
    have hend := hpast e he
    have := (carries_iff.mp hcarries).2
    omega
  have hyes : s.carries m = true := by
    rw [carries_iff, hseq]
    omega
  rw [carriers_append, hnone, carriers, List.filter_singleton, hyes]
  rfl

/-- A segment is sent from `snd_nxt` on. It may start a measurement when nothing has been sent
from there on. -/
theorem Measured.emit (h : Measured c log) (hsent : c'.trace.sent = c.trace.sent ++ [s])
    (hseq : s.seq = c.tcb.sndNxt) (hnxt : c'.tcb.sndNxt.toNat = c.tcb.sndNxt.toNat + s.span)
    (huna : c'.tcb.sndUna = c.tcb.sndUna) (hstate : c'.tcb.state = c.tcb.state)
    (hlimit : c.tcb.rttLimit.toNat ≤ c'.tcb.rttLimit.toNat)
    (hend : c.tcb.state ≠ .synRecvd → c'.tcb.sndNxt.toNat ≤ c'.tcb.rttLimit.toNat)
    (hmark : c'.tcb.rttMark = c.tcb.rttMark ∧ c'.tcb.rttTime = c.tcb.rttTime ∨
      c.tcb.state ≠ .synRecvd ∧ s.data ≠ [] ∧ c.tcb.rttLimit ≤ c.tcb.sndNxt ∧
        c.tcb.sndUna ≤ c.tcb.sndNxt ∧ c'.tcb.rttMark = c.tcb.sndNxt ∧ c'.tcb.rttTime = now) :
    Measured c' (log ++ [(s, some now)]) := by
  refine ⟨?_, fun hs x hx => ?_, fun hs x hx => ?_, fun hle => ?_⟩
  · rw [List.map_append, h.sent, hsent]
    rfl
  · rw [hstate] at hs
    rw [hsent] at hx
    rcases List.mem_append.mp hx with hx | hx
    · have hold := h.opening hs x hx
      omega
    · rw [List.mem_singleton.mp hx, hseq, hnxt]
  · rw [hstate] at hs
    rw [hsent] at hx
    have hend := hend hs
    rcases List.mem_append.mp hx with hx | hx
    · have hold := h.past hs x hx
      rw [huna]
      omega
    · rw [List.mem_singleton.mp hx, hseq, ← hnxt]
      omega
  · rcases hmark with ⟨hmark, htime⟩ | ⟨hpast, hdata, hlim, hfront, hmark, htime⟩
    · rw [huna, hmark] at hle
      rw [hmark]
      refine (h.mark hle).imp_right fun ⟨hlt, x, hx, hxseq, hxdata⟩ => ?_
      have hlt' := BitVec.lt_def.mp hlt
      refine ⟨BitVec.lt_def.mpr (by omega), x, ?_, by rw [hmark, hxseq], hxdata⟩
      rw [hmark, htime, carriers_snoc (by rw [hseq]; exact hlt'), hx]
    · have hspan : 0 < s.span := by
        have hpos := List.length_pos_of_ne_nil hdata
        rw [Segment.span]
        omega
      rw [hmark]
      refine .inr ⟨BitVec.lt_def.mpr (by omega), s, ?_, by rw [hmark, hseq], hdata⟩
      rw [hmark, htime]
      refine carriers_first (fun e he => ?_) hseq hspan
      have hlim' := BitVec.le_def.mp hlim
      have hfront' := BitVec.le_def.mp hfront
      have hold := h.past hpast e.1 (h.sent ▸ List.mem_map_of_mem he)
      omega

/-- What a segment does to the measurement: it may start one. -/
theorem emitSegment_meter (c : Conn) (data : List Uchar) (fin : Bool) (now : Timeval) :
    ((emitSegment c data fin now).tcb.rttMark = c.tcb.rttMark ∧
        (emitSegment c data fin now).tcb.rttTime = c.tcb.rttTime ∨
      data ≠ [] ∧ c.tcb.rttLimit ≤ c.tcb.sndNxt ∧
        (emitSegment c data fin now).tcb.rttMark = c.tcb.sndNxt ∧
          (emitSegment c data fin now).tcb.rttTime = now) ∧
      (emitSegment c data fin now).tcb.rttLimit =
        if c.tcb.rttLimit < (emitSegment c data fin now).tcb.sndNxt
        then (emitSegment c data fin now).tcb.sndNxt else c.tcb.rttLimit := by
  have hrtt : ∀ t : Tcb, startRtt t data.length now = t ∨ data ≠ [] ∧ t.rttLimit ≤ t.sndNxt ∧
      startRtt t data.length now = { t with rttMark := t.sndNxt, rttTime := now } := by
    intro t
    rw [startRtt]
    split
    · next hstart =>
        exact .inr ⟨List.ne_nil_of_length_pos hstart.1, hstart.2.2, rfl⟩
    · exact .inl rfl
  simp only [emitSegment]
  split
  · rcases hrtt (setTimeout c now).tcb with hsame | ⟨hdata, hlim, hnew⟩
    · rw [hsame]
      exact ⟨.inl ⟨rfl, rfl⟩, rfl⟩
    · rw [hnew]
      exact ⟨.inr ⟨hdata, hlim, rfl, rfl⟩, rfl⟩
  · rcases hrtt c.tcb with hsame | ⟨hdata, hlim, hnew⟩
    · rw [hsame]
      exact ⟨.inl ⟨rfl, rfl⟩, rfl⟩
    · rw [hnew]
      exact ⟨.inr ⟨hdata, hlim, rfl, rfl⟩, rfl⟩

/-- In positions that do not wrap, `snd_nxt` moves by what the segment takes. -/
theorem sndNxt_toNat {n' : ℕ} (hw : Windowed c b w u n) (hw' : Windowed c' b w u n')
    (hspace : InSpace c) (hspace' : InSpace c') (hiss : c'.tcb.iss = c.tcb.iss) (hle : n ≤ n')
    (hk : k < 2 ^ 32) (hnxt : c'.tcb.sndNxt = c.tcb.sndNxt + BitVec.ofNat 32 k) :
    c'.tcb.sndNxt.toNat = c.tcb.sndNxt.toNat + k := by
  have hsent := hw.sent
  have hsent' := hw'.sent
  rw [InSpace] at hspace hspace'
  have hword := hw.nxt.toNat_eq (by omega)
  have hword' := hw'.nxt.toNat_eq (by omega)
  rw [hiss] at hword'
  have hmod := congrArg BitVec.toNat hnxt
  rw [BitVec.toNat_add, BitVec.toNat_ofNat, Nat.mod_eq_of_lt hk] at hmod
  omega

/-- In positions that do not wrap, `snd_una` is not behind `snd_nxt`. -/
theorem Windowed.una_le_nxt (hw : Windowed c b w u n) (hspace : InSpace c) :
    c.tcb.sndUna ≤ c.tcb.sndNxt := by
  have hsent := hw.sent
  have hword := hw.nxt.toNat_eq (by rw [InSpace] at hspace; omega)
  have huna := hw.una
  have hun := hw.le
  rw [BitVec.le_def]
  omega

/-- A segment with data or a FIN is sent. -/
theorem Measured.segment {data : List Uchar} {x : Conn} {e : Option ℕ} {n' : ℕ}
    (h : Measured c log) (hloc : Windowed c b w u n) (hspace : InSpace c)
    (hpast : c.tcb.state ≠ .synRecvd) (hdata : sendData c.tcb = some data)
    (hx : x = emitSegment c data (finDue c.tcb data.length) now) (hle : n ≤ n')
    (hloc' : Windowed { x with tcb := { x.tcb with eTcbSend := e } } b w u n')
    (hspace' : InSpace { x with tcb := { x.tcb with eTcbSend := e } }) :
    Measured { x with tcb := { x.tcb with eTcbSend := e } }
      (log ++ (newlySent c { x with tcb := { x.tcb with eTcbSend := e } }).map
        fun s => (s, some now)) := by
  obtain ⟨hmark, hlimit⟩ := emitSegment_meter c data (finDue c.tcb data.length) now
  obtain ⟨l, m, e', k, r, q, v, la, heq⟩ :=
    emitSegment_eq c data (finDue c.tcb data.length) now
  obtain ⟨s, hs⟩ : ∃ s : Segment, s =
      { seq := c.tcb.sndNxt, ack := c.tcb.rcvNxt
        flags := sendFlags (pushDue c.tcb data.length) (finDue c.tcb data.length)
        wnd := c.tcb.rcvWnd.setWidth 16, data } := ⟨_, rfl⟩
  rw [← hx] at hmark hlimit
  rw [← hx, ← hs] at heq
  have hspan : s.span = data.length + (if finDue c.tcb data.length then 1 else 0) := by
    rw [hs]
    exact Outlet.span_of_sendFlags rfl
  have hsent : x.trace.sent = c.trace.sent ++ [s] := by rw [heq]; rfl
  have hnew : newlySent c { x with tcb := { x.tcb with eTcbSend := e } } = [s] := by
    rw [newlySent, hsent]
    exact List.drop_left
  have hnxt : x.tcb.sndNxt = c.tcb.sndNxt + BitVec.ofNat 32 s.span := by
    rw [heq, hspan]
    exact Outlet.advanceNxt_eq _ _ _
  have hlen : s.span < 2 ^ 32 := by
    have hend := hloc.segment_le hdata
    have hwnd := hloc.wnd
    have hbase := hloc.base
    have hun := hloc.le
    omega
  have hiss : x.tcb.iss = c.tcb.iss := by rw [heq]
  rw [hnew]
  refine h.emit (s := s) hsent (by rw [hs])
    (sndNxt_toNat hloc hloc' hspace hspace' hiss hle hlen hnxt) (by rw [heq]) (by rw [heq])
    ?_ (fun _ => ?_) ?_
  · show c.tcb.rttLimit.toNat ≤ x.tcb.rttLimit.toNat
    rw [hlimit]
    split
    · next hlt => exact (BitVec.lt_def.mp hlt).le
    · exact le_rfl
  · show x.tcb.sndNxt.toNat ≤ x.tcb.rttLimit.toNat
    rw [hlimit]
    split
    · exact le_rfl
    · next hnot => exact BitVec.le_def.mp (BitVec.not_lt.mp hnot)
  · refine hmark.imp_right fun ⟨hne, hlim, hnew⟩ =>
      ⟨hpast, ?_, hlim, hloc.una_le_nxt hspace, hnew⟩
    rw [hs]
    exact hne

theorem Measured.wrote {again : Bool} (h : Measured c log) (hloc : Windowed c b w u n)
    (hpend : c.tcb.eTcbSend.isSome = true) (hspace : InSpace c) (hw : Wrote c now c' again)
    (hspace' : InSpace c') :
    Measured c' (log ++ (newlySent c c').map fun s => (s, some now)) := by
  obtain ⟨n', hle, hloc'⟩ := hloc.wrote hpend hw
  cases hw with
  | syn hsyn =>
      obtain ⟨s, hs⟩ : ∃ s, s = (makeTcpHdr c.tcb [] 0x12).2 := ⟨_, rfl⟩
      have hspan : s.span = 1 := by rw [hs]; exact Outlet.span_of_synAck rfl rfl
      rw [← hs] at hloc' hspace' ⊢
      have hnew : newlySent c { c with
          tcb := { c.tcb with
            lastAcked := c.tcb.rcvNxt, sndNxt := c.tcb.sndNxt + 1, eTcbSend := none }
          trace := c.trace.send c.tcb.iss s } = [s] := List.drop_left
      rw [hnew]
      refine h.emit rfl (by rw [hs]; rfl) ?_ rfl rfl le_rfl (fun hs => absurd hsyn hs)
        (.inl ⟨rfl, rfl⟩)
      rw [hspan]
      exact sndNxt_toNat hloc hloc' hspace hspace' rfl hle (by decide) rfl
  | nothing =>
      have hnew : newlySent c { c with tcb := { c.tcb with eTcbSend := none } } = [] :=
        List.drop_length
      rw [hnew, List.map_nil, List.append_nil]
      exact h.of_eq rfl rfl rfl rfl Iff.rfl
  | segment hpast hdata hx _ => exact h.segment hloc hspace hpast hdata hx hle hloc' hspace'

/-! ## Segments and timeouts -/

/-- What a segment that is no reset does to `snd_una`, `snd_nxt` and the state. -/
theorem handleTcp_positions (h : handleTcp (c.receive s) s now = some c') (hlive : c'.live = true) :
    c'.trace.sent = c.trace.sent ∧ c.tcb.sndUna ≤ c'.tcb.sndUna ∧ c.tcb.sndNxt ≤ c'.tcb.sndNxt ∧
      (c'.tcb.state = .synRecvd → c.tcb.state = .synRecvd) ∧
        (c.tcb.state = .synRecvd → c'.tcb.state ≠ .synRecvd → c'.tcb.sndUna = c'.tcb.sndNxt) := by
  rcases handleTcp_arrived h with ⟨-, heq⟩ | ⟨-, o₁, hsettled, hmoved⟩
  · have hdead : c'.live = false := congrArg Outlet.live heq
    rw [hdead] at hlive
    cases hlive
  · obtain ⟨o, ho⟩ : ∃ o, o = (c.outlet.receive s).ack s := ⟨_, rfl⟩
    have hbefore : o.sent = c.trace.sent ∧ o.state = c.tcb.state ∧ c.tcb.sndUna ≤ o.una ∧
        c.tcb.sndNxt ≤ o.nxt := by
      rw [ho, Outlet.ack]
      split
      · next hnew =>
          refine ⟨rfl, rfl, BitVec.le_of_lt hnew.2, ?_⟩
          change c.tcb.sndNxt ≤ if s.ack > c.tcb.sndNxt then s.ack else c.tcb.sndNxt
          split
          · next hbeyond => exact BitVec.le_of_lt hbeyond
          · exact BitVec.le_refl _
      · exact ⟨rfl, rfl, BitVec.le_refl _, BitVec.le_refl _⟩
    obtain ⟨hsent, hstate, huna, hnxt⟩ := hbefore
    rw [← ho] at hsettled
    obtain ⟨l, st, heq⟩ := hsettled.eq
    obtain ⟨st', heq'⟩ := hmoved.eq
    have hfields : c'.outlet = { o with live := l, state := st' } := by rw [heq', heq]
    have huna' : c'.tcb.sndUna = o.una := congrArg Outlet.una hfields
    have hnxt' : c'.tcb.sndNxt = o.nxt := congrArg Outlet.nxt hfields
    have hsent' : c'.trace.sent = o.sent := congrArg Outlet.sent hfields
    have hlater := hmoved.state.2.1
    refine ⟨hsent'.trans hsent, huna' ▸ huna, hnxt' ▸ hnxt, fun hs => ?_, fun hs hs' => ?_⟩
    · by_contra hpast
      rw [← hstate] at hpast
      exact (hlater (hsettled.state.1 hpast).1).1 hs
    · rw [huna', hnxt']
      rw [← hstate] at hs
      cases hsettled with
      | same => exact absurd (hmoved.state.1 hs ▸ hs : c'.outlet.state = .synRecvd) hs'
      | opened _ hdone _ => exact hdone
      | deleted _ hdone _ => exact hdone
      | finAcked _ hdone _ _ => exact hdone
      | bothClosed _ hdone _ _ => exact hdone

theorem Measured.packet (h : Measured c log) (htcp : handleTcp (c.receive s) s now = some c')
    (hlive : c'.live = true) : Measured c' log := by
  obtain ⟨hsent, huna, hnxt, hsyn, hopen⟩ := handleTcp_positions htcp hlive
  have hmeter := handleTcp_meter htcp
  exact h.mono hsent (congrArg Meter.mark hmeter) (congrArg Meter.limit hmeter)
    (congrArg Meter.time hmeter) huna hnxt hsyn hopen

/-- A timeout takes back the mark with `snd_nxt`. -/
theorem Measured.timeout (h : Measured c log) (hpast : c.tcb.state ≠ .synRecvd) (addr : ℕ) :
    Measured { tcpTimeout c with ev := removeTimeEvent (tcpTimeout c).ev addr } log := by
  obtain ⟨l, m, e, cwnd, -, -, -, heq⟩ := tcpTimeout_eq c
  rw [heq]
  refine ⟨h.sent, fun hs => absurd hs hpast, h.past, fun hle => .inl ?_⟩
  -- only 0 is not above its predecessor
  have hzero : c.tcb.sndUna = 0 := by
    have hle' : c.tcb.sndUna ≤ c.tcb.sndUna - 1 := hle
    bv_omega
  change c.tcb.sndUna - 1 = BitVec.allOnes 32
  rw [hzero]
  rfl

/-! ## All steps -/

theorem newlySent_nil (h : c'.trace.sent = c.trace.sent) : newlySent c c' = [] := by
  rw [newlySent, h]
  exact List.drop_length

theorem Measured.closedBoth {m : Option TcpMap} (h : Measured c log)
    (hclose : ClosedBoth { c with map := m } c') (hlive : c'.live = true) :
    Measured c' log ∧ c'.trace.sent = c.trace.sent := by
  cases hclose with
  | reset => cases hlive
  | fin hsyn =>
      refine ⟨h.of_eq rfl rfl rfl rfl ?_, rfl⟩
      dsimp only
      split
      · exact ⟨nofun, fun hs => absurd hs hsyn⟩
      · exact ⟨nofun, fun hs => absurd hs hsyn⟩

theorem Measured.tcpRead {len : ℤ} {d : List Uchar} (h : Measured c log)
    (hread : tcpRead c len = some (c', d)) : Measured c' log ∧ c'.trace.sent = c.trace.sent := by
  obtain ⟨l, m, e, la, -, rfl⟩ := tcpRead_eq hread
  exact ⟨h.of_eq rfl rfl rfl rfl Iff.rfl, rfl⟩

theorem Measured.tcpSend {d : List Uchar} (h : Measured c log) (hsend : tcpSend c d = some c') :
    Measured c' log ∧ c'.trace.sent = c.trace.sent := by
  obtain ⟨r, k, l, n, e, -, rfl⟩ := tcpSend_eq hsend
  exact ⟨h.of_eq rfl rfl rfl rfl Iff.rfl, rfl⟩

theorem Measured.tcpAccept (h : Measured c log) :
    Measured (tcpAccept c) log ∧ (Ptrtd.tcpAccept c).trace.sent = c.trace.sent := by
  obtain ⟨l, n, e, -, heq⟩ := tcpAccept_eq c
  rw [heq]
  exact ⟨h.of_eq rfl rfl rfl rfl Iff.rfl, rfl⟩

/-- A step that sends nothing adds nothing to the log. -/
theorem Measured.unsent {t : Option Timeval} (h : Measured c' log ∧ c'.trace.sent = c.trace.sent) :
    Measured c' (log ++ (newlySent c c').map fun s => (s, t)) := by
  rw [newlySent_nil h.2, List.map_nil, List.append_nil]
  exact h.1

/-- The same for a change of the map and the event lists. -/
theorem Measured.registered {x : Conn} {t : Option Timeval}
    (h : Measured x log ∧ x.trace.sent = c.trace.sent) (htcb : c'.tcb = x.tcb)
    (htrace : c'.trace.sent = x.trace.sent) :
    Measured c' (log ++ (newlySent c c').map fun s => (s, t)) :=
  .unsent ⟨h.1.of_eq htrace (by rw [htcb]) (by rw [htcb]) (by rw [htcb]) (by rw [htcb]),
    htrace.trans h.2⟩

theorem Measured.stepped (h : Measured c log) (hwf : WellFormed c) (hqueue : Queued c)
    (hloc : Windowed c b w u n) (hspace : InSpace c) (hlive : c.live = true)
    (hstep : Stepped c i c') (hlive' : c'.live = true) (hspace' : InSpace c') :
    Measured c' (log ++ (newlySent c c').map fun s => (s, i.clock)) := by
  have hsame : Measured c log ∧ c.trace.sent = c.trace.sent := ⟨h, rfl⟩
  cases hstep with
  | packet htcp => exact .unsent ⟨h.packet htcp hlive', (handleTcp_positions htcp hlive').1⟩
  | @timeout e he hown _ =>
      have hsent : (tcpTimeout c).trace.sent = c.trace.sent := by
        obtain ⟨l, m, e, cwnd, -, -, -, heq⟩ := tcpTimeout_eq c
        rw [heq]
      exact .unsent ⟨h.timeout (hwf.timer_state hlive he hown) e.addr, hsent⟩
  | removed => cases hlive'
  | canRead _ _ _ _ hread _ =>
      cases hread with
      | nothing => exact .registered hsame rfl rfl
      | closed _ hclose => exact .registered (h.closedBoth hclose hlive') rfl rfl
      | sent _ _ hsend _ => exact .registered (h.tcpSend hsend) rfl rfl
  | canWrite _ _ _ _ hwrite _ =>
      cases hwrite with
      | again _ hread _ => exact .registered (h.tcpRead hread) rfl rfl
      | closed _ hread hclose =>
          obtain ⟨hx, hsent⟩ := h.tcpRead hread
          obtain ⟨hy, hsent'⟩ := hx.closedBoth hclose hlive'
          exact .registered ⟨hy, hsent'.trans hsent⟩ rfl rfl
      | wrote _ _ _ hread _ => exact .registered (h.tcpRead hread) rfl rfl
  | didConnect _ _ _ _ hconn _ =>
      cases hconn with
      | @accepted m =>
          have hx : Measured { c with map := m } log := h.of_eq rfl rfl rfl rfl Iff.rfl
          exact .registered hx.tcpAccept rfl rfl
      | closed _ hclose => exact .registered (h.closedBoth hclose hlive') rfl rfl
  | @write e now a again l he hown _ hw _ =>
      have hpend : c.tcb.eTcbSend.isSome = true := by
        rw [hqueue.pending hlive he hown]
        rfl
      have ha := h.wrote hloc hpend hspace hw hspace'
      exact ha.of_eq rfl rfl rfl rfl Iff.rfl
  | accept => exact .unsent h.tcpAccept
  | send _ _ _ hsend => exact .unsent (h.tcpSend hsend)
  | read _ hread => exact .unsent (h.tcpRead hread)
  | @close hard =>
      generalize hclosed : Ptrtd.tcpClose c hard = a at hlive' ⊢
      cases tcpClose_cases hclosed with
      | reset => cases hlive'
      | fin hsyn =>
          refine .unsent ⟨h.of_eq rfl rfl rfl rfl ?_, rfl⟩
          dsimp only
          split
          · exact ⟨nofun, fun hs => absurd hs hsyn⟩
          · exact ⟨nofun, fun hs => absurd hs hsyn⟩
  | others => exact .registered hsame rfl rfl

/-! ## Runs -/

theorem Measured.of_start {app : TcpCallback} (h : Start app c) (hlive : c.live = true) :
    Measured c (Logged.start c).log := by
  obtain ⟨self, isn, ev, syn, -, hopen⟩ := start_cases h
  have hfresh : Measured (.fresh self app isn ev syn) [] := by
    refine ⟨rfl, nofun, nofun, fun hle => .inl ?_⟩
    have hle' : nextIsn isn ≤ nextIsn isn - 1 := hle
    have hzero : nextIsn isn = 0 := by bv_omega
    change nextIsn isn - 1 = BitVec.allOnes 32
    rw [hzero]
    rfl
  have hsent {d : Conn} (hd : Measured d [] ∧ d.trace.sent = []) :
      Measured d (Logged.start d).log := by
    rw [Logged.start, hd.2]
    exact hd.1
  cases hopen with
  | other => exact hsent ⟨hfresh, rfl⟩
  | @accepted m =>
      have hx : Measured { Conn.fresh self app isn ev syn with map := some m } [] :=
        hfresh.of_eq rfl rfl rfl rfl Iff.rfl
      exact hsent hx.tcpAccept
  | connecting => exact hsent ⟨hfresh.of_eq rfl rfl rfl rfl Iff.rfl, rfl⟩
  | failed _ hclose =>
      cases hclose with
      | reset => cases hlive
      | fin hsyn => exact absurd rfl hsyn

/-- The runs of a connection, with their log. -/
def LoggedRun (c₀ : Conn) (x : Logged) : Prop :=
  Transition.Run loggedStep (fun x i => SentOnly x.conn i) (.start c₀) x

/-- What holds after every step: where the send window is, and what is measured. -/
structure Followed (x : Logged) : Prop where
  wf : WellFormed x.conn
  queued : Queued x.conn
  once : AcceptOnce x.conn
  window : x.conn.live = true → ∃ b w u n, Windowed x.conn b w u n
  measured : x.conn.live = true → InSpace x.conn → Measured x.conn x.log

theorem Followed.of_start {app : TcpCallback} (h : Start app c) : Followed (.start c) where
  wf := .of_start h
  queued := .of_start h
  once := .of_start h
  window hlive := by
    obtain ⟨w, -, -, -, -, hw⟩ := Windowed.of_start h hlive
    exact ⟨0, w, 0, 0, hw⟩
  measured hlive _ := .of_start h hlive

theorem Followed.step {x y : Logged} (h : Followed x) (hok : SentOnly x.conn i)
    (hstep : loggedStep x i = some y) : Followed y := by
  obtain ⟨c', hc', rfl⟩ := Option.map_eq_some_iff.mp hstep
  obtain ⟨hlive, hstepped⟩ := step_cases hc'
  obtain ⟨b, w, u, n, hw⟩ := h.window hlive
  refine ⟨h.wf.stepped hlive hstepped, h.queued.step hc', h.once.step h.wf hc', fun hlive' => ?_,
    fun hlive' hspace' => ?_⟩
  · obtain ⟨b', w', u', n', hw', -⟩ := hw.stepped h.wf h.queued h.once hok hlive hlive' hstepped
    exact ⟨b', w', u', n', hw'⟩
  · exact (h.measured hlive hok.inSpace).stepped h.wf h.queued hw hok.inSpace hlive hstepped hlive'
      hspace'

theorem LoggedRun.followed {app : TcpCallback} {c₀ : Conn} {x : Logged} (hstart : Start app c₀)
    (h : LoggedRun c₀ x) : Followed x := by
  rw [LoggedRun] at h
  exact h.invariant (.of_start hstart) fun _ _ _ hx hok hstep => hx.step hok hstep

/-- With ACK numbers that were sent, and sequence numbers that do not wrap, every sample is the
time since the measured byte was sent, and it was sent only then. -/
theorem sampled_once {app : TcpCallback} {c₀ : Conn} {x y : Logged} (hstart : Start app c₀)
    (hrun : LoggedRun c₀ x) (hok : SentOnly x.conn (.packet s now))
    (hstep : loggedStep x (.packet s now) = some y) (hsample : Samples x.conn s) :
    x.log.map Prod.fst = x.conn.trace.sent ∧
      (∃ segment, carriers x.log x.conn.tcb.rttMark = [(segment, some x.conn.tcb.rttTime)] ∧
        segment.seq = x.conn.tcb.rttMark ∧ segment.data ≠ []) ∧
      y.conn.tcb.estimate = x.conn.tcb.estimate.sample (timeAgo now x.conn.tcb.rttTime) := by
  obtain ⟨c', hc', rfl⟩ := Option.map_eq_some_iff.mp hstep
  obtain ⟨hlive, hstepped⟩ := step_cases hc'
  have hmeasured := (hrun.followed hstart).measured hlive hok.inSpace
  refine ⟨hmeasured.sent, ?_, ?_⟩
  · obtain ⟨-, -, -, hle, hlt⟩ := hsample
    rcases hmeasured.mark hle with hlast | ⟨-, honce⟩
    · rw [hlast, BitVec.lt_def, BitVec.toNat_allOnes] at hlt
      have hack := s.ack.isLt
      omega
    · exact honce
  · rw [stepped_estimate hstepped, estimateAfter, sampled, if_pos hsample]

/-- The acknowledgement of the first byte. -/
def firstAck : Segment := { seq := 1001, ack := 0x10002, flags := 0x10, wnd := 8192, data := [] }

/-- A byte is sent after the handshake, and acknowledged 50 ms later. -/
theorem sampled_once_first : ∃ x : Logged, x.conn.tcb.rttMark = 0x10001 ∧
    ∃ segment, carriers x.log 0x10001 = [(segment, some ⟨3, 0⟩)] := by
  have hexec : ((handleSyn 0 .tcpMapCb 0 ⟨[], [], [], 0⟩ (clientSyn 8192) (.connected 5)).any
      fun c => (Transition.exec loggedStep (fun x i => SentOnly x.conn i) (.start c)
        (handshake ++ [.fdEvent 1 (.read (.data [7])), .alwaysEvent 2 ⟨3, 0⟩])).any fun x =>
          SentOnly x.conn (.packet firstAck ⟨3, 50000⟩) ∧ Samples x.conn firstAck ∧
            (loggedStep x (.packet firstAck ⟨3, 50000⟩)).isSome = true ∧
              x.conn.tcb.rttMark = 0x10001 ∧ x.conn.tcb.rttTime = ⟨3, 0⟩) = true := by
    decide +kernel
  obtain ⟨c, hc, hexec⟩ := (Option.any_eq_true _ _).mp hexec
  obtain ⟨x, hrun, hx⟩ := Transition.exists_run_of_exec hexec
  obtain ⟨hok, hsample, hstep, hmark, htime⟩ := of_decide_eq_true hx
  obtain ⟨y, hy⟩ := Option.isSome_iff_exists.mp hstep
  have hstart : Start .tcpMapCb c := ⟨0, 0, _, _, _, freshAddr_empty 0 0, hc⟩
  obtain ⟨-, ⟨segment, honly, -, -⟩, -⟩ := sampled_once hstart hrun hok hy hsample
  rw [hmark, htime] at honly
  exact ⟨x, hmark, segment, honly⟩

end Ptrtd
