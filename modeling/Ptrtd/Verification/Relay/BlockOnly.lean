import Ptrtd.Model.Session

/-! # What does not need the maps

Most functions of `tcp.c` neither read nor change the map of a connection and the socket events.
What they do to a block is the same whatever these are. -/

namespace Ptrtd

variable {c : Conn} {g h : Conn → Conn}

/-- The connection with another map and other socket events. -/
def Conn.attach (c : Conn) (map : Option TcpMap) (l : List Event) : Conn :=
  { c with map, ev := { c.ev with fdEventList := l } }

/-- The function is about the block, its timers and its write event only. -/
structure BlockOnly (g : Conn → Conn) : Prop where
  attach : ∀ c map l, g (c.attach map l) = (g c).attach map l
  self : ∀ c, (g c).self = c.self
  next : ∀ c, c.ev.next ≤ (g c).ev.next
  cb : ∀ c, (g c).tcb.cb = c.tcb.cb ∨ (g c).tcb.cb = none

theorem cancel_attach (ev : EventLists) (l : List Event) (p q : Option ℕ) :
    removeTime? (removeAlways? { ev with fdEventList := l } p) q =
      { removeTime? (removeAlways? ev p) q with fdEventList := l } := by
  cases p <;> cases q <;> rfl

theorem cancel_next (ev : EventLists) (p q : Option ℕ) :
    (removeTime? (removeAlways? ev p) q).next = ev.next := by
  cases p <;> cases q <;> rfl

namespace BlockOnly

theorem fixed (h : BlockOnly g) (c : Conn) :
    (g c).map = c.map ∧ (g c).ev.fdEventList = c.ev.fdEventList := by
  have hsame := h.attach c c.map c.ev.fdEventList
  rw [show c.attach c.map c.ev.fdEventList = c from rfl] at hsame
  rw [hsame]
  exact ⟨rfl, rfl⟩

theorem refl : BlockOnly fun c => c :=
  ⟨fun _ _ _ => rfl, fun _ => rfl, fun _ => le_rfl, fun _ => .inl rfl⟩

theorem comp (hg : BlockOnly g) (hh : BlockOnly h) : BlockOnly fun c => g (h c) := by
  refine ⟨fun c map l => ?_, fun c => ?_, fun c => ?_, fun c => ?_⟩
  · rw [hh.attach, hg.attach]
  · rw [hg.self, hh.self]
  · exact (hh.next c).trans (hg.next _)
  · rcases hg.cb (h c) with hsame | hnone
    · rw [hsame]
      exact hh.cb c
    · exact .inr hnone

theorem ite (p : Conn → Prop) [DecidablePred p] (hp : ∀ c map l, p (c.attach map l) ↔ p c)
    (hg : BlockOnly g) (hh : BlockOnly h) : BlockOnly fun c => if p c then g c else h c := by
  refine ⟨fun c map l => ?_, fun c => ?_, fun c => ?_, fun c => ?_⟩
  · by_cases hc : p c
    · rw [if_pos hc, if_pos ((hp ..).mpr hc), hg.attach]
    · rw [if_neg hc, if_neg fun hc' => hc ((hp ..).mp hc'), hh.attach]
  · split
    · exact hg.self c
    · exact hh.self c
  · split
    · exact hg.next c
    · exact hh.next c
  · split
    · exact hg.cb c
    · exact hh.cb c

/-! ## The functions -/

theorem markForIfWrite : BlockOnly markForIfWrite := by
  have hmark : BlockOnly fun c =>
      { c with
        ev := addAlwaysEvent c.ev .doTcbWrite (.tcb c.self)
        tcb := { c.tcb with eTcbSend := some c.ev.next } } :=
    ⟨fun _ _ _ => rfl, fun _ => rfl, fun _ => Nat.le_succ _, fun _ => .inl rfl⟩
  exact ite (fun c => c.tcb.eTcbSend.isSome = true) (fun _ _ _ => Iff.rfl) refl hmark

theorem tcpAccept : BlockOnly tcpAccept :=
  markForIfWrite.comp ⟨fun _ _ _ => rfl, fun _ => rfl, fun _ => le_rfl, fun _ => .inl rfl⟩

/-- The block is freed, and its events are unlinked. -/
theorem tcbDelete : BlockOnly fun c => Ptrtd.tcbDelete
    { c with ev := removeTime? (removeAlways? c.ev c.tcb.eTcbSend) c.tcb.eTimeout } := by
  refine ⟨fun c map l => ?_, fun _ => rfl, fun c => (cancel_next ..).ge, fun _ => .inl rfl⟩
  have hcancel := cancel_attach c.ev l c.tcb.eTcbSend c.tcb.eTimeout
  exact congrArg (fun ev => Ptrtd.tcbDelete { c with map, ev }) hcancel

theorem tcpRemove : BlockOnly tcpRemove := tcbDelete

theorem tcpSendRst : BlockOnly tcpSendRst :=
  ⟨fun _ _ _ => rfl, fun _ => rfl, fun _ => le_rfl, fun _ => .inl rfl⟩

theorem tcpClose (hard : Bool) : BlockOnly fun c => tcpClose c hard :=
  ite (fun c => hard = true ∨ c.tcb.state = .synRecvd) (fun _ _ _ => Iff.rfl)
    (tcbDelete.comp tcpSendRst)
    (markForIfWrite.comp ⟨fun _ _ _ => rfl, fun _ => rfl, fun _ => le_rfl, fun _ => .inr rfl⟩)

theorem tcpTimeout : BlockOnly tcpTimeout :=
  markForIfWrite.comp ⟨fun _ _ _ => rfl, fun _ => rfl, fun _ => le_rfl, fun _ => .inl rfl⟩

theorem setTimeout (now : Timeval) : BlockOnly fun c => setTimeout c now :=
  ⟨fun _ _ _ => rfl, fun _ => rfl, fun _ => Nat.le_succ _, fun _ => .inl rfl⟩

theorem enterTimeWait (now : Timeval) : BlockOnly fun c => enterTimeWait c now :=
  ⟨fun _ _ _ => rfl, fun _ => rfl, fun _ => Nat.le_succ _, fun _ => .inl rfl⟩

theorem ackTimer (ack : Uint) (now : Timeval) : BlockOnly fun c => ackTimer c ack now := by
  refine ⟨fun c map l => ?_, fun c => ?_, fun c => ?_, fun c => ?_⟩ <;>
    simp only [Ptrtd.ackTimer.eq_def]
  · rw [show (c.attach map l).tcb = c.tcb from rfl]
    cases c.tcb.eTimeout with
    | none => rfl
    | some e =>
        dsimp only
        split
        · split <;> rfl
        · rfl
  · cases c.tcb.eTimeout with
    | none => rfl
    | some e =>
        dsimp only
        split
        · split <;> rfl
        · rfl
  · cases c.tcb.eTimeout with
    | none => exact le_rfl
    | some e =>
        dsimp only
        split
        · split
          · exact Nat.le_succ _
          · exact le_rfl
        · exact le_rfl
  · cases c.tcb.eTimeout with
    | none => exact .inl rfl
    | some e =>
        dsimp only
        split
        · split <;> exact .inl rfl
        · exact .inl rfl

theorem handleOld : BlockOnly handleOld :=
  ite (fun c => c.tcb.state = .synRecvd) (fun _ _ _ => Iff.rfl) refl
    (markForIfWrite.comp ⟨fun _ _ _ => rfl, fun _ => rfl, fun _ => le_rfl, fun _ => .inl rfl⟩)

theorem handleWindow (s : Segment) : BlockOnly fun c => handleWindow c s :=
  ite (fun c => windowSize { c.tcb with sndWnd := s.wnd.setWidth 32 } ≤ 0) (fun _ _ _ => Iff.rfl)
    (ite (fun c => windowSize (windowUpdate { c.tcb with sndWnd := s.wnd.setWidth 32 }) > 0)
      (fun _ _ _ => Iff.rfl)
      (markForIfWrite.comp ⟨fun _ _ _ => rfl, fun _ => rfl, fun _ => le_rfl, fun _ => .inl rfl⟩)
      ⟨fun _ _ _ => rfl, fun _ => rfl, fun _ => le_rfl, fun _ => .inl rfl⟩)
    ⟨fun _ _ _ => rfl, fun _ => rfl, fun _ => le_rfl, fun _ => .inl rfl⟩

theorem recvFin (s : Segment) : BlockOnly fun c => recvFin c s :=
  ite (fun _ => s.isFin = true) (fun _ _ _ => Iff.rfl)
    (markForIfWrite.comp ⟨fun _ _ _ => rfl, fun _ => rfl, fun _ => le_rfl, fun _ => .inl rfl⟩) refl

theorem startRtt_cb (t : Tcb) (len : ℕ) (now : Timeval) : (startRtt t len now).cb = t.cb := by
  rw [startRtt]
  split <;> rfl

theorem emitSegment (data : List Uchar) (fin : Bool) (now : Timeval) :
    BlockOnly fun c => emitSegment c data fin now := by
  refine ⟨fun c map l => ?_, fun c => ?_, fun c => ?_, fun c => ?_⟩ <;>
    simp only [Ptrtd.emitSegment.eq_def]
  · rw [show (c.attach map l).tcb = c.tcb from rfl]
    split <;> rfl
  · split <;> rfl
  · split
    · exact Nat.le_succ _
    · exact le_rfl
  · refine .inl ((startRtt_cb _ _ _).trans ?_)
    split <;> rfl

theorem tcpSendSyn : BlockOnly tcpSendSyn :=
  ⟨fun _ _ _ => rfl, fun _ => rfl, fun _ => le_rfl, fun _ => .inl rfl⟩

/-- The write event is done. -/
theorem sent : BlockOnly fun c => { c with tcb := { c.tcb with eTcbSend := none } } :=
  ⟨fun _ _ _ => rfl, fun _ => rfl, fun _ => le_rfl, fun _ => .inl rfl⟩

theorem removeTimeEvent (addr : ℕ) :
    BlockOnly fun c => { c with ev := Ptrtd.removeTimeEvent c.ev addr } :=
  ⟨fun _ _ _ => rfl, fun _ => rfl, fun _ => le_rfl, fun _ => .inl rfl⟩

theorem removeAlwaysEvent (addr : ℕ) :
    BlockOnly fun c => { c with ev := Ptrtd.removeAlwaysEvent c.ev addr } :=
  ⟨fun _ _ _ => rfl, fun _ => rfl, fun _ => le_rfl, fun _ => .inl rfl⟩

end BlockOnly

end Ptrtd
