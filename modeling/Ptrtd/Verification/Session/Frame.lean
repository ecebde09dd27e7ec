import Ptrtd.Verification.Event.Ownership
import Ptrtd.Verification.Session.Events

/-! # What a connection leaves alone

Whatever a connection does, it registers and unlinks events of its own only, and keeps its
socket until it closes it. It relies on this: the addresses of events that it has stored are of
its own events. -/

namespace Ptrtd

variable {a c c' : Conn} {s : Segment} {now : Timeval} {k : ListKind} {addr : ℕ}

/-- The addresses of events that the block and the map store. -/
def Conn.Knows (c : Conn) : ListKind → ℕ → Prop
  | .time, p => c.tcb.eTimeout = some p
  | .fd, p => ∃ m, c.map = some m ∧ (m.eFdRead = some p ∨ m.eFdWrite = some p)
  | .always, p => c.tcb.eTcbSend = some p

/-- What is stored belongs to the connection. -/
structure Tidy (c : Conn) : Prop where
  addressed : c.ev.Addressed
  mine : ∀ k p, c.Knows k p → c.ev.Mine (tcpOwns c.self) k p

/-- What a function keeps. -/
structure Kept (c c' : Conn) : Prop where
  self : c'.self = c.self
  ev : c.ev.Changed (tcpOwns c.self) c'.ev
  tidy : Tidy c'
  fd : c'.map = none ∨ c'.map.map TcpMap.fd = c.map.map TcpMap.fd

/-- A function that keeps it as long as what is stored belongs to the connection. -/
def Local (c c' : Conn) : Prop := Tidy c → Kept c c'

theorem tcpOwns_tcb (self : ℕ) : tcpOwns self (.tcb self) = true := by simp [tcpOwns]

theorem tcpOwns_tcpMap (self : ℕ) : tcpOwns self (.tcpMap self) = true := by simp [tcpOwns]

namespace Local

theorem refl (c : Conn) : Local c c := fun h => ⟨rfl, .refl .., h, .inr rfl⟩

theorem trans (h : Local c a) (h' : Local a c') : Local c c' := by
  intro htidy
  obtain ⟨hself, hev, htidy', hfd⟩ := h htidy
  obtain ⟨hself', hev', htidy'', hfd'⟩ := h' htidy'
  rw [hself] at hev'
  refine ⟨hself'.trans hself, hev.trans hev', htidy'', ?_⟩
  rcases hfd' with hnone | hsame
  · exact .inl hnone
  · rcases hfd with hnone | hfd
    · rw [hnone] at hsame
      exact .inl (Option.map_eq_none_iff.mp hsame)
    · exact .inr (hsame.trans hfd)

/-! ## What a function is made of -/

/-- Events are changed; what is stored afterwards was stored before or is new. -/
theorem of_changed (hself : c'.self = c.self)
    (hev : Tidy c → c.ev.Changed (tcpOwns c.self) c'.ev)
    (hknows : Tidy c → ∀ k p, c'.Knows k p → c.Knows k p ∨ c'.ev.Mine (tcpOwns c.self) k p)
    (hfd : c'.map = none ∨ c'.map.map TcpMap.fd = c.map.map TcpMap.fd) : Local c c' := by
  intro htidy
  refine ⟨hself, hev htidy, ⟨(hev htidy).addressed htidy.addressed, fun k p hp => ?_⟩, hfd⟩
  rw [hself]
  rcases hknows htidy k p hp with hold | hnew
  · exact (htidy.mine k p hold).changed (hev htidy)
  · exact hnew

/-- The block changes, and may forget its events. -/
theorem block (hself : c'.self = c.self) (hmap : c'.map = c.map) (hev : c'.ev = c.ev)
    (hsend : c'.tcb.eTcbSend = c.tcb.eTcbSend ∨ c'.tcb.eTcbSend = none)
    (htime : c'.tcb.eTimeout = c.tcb.eTimeout ∨ c'.tcb.eTimeout = none) : Local c c' := by
  refine .of_changed hself (fun _ => hev ▸ .refl ..) (fun _ k p hp => .inl ?_)
    (.inr (by rw [hmap]))
  cases k with
  | time =>
      rcases htime with heq | heq
      · exact heq.symm.trans hp
      · exact absurd (heq.symm.trans hp) (by simp)
  | fd =>
      obtain ⟨m, hm, hp⟩ := hp
      exact ⟨m, hmap ▸ hm, hp⟩
  | always =>
      rcases hsend with heq | heq
      · exact heq.symm.trans hp
      · exact absurd (heq.symm.trans hp) (by simp)

/-- A change of other fields. -/
theorem fields (hself : c'.self = c.self) (hmap : c'.map = c.map) (hev : c'.ev = c.ev)
    (hsend : c'.tcb.eTcbSend = c.tcb.eTcbSend) (htime : c'.tcb.eTimeout = c.tcb.eTimeout) :
    Local c c' :=
  .block hself hmap hev (.inl hsend) (.inl htime)

/-- The map forgets its events. -/
theorem forget {m m' : TcpMap} (hm : c.map = some m) (hself : c'.self = c.self)
    (hmap : c'.map = some m') (htcb : c'.tcb = c.tcb) (hev : c'.ev = c.ev) (hfd : m'.fd = m.fd)
    (hread : m'.eFdRead = m.eFdRead ∨ m'.eFdRead = none)
    (hwrite : m'.eFdWrite = m.eFdWrite ∨ m'.eFdWrite = none) : Local c c' := by
  refine .of_changed hself (fun _ => hev ▸ .refl ..) (fun _ k p hp => .inl ?_) ?_
  · cases k with
    | time => exact (congrArg Tcb.eTimeout htcb).symm.trans hp
    | fd =>
        obtain ⟨x, hx, hp⟩ := hp
        obtain rfl := Option.some.inj (hmap.symm.trans hx)
        refine ⟨m, hm, ?_⟩
        rcases hp with hp | hp
        · rcases hread with heq | heq
          · exact .inl (heq.symm.trans hp)
          · exact absurd (heq.symm.trans hp) (by simp)
        · rcases hwrite with heq | heq
          · exact .inr (heq.symm.trans hp)
          · exact absurd (heq.symm.trans hp) (by simp)
    | always => exact (congrArg Tcb.eTcbSend htcb).symm.trans hp
  · right
    rw [hmap, hm, Option.map_some, Option.map_some, hfd]

/-- An event is registered, and its address is stored. -/
theorem register {e : Event} (l₁ : List Event) {l₂ : List Event} (hself : c'.self = c.self)
    (hlist : c.ev.list k = l₁ ++ l₂) (hown : tcpOwns c.self e.data = true)
    (haddr : e.addr = c.ev.next) (hev : c'.ev.list k = l₁ ++ e :: l₂)
    (hother : ∀ j ≠ k, c'.ev.list j = c.ev.list j) (hnext : c'.ev.next = c.ev.next + 1)
    (hknows : ∀ j p, c'.Knows j p → c.Knows j p ∨ j = k ∧ p = c.ev.next)
    (hfd : c'.map = none ∨ c'.map.map TcpMap.fd = c.map.map TcpMap.fd) : Local c c' := by
  refine .of_changed hself (fun _ => .add l₁ hlist hown haddr hev hother hnext)
    (fun htidy j p hp => (hknows j p hp).imp_right ?_) hfd
  rintro ⟨rfl, rfl⟩
  refine ⟨by omega, fun x hx hxaddr => ?_⟩
  have hold : x ∉ l₁ ++ l₂ := fun hin => by
    have hlt := (htidy.addressed j).2 x (hlist ▸ hin)
    omega
  rw [hev, List.mem_append, List.mem_cons] at hx
  rw [List.mem_append] at hold
  rcases hx with hx | rfl | hx
  · exact absurd (.inl hx) hold
  · exact hown
  · exact absurd (.inr hx) hold

/-! ## The functions of `tcp.c` -/

theorem mark (c : Conn) : Local c (markForIfWrite c) := by
  rw [markForIfWrite]
  split
  · exact refl c
  · refine register (k := .always) (e := ⟨c.ev.next, .doTcbWrite, .tcb c.self, .always⟩) []
      rfl rfl (tcpOwns_tcb _) rfl rfl (fun j hj => by cases j <;> first | rfl | contradiction) rfl
      (fun j p hp => ?_) (.inr rfl)
    cases j with
    | time => exact .inl hp
    | fd => exact .inl hp
    | always => exact .inr ⟨rfl, (Option.some.inj hp).symm⟩

/-- A change of other fields, and the schedule of the write event. -/
theorem of_mark (hself : a.self = c.self) (hmap : a.map = c.map) (hev : a.ev = c.ev)
    (hsend : a.tcb.eTcbSend = c.tcb.eTcbSend)
    (htime : a.tcb.eTimeout = c.tcb.eTimeout ∨ a.tcb.eTimeout = none) :
    Local c (markForIfWrite a) :=
  (block hself hmap hev (.inl hsend) htime).trans (mark a)

theorem tcpAccept (c : Conn) : Local c (tcpAccept c) := of_mark rfl rfl rfl rfl (.inl rfl)

/-- The stored events are unlinked. -/
theorem removed {own : DataRef → Bool} {ev : EventLists} (p q : Option ℕ)
    (hp : ∀ a, p = some a → ev.Mine own .always a) (hq : ∀ a, q = some a → ev.Mine own .time a) :
    ev.Changed own (removeTime? (removeAlways? ev p) q) := by
  have halways : ev.Changed own (removeAlways? ev p) := by
    cases p with
    | none => exact .refl ..
    | some a => exact .removeAlwaysEvent (hp a rfl)
  cases q with
  | none => exact halways
  | some a => exact halways.trans (.removeTimeEvent ((hq a rfl).changed halways))

/-- The block is freed, and its events are unlinked. -/
theorem tcbDelete (hself : a.self = c.self) (hmap : a.map = c.map) (hev : a.ev = c.ev)
    (hsend : a.tcb.eTcbSend = c.tcb.eTcbSend) (htime : a.tcb.eTimeout = c.tcb.eTimeout) :
    Local c (tcbDelete
      { a with ev := removeTime? (removeAlways? a.ev a.tcb.eTcbSend) a.tcb.eTimeout }) := by
  refine of_changed hself (fun htidy => ?_) (fun _ k p hp => .inl ?_) (.inr (by rw [← hmap]; rfl))
  · rw [hev, hsend, htime]
    exact removed _ _ (htidy.mine .always) (htidy.mine .time)
  · cases k with
    | time => exact htime.symm.trans hp
    | fd =>
        obtain ⟨m, hm, hp⟩ := hp
        exact ⟨m, hmap ▸ hm, hp⟩
    | always => exact hsend.symm.trans hp

theorem tcpClose (c : Conn) (hard : Bool) : Local c (tcpClose c hard) := by
  rw [Ptrtd.tcpClose]
  split
  · exact tcbDelete rfl rfl rfl rfl rfl
  · exact of_mark rfl rfl rfl rfl (.inl rfl)

theorem tcpRemove (c : Conn) : Local c (tcpRemove c) := tcbDelete rfl rfl rfl rfl rfl

theorem tcpTimeout (c : Conn) : Local c (tcpTimeout c) := of_mark rfl rfl rfl rfl (.inr rfl)

/-- A timer is started. -/
theorem timer {t : Timeval} {f : Callback} (hself : c'.self = c.self) (hmap : c'.map = c.map)
    (hev : c'.ev = addTimeEvent c.ev t f (.tcb c.self)) (hsend : c'.tcb.eTcbSend = c.tcb.eTcbSend)
    (htime : c'.tcb.eTimeout = some c.ev.next) : Local c c' := by
  obtain ⟨l₁, l₂, hl, heq⟩ :=
    insertTimeEvent_eq ⟨c.ev.next, f, .tcb c.self, .time t⟩ c.ev.timeEventList
  refine register (k := .time) l₁ hself hl (tcpOwns_tcb _) rfl (by rw [hev]; exact heq)
    (fun j hj => ?_) (by rw [hev]; rfl) (fun j p hp => ?_) (.inr (by rw [hmap]))
  · rw [hev]
    cases j <;> first | rfl | contradiction
  · cases j with
    | time => exact .inr ⟨rfl, (Option.some.inj (htime.symm.trans hp)).symm⟩
    | fd =>
        obtain ⟨m, hm, hp⟩ := hp
        exact .inl ⟨m, hmap ▸ hm, hp⟩
    | always => exact .inl (hsend.symm.trans hp)

theorem setTimeout (c : Conn) (now : Timeval) : Local c (setTimeout c now) :=
  timer rfl rfl rfl rfl rfl

theorem enterTimeWait (c : Conn) (now : Timeval) : Local c (enterTimeWait c now) :=
  timer rfl rfl rfl rfl rfl

theorem emitSegment (c : Conn) (data : List Uchar) (fin : Bool) (now : Timeval) :
    Local c (emitSegment c data fin now) := by
  have hrtt : ∀ (t : Tcb) (n : ℕ), (startRtt t n now).eTcbSend = t.eTcbSend ∧
      (startRtt t n now).eTimeout = t.eTimeout := by
    intro t n
    rw [startRtt]
    split <;> exact ⟨rfl, rfl⟩
  by_cases htimer : c.tcb.eTimeout.isNone = true ∧ data.length > 0
  · refine (setTimeout c now).trans (fields ?_ ?_ ?_ ?_ ?_) <;>
      simp only [Ptrtd.emitSegment, if_pos htimer]
    · rfl
    · rfl
    · rfl
    · exact (hrtt _ _).1
    · exact (hrtt _ _).2
  · refine fields ?_ ?_ ?_ ?_ ?_ <;> simp only [Ptrtd.emitSegment, if_neg htimer]
    · rfl
    · rfl
    · rfl
    · exact (hrtt _ _).1
    · exact (hrtt _ _).2

theorem tcpSendAndAck {more : Bool} (h : tcpSendAndAck c now = some (c', more)) : Local c c' := by
  obtain ⟨data, -, h⟩ := Option.map_eq_some_iff.mp h
  dsimp only at h
  split at h
  · cases h
    exact refl c
  · cases h
    exact emitSegment c data _ now

theorem doTcbWrite {again : Bool} (h : doTcbWrite c now = some (c', again)) : Local c c' := by
  rw [Ptrtd.doTcbWrite] at h
  split at h
  · cases h
    exact block rfl rfl rfl (.inr rfl) (.inl rfl)
  · obtain ⟨⟨a, more⟩, ha, h⟩ := Option.map_eq_some_iff.mp h
    cases h
    refine (tcpSendAndAck ha).trans ?_
    cases more with
    | true => exact refl a
    | false => exact block rfl rfl rfl (.inr rfl) (.inl rfl)

theorem tcpSend {d : List Uchar} (h : tcpSend c d = some c') : Local c c' := by
  obtain ⟨⟨r, n⟩, -, h⟩ := Option.map_eq_some_iff.mp h
  dsimp only at h
  split at h
  · subst h
    exact of_mark rfl rfl rfl rfl (.inl rfl)
  · subst h
    exact fields rfl rfl rfl rfl rfl

theorem tcpRead {len : ℤ} {d : List Uchar} (h : tcpRead c len = some (c', d)) : Local c c' := by
  obtain ⟨b, -, h⟩ := Option.map_eq_some_iff.mp h
  dsimp only at h
  split at h
  · obtain ⟨rfl, rfl⟩ := Prod.mk.inj h
    exact of_mark rfl rfl rfl rfl (.inl rfl)
  · obtain ⟨rfl, rfl⟩ := Prod.mk.inj h
    exact fields rfl rfl rfl rfl rfl

/-! ## The callbacks of the relay -/

theorem killMap (h : killMap c = some c') : Local c c' := by
  obtain ⟨m, hm, rfl⟩ := Option.map_eq_some_iff.mp h
  refine of_changed rfl (fun htidy => ?_) (fun _ k p hp => .inl ?_) (.inl rfl)
  · have hwrite : c.ev.Changed (tcpOwns c.self) (removeFd? c.ev m.eFdWrite) := by
      cases hp : m.eFdWrite with
      | none => exact .refl ..
      | some p => exact .removeFdEvent (htidy.mine .fd p ⟨m, hm, .inr hp⟩)
    cases hp : m.eFdRead with
    | none => exact hwrite
    | some p =>
        exact hwrite.trans (.removeFdEvent ((htidy.mine .fd p ⟨m, hm, .inl hp⟩).changed hwrite))
  · cases k with
    | time => exact hp
    | fd =>
        obtain ⟨x, hx, -⟩ := hp
        cases hx
    | always => exact hp

theorem closeBoth (h : closeBoth c = some c') : Local c c' := (tcpClose c false).trans (killMap h)

/-- A socket event is registered. -/
theorem socket {m m' : TcpMap} {write : Bool} {f : Callback} (hm : c.map = some m)
    (hself : c'.self = c.self) (hmap : c'.map = some m') (htcb : c'.tcb = c.tcb)
    (hev : c'.ev = addFdEvent c.ev m.fd write f (.tcpMap c.self)) (hfd : m'.fd = m.fd)
    (hread : m'.eFdRead = m.eFdRead ∨ m'.eFdRead = some c.ev.next)
    (hwrite : m'.eFdWrite = m.eFdWrite ∨ m'.eFdWrite = some c.ev.next) : Local c c' := by
  refine register (k := .fd) (e := ⟨c.ev.next, f, .tcpMap c.self, .fd m.fd write⟩) []
    hself rfl (tcpOwns_tcpMap _) rfl (by rw [hev]; rfl) (fun j hj => ?_) (by rw [hev]; rfl)
    (fun j p hp => ?_) (.inr ?_)
  · rw [hev]
    cases j <;> first | rfl | contradiction
  · cases j with
    | time => exact .inl ((congrArg Tcb.eTimeout htcb).symm.trans hp)
    | fd =>
        obtain ⟨x, hx, hp⟩ := hp
        obtain rfl := Option.some.inj (hmap.symm.trans hx)
        rcases hp with hp | hp
        · rcases hread with heq | heq
          · exact .inl ⟨m, hm, .inl (heq.symm.trans hp)⟩
          · exact .inr ⟨rfl, (Option.some.inj (heq.symm.trans hp)).symm⟩
        · rcases hwrite with heq | heq
          · exact .inl ⟨m, hm, .inr (heq.symm.trans hp)⟩
          · exact .inr ⟨rfl, (Option.some.inj (heq.symm.trans hp)).symm⟩
    | always => exact .inl ((congrArg Tcb.eTcbSend htcb).symm.trans hp)
  · rw [hmap, hm, Option.map_some, Option.map_some, hfd]

theorem outputSpace {space : ℤ} (h : outputSpace c space = some c') : Local c c' := by
  obtain ⟨m, hm, h⟩ := Option.map_eq_some_iff.mp h
  split at h
  · subst h
    exact socket hm rfl rfl rfl rfl rfl (.inr rfl) (.inl rfl)
  · subst h
    exact refl c

theorem canRead (h : canRead c = some c') : Local c c' := by
  obtain ⟨m, hm, h⟩ := Option.map_eq_some_iff.mp h
  split at h
  · subst h
    exact socket hm rfl rfl rfl rfl rfl (.inl rfl) (.inr rfl)
  · subst h
    exact refl c

theorem cbOutputBufferSpace {space : ℤ} (h : cbOutputBufferSpace c space = some c') :
    Local c c' := by
  rw [Ptrtd.cbOutputBufferSpace] at h
  split at h
  · cases h
  · exact outputSpace h
  · cases h
    exact refl c

theorem cbDataAvailable (h : cbDataAvailable c = some c') : Local c c' := by
  rw [Ptrtd.cbDataAvailable] at h
  split at h
  · cases h
  · exact canRead h
  · cases h
    exact refl c

theorem cbClosing (h : cbClosing c = some c') : Local c c' := by
  rcases cbClosing_cases h with ⟨rfl, -⟩ | ⟨-, hkill⟩
  · exact refl c'
  · exact killMap hkill

/-! ## Segments -/

theorem handleRst (h : handleRst c = some c') : Local c c' := by
  obtain ⟨b, hb, rfl⟩ := Option.map_eq_some_iff.mp h
  exact (cbClosing hb).trans (tcbDelete rfl rfl rfl rfl rfl)

theorem ackTimer (c : Conn) (ack : Uint) (now : Timeval) : Local c (ackTimer c ack now) := by
  rw [Ptrtd.ackTimer]
  split
  · exact refl c
  · next p hp =>
      have hremove : Local c { c with ev := removeTimeEvent c.ev p } :=
        of_changed rfl (fun htidy => .removeTimeEvent (htidy.mine .time p hp)) (fun _ k q hq => .inl
          (by cases k <;> exact hq)) (.inr rfl)
      dsimp only
      split
      · split
        · exact (hremove.trans (setTimeout _ now)).trans (fields rfl rfl rfl rfl rfl)
        · exact hremove.trans (block rfl rfl rfl (.inl rfl) (.inr rfl))
      · exact refl c

theorem handleNewAck {ack : Uint} (h : handleNewAck c ack now = some c') : Local c c' := by
  have hack : (ackUna c.tcb ack now).eTcbSend = c.tcb.eTcbSend ∧
      (ackUna c.tcb ack now).eTimeout = c.tcb.eTimeout := by
    rw [ackUna]
    split <;> exact ⟨rfl, rfl⟩
  have hc : Local c { c with tcb := ackUna c.tcb ack now } := fields rfl rfl rfl hack.1 hack.2
  rw [Ptrtd.handleNewAck] at h
  dsimp only at h
  split at h
  · obtain ⟨b, hb, rfl⟩ := Option.map_eq_some_iff.mp h
    have hbuf : Local { c with tcb := ackUna c.tcb ack now } b := by
      refine trans ?_ (cbOutputBufferSpace hb)
      exact fields rfl rfl rfl rfl rfl
    exact (hc.trans hbuf).trans (ackTimer b ack now)
  iterate 3
    · cases h
      exact hc.trans (ackTimer _ ack now)
  · cases h
    exact hc

theorem handleAllAcked {f : Flow} (h : handleAllAcked c now = some f) : Local c f.conn := by
  rw [Ptrtd.handleAllAcked] at h
  split at h
  · obtain ⟨b, hb, rfl⟩ := Option.map_eq_some_iff.mp h
    have hopen : Local c { c with tcb := { c.tcb with state := .established } } :=
      fields rfl rfl rfl rfl rfl
    exact hopen.trans (cbOutputBufferSpace hb)
  · cases h
    exact tcbDelete rfl rfl rfl rfl rfl
  · split at h
    · cases h
      exact fields rfl rfl rfl rfl rfl
    · cases h
      exact refl c
  · split at h
    · cases h
      exact enterTimeWait c now
    · cases h
      exact refl c
  · cases h
    exact refl c

theorem handleAck {f : Flow} (h : handleAck c s now = some f) : Local c f.conn := by
  rcases handleAck_cases h with ⟨-, rfl⟩ | ⟨-, b, hnew, hall⟩
  · exact refl c
  · have hb : Local c b := by
      rcases hnew with ⟨-, hnew⟩ | ⟨-, rfl⟩
      · exact handleNewAck hnew
      · exact refl b
    rcases hall with ⟨-, hall⟩ | ⟨-, rfl⟩
    · exact hb.trans (handleAllAcked hall)
    · exact hb

theorem handleOld (c : Conn) : Local c (handleOld c) := by
  rw [Ptrtd.handleOld]
  split
  · exact refl c
  · exact of_mark rfl rfl rfl rfl (.inl rfl)

theorem handleWindow (c : Conn) (s : Segment) : Local c (handleWindow c s) := by
  rw [Ptrtd.handleWindow]
  dsimp only
  split
  · split
    · exact of_mark rfl rfl rfl rfl (.inl rfl)
    · exact fields rfl rfl rfl rfl rfl
  · exact fields rfl rfl rfl rfl rfl

theorem recvPayload (h : recvPayload c s = some c') : Local c c' := by
  rw [Ptrtd.recvPayload] at h
  split at h
  · obtain ⟨b, hb⟩ : ∃ b, b = Ptrtd.markForIfWrite
        { c with tcb := { c.tcb with rcvNxt := c.tcb.rcvNxt + BitVec.ofNat 32 s.data.length } } :=
      ⟨_, rfl⟩
    have hmark : Local c b := hb ▸ of_mark rfl rfl rfl rfl (.inl rfl)
    simp only [← hb] at h
    split at h
    · obtain ⟨⟨r, n⟩, -, h⟩ := Option.bind_eq_some_iff.mp h
      refine (hmark.trans ?_).trans (cbDataAvailable h)
      exact fields rfl rfl rfl rfl rfl
    · cases h
      exact hmark
  · cases h
    exact refl c

theorem recvFin (c : Conn) (s : Segment) : Local c (recvFin c s) := by
  rw [Ptrtd.recvFin]
  split
  · exact of_mark rfl rfl rfl rfl (.inl rfl)
  · exact refl c

theorem tcpRecvData {fin : Bool} (h : tcpRecvData c s = some (c', fin)) : Local c c' := by
  obtain ⟨b, hb, h⟩ := Option.map_eq_some_iff.mp h
  obtain ⟨rfl, rfl⟩ := Prod.mk.inj h
  exact (recvPayload hb).trans (recvFin b s)

theorem tcpRemoteClose (h : tcpRemoteClose c = some c') : Local c c' := by
  obtain ⟨b, hb, rfl⟩ := Option.map_eq_some_iff.mp h
  exact (cbClosing hb).trans (tcpClose b false)

theorem handleData (h : handleData c s now = some c') : Local c c' := by
  cases handleData_effect h with
  | ignored => exact refl _
  | data _ hrecv _ => exact tcpRecvData hrecv
  | finWait2 _ hrecv => exact (tcpRecvData hrecv).trans (enterTimeWait _ now)
  | finWait1 _ hrecv => exact (tcpRecvData hrecv).trans (fields rfl rfl rfl rfl rfl)
  | @closeWait b _ _ _ hrecv hclose =>
      have hstate : Local b { b with tcb := { b.tcb with state := .closeWait } } :=
        fields rfl rfl rfl rfl rfl
      exact ((tcpRecvData hrecv).trans hstate).trans (tcpRemoteClose hclose)

theorem handleTcp (h : handleTcp c s now = some c') : Local c c' := by
  rcases handleTcp_cases h with ⟨-, hrst⟩ | ⟨-, hdone⟩ | ⟨-, b, hnext, hrest⟩
  · exact handleRst hrst
  · exact handleAck hdone
  · have hb : Local c b := handleAck hnext
    rcases hrest with ⟨-, rfl⟩ | ⟨-, hdata⟩
    · exact hb.trans (handleOld b)
    · exact (hb.trans (handleWindow b s)).trans (handleData hdata)

/-! ## Socket callbacks -/

theorem handleFdCanRead {r : ReadResult} {again : Bool}
    (h : handleFdCanRead c r = some (c', again)) : Local c c' := by
  obtain ⟨m, hm, hcase⟩ := handleFdCanRead_cases h
  cases hcase with
  | full => exact refl c
  | again => exact refl c
  | closed _ hclose =>
      refine trans ?_ (closeBoth hclose)
      exact forget hm rfl rfl rfl rfl rfl (.inr rfl) (.inl rfl)
  | @filled d b _ hsend _ =>
      have hmap : b.map = some m := by
        obtain ⟨_, _, _, _, _, -, rfl⟩ := tcpSend_eq hsend
        exact hm
      exact (tcpSend hsend).trans (forget hmap rfl rfl rfl rfl rfl (.inr rfl) (.inl rfl))
  | sent _ hsend => exact tcpSend hsend

/-- The map after `handle_fd_can_write` has read. -/
theorem afterRead {m : TcpMap} {d : List Uchar} {tr : Trace} (hm : a.map = some m) :
    Local a { a with map := some (afterRead m d), trace := tr } := by
  rw [Ptrtd.afterRead]
  split
  · exact forget hm rfl rfl rfl rfl rfl (.inl rfl) (.inr rfl)
  · exact forget hm rfl rfl rfl rfl rfl (.inl rfl) (.inl rfl)

theorem handleFdCanWrite {r : WriteResult} {again : Bool}
    (h : handleFdCanWrite c r = some (c', again)) : Local c c' := by
  obtain ⟨m, hm, hcase⟩ := handleFdCanWrite_cases h
  have hmap : ∀ {a : Conn} {d : List Uchar}, Ptrtd.tcpRead c tbSize = some (a, d) →
      a.map = some m := fun hread => by
    obtain ⟨_, _, _, _, -, rfl⟩ := tcpRead_eq hread
    exact hm
  cases hcase with
  | again _ hread => exact (tcpRead hread).trans (afterRead (hmap hread))
  | closed _ hread hclose =>
      refine ((tcpRead hread).trans ?_).trans (closeBoth hclose)
      exact forget (hmap hread) rfl rfl rfl rfl rfl (.inl rfl) (.inr rfl)
  | wrote _ _ _ hread => exact (tcpRead hread).trans (afterRead (hmap hread))

theorem handleFdDidConnect {ok again : Bool} (h : handleFdDidConnect c ok = some (c', again)) :
    Local c c' := by
  obtain ⟨-, m, hm, ⟨-, rfl⟩ | ⟨-, hclose⟩⟩ := handleFdDidConnect_cases h
  · refine trans ?_ (tcpAccept _)
    exact forget hm rfl rfl rfl rfl rfl (.inl rfl) (.inr rfl)
  · refine trans ?_ (closeBoth hclose)
    exact forget hm rfl rfl rfl rfl rfl (.inl rfl) (.inr rfl)

/-! ## The steps -/

/-- `event_loop` unlinks an event of the connection. -/
theorem unlinked {ev : EventLists} (h : Kept c a) (hmine : c.ev.Mine (tcpOwns c.self) k addr)
    (hlist : ev.list k = delEvent addr (a.ev.list k)) (hother : ∀ j ≠ k, ev.list j = a.ev.list j)
    (hnext : ev.next = a.ev.next) : Kept c { a with ev := ev } := by
  have hunlink : Local a { a with ev := ev } :=
    of_changed rfl (fun _ => .remove (by rw [h.self]; exact hmine.changed h.ev) hlist hother hnext)
      (fun _ k q hq => .inl (by cases k <;> exact hq)) (.inr rfl)
  have hkept := hunlink h.tidy
  have hev := hkept.ev
  rw [h.self] at hev
  exact ⟨h.self, h.ev.trans hev, hkept.tidy, h.fd⟩

theorem runTimeEvent (htidy : Tidy c) (h : runTimeEvent c addr = some c') : Kept c c' := by
  obtain ⟨e, he, rfl, hdata, hcase⟩ := runTimeEvent_cases h
  have hmine : c.ev.Mine (tcpOwns c.self) .time e.addr :=
    htidy.addressed.mine (k := .time) he (by rw [hdata]; exact tcpOwns_tcb _)
  have hother : ∀ ev : EventLists, ∀ j ≠ ListKind.time,
      (removeTimeEvent ev e.addr).list j = ev.list j := fun ev j hj => by
    cases j <;> first | rfl | contradiction
  rcases hcase with ⟨-, rfl⟩ | ⟨-, rfl⟩
  · exact unlinked (tcpTimeout c htidy) hmine rfl (hother _) rfl
  · exact unlinked (tcpRemove c htidy) hmine rfl (hother _) rfl

theorem runAlwaysEvent (htidy : Tidy c) (h : runAlwaysEvent c addr now = some c') : Kept c c' := by
  obtain ⟨e, he, h⟩ := Option.bind_eq_some_iff.mp h
  obtain ⟨hmem, rfl, hdata⟩ := findEvent_spec he
  have hmine : c.ev.Mine (tcpOwns c.self) .always e.addr :=
    htidy.addressed.mine (k := .always) hmem (by rw [hdata]; exact tcpOwns_tcb _)
  split at h
  · obtain ⟨⟨a, again⟩, ha, rfl⟩ := Option.map_eq_some_iff.mp h
    have hkept := doTcbWrite ha htidy
    cases again with
    | true => exact hkept
    | false =>
        refine unlinked hkept hmine rfl (fun j hj => ?_) rfl
        cases j <;> first | rfl | contradiction
  · cases h

theorem runFdEvent {io : Io} (htidy : Tidy c) (h : runFdEvent c addr io = some c') :
    Kept c c' := by
  obtain ⟨e, he, rfl, hdata, a, again, rfl, hcase⟩ := runFdEvent_cases h
  have hmine : c.ev.Mine (tcpOwns c.self) .fd e.addr :=
    htidy.addressed.mine (k := .fd) he (by rw [hdata]; exact tcpOwns_tcpMap _)
  have hkept : Kept c a := by
    rcases hcase with ⟨r, -, -, hread⟩ | ⟨r, -, -, hwrite⟩ | ⟨ok, -, -, hconn⟩
    · exact handleFdCanRead hread htidy
    · exact handleFdCanWrite hwrite htidy
    · exact handleFdDidConnect hconn htidy
  rw [finishFd]
  split
  · exact hkept
  · refine unlinked hkept hmine rfl (fun j hj => ?_) rfl
    cases j <;> first | rfl | contradiction

end Local

/-- The inputs of a connection, apart from what the rest of the daemon does. -/
def Input.isOwn : Input → Bool
  | .others _ => false
  | _ => true

/-- Whatever a connection does, it leaves the events of all others alone, and keeps its socket
until it closes it. -/
theorem kept_of_step {i : Input} (htidy : Tidy c) (hown : i.isOwn = true)
    (h : step c i = some c') : Kept c c' := by
  rw [step.eq_def] at h
  split at h
  · cases i with
    | packet s now =>
        have hreceive : Local c (c.receive s) := .fields rfl rfl rfl rfl rfl
        exact hreceive.trans (.handleTcp h) htidy
    | timeEvent addr => exact Local.runTimeEvent htidy h
    | fdEvent addr io => exact Local.runFdEvent htidy h
    | alwaysEvent addr now => exact Local.runAlwaysEvent htidy h
    | call k =>
        dsimp only at h
        split at h
        · cases appCall_cases h with
          | accept => exact Local.tcpAccept c htidy
          | send _ _ hsend => exact Local.tcpSend hsend htidy
          | read hread => exact Local.tcpRead hread htidy
          | close => exact Local.tcpClose c _ htidy
        · cases h
    | others ev => cases hown
  · cases h

end Ptrtd
