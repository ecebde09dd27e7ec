import Ptrtd.Verification.Relay.Registration
import Ptrtd.Verification.Timer.Correctness

/-! # Maps and blocks

A map exists exactly as long as the block it belongs to is allocated and has not been closed
from our side. Therefore `handle_tcp` never calls through a `NULL` callback table or into a
map that has been freed, and no socket event outlives its map. -/

namespace Ptrtd

variable {a c c' : Conn} {s : Segment} {now : Timeval} {i : Input}

/-- The map exists exactly while the relay is attached to an allocated block. -/
def Attached (c : Conn) : Prop :=
  c.map.isSome = true ↔ c.live = true ∧ c.tcb.cb = some .tcpMapCb

namespace Attached

theorem of_eq (h : Attached c) (hmap : c'.map.isSome = c.map.isSome) (hlive : c'.live = c.live)
    (hcb : c'.tcb.cb = c.tcb.cb) : Attached c' := by
  rw [Attached, hmap, hlive, hcb]
  exact h

theorem of_none (hmap : c.map = none) (hgone : c.live = false ∨ c.tcb.cb = none) :
    Attached c := by
  rw [Attached, hmap]
  refine ⟨nofun, fun hrelay => ?_⟩
  rcases hgone with hdead | hcb
  · rw [hdead] at hrelay
    cases hrelay.1
  · rw [hcb] at hrelay
    cases hrelay.2

/-- An application that is attached can be called. -/
theorem callable (h : Attached c) (hlive : c.live = true) (hcb : c.tcb.cb.isSome = true) :
    Callable c := by
  cases happ : c.tcb.cb with
  | none =>
      rw [happ] at hcb
      cases hcb
  | some app =>
      cases app with
      | tcpMapCb => exact .inr ⟨happ, h.mpr ⟨hlive, happ⟩⟩
      | otherCb => exact .inl happ

/-! ## Segments -/

theorem handleRst (hwf : WellFormed c) (hrst : handleRst c = some c') : Attached c' := by
  obtain ⟨m, ev, b, hm, -, rfl⟩ := handleRst_eq hrst
  exact of_none (hwf.map_killed hm) (.inl rfl)

theorem handleNewAck {ack : Uint} (h : Attached c) (hack : handleNewAck c ack now = some c') :
    Attached c' := by
  obtain ⟨m, ev, r, d, o, e, k, w, hm, -, -, rfl⟩ := handleNewAck_eq hack
  exact h.of_eq hm rfl rfl

theorem handleAllAcked {f : Flow} (h : Attached c) (hwf : WellFormed c)
    (hf : handleAllAcked c now = some f) : Attached f.conn := by
  cases handleAllAcked_effect hf with
  | opened _ _ hchange =>
      obtain ⟨m, l, n, hm, rfl⟩ := hchange
      exact h.of_eq hm rfl rfl
  | deleted hstate =>
      have hcb : c.tcb.cb = none := hwf.cb_none (by rw [hstate]; nofun) (by rw [hstate]; nofun)
      have hmap : c.map = none := hwf.map_none (by rw [hcb]; nofun)
      exact of_none hmap (.inl rfl)
  | finAcked => exact h.of_eq rfl rfl rfl
  | bothClosed => exact h.of_eq rfl rfl rfl
  | stillClosing => exact h
  | other => exact h

theorem handleAck {f : Flow} (h : Attached c) (hwf : WellFormed c)
    (hf : handleAck c s now = some f) : Attached f.conn := by
  rcases handleAck_cases hf with ⟨-, rfl⟩ | ⟨-, b, hnew, hall⟩
  · exact h
  · have hb : Attached b ∧ WellFormed b := by
      rcases hnew with ⟨-, hnew⟩ | ⟨-, rfl⟩
      · exact ⟨h.handleNewAck hnew, hwf.handleNewAck hnew⟩
      · exact ⟨h, hwf⟩
    rcases hall with ⟨-, hall⟩ | ⟨-, rfl⟩
    · exact hb.1.handleAllAcked hb.2 hall
    · exact hb.1

theorem handleOld (h : Attached c) : Attached (handleOld c) := by
  obtain ⟨l, n, e, x, heq⟩ := handleOld_eq c
  rw [heq]
  exact h.of_eq rfl rfl rfl

theorem handleWindow (h : Attached c) (s : Segment) : Attached (handleWindow c s) := by
  obtain ⟨l, n, e, heq⟩ := handleWindow_eq c s
  rw [heq]
  exact h.of_eq rfl rfl rfl

theorem tcpRecvData {fin : Bool} (h : Attached c) (hrecv : tcpRecvData c s = some (c', fin)) :
    Attached c' := by
  obtain ⟨-, m, ev, e, r, w, x, hm, -, -, rfl⟩ := tcpRecvData_eq hrecv
  exact h.of_eq hm rfl rfl

theorem handleData (h : Attached c) (hwf : WellFormed c)
    (hdata : handleData c s now = some c') : Attached c' := by
  cases handleData_effect hdata with
  | ignored => exact h
  | data _ hrecv _ => exact h.tcpRecvData hrecv
  | finWait2 _ hrecv => exact (h.tcpRecvData hrecv).of_eq rfl rfl rfl
  | finWait1 _ hrecv => exact (h.tcpRecvData hrecv).of_eq rfl rfl rfl
  | closeWait hstate _ hrecv hclose =>
      have hb := (hwf.tcpRecvData (by rw [hstate]; nofun) hrecv).1
      obtain ⟨m, ev, e, b, hm, -, -, -, rfl⟩ := tcpRemoteClose_eq rfl hclose
      exact of_none (hb.map_killed hm) (.inr rfl)

theorem handleTcp (h : Attached c) (hwf : WellFormed c) (htcp : handleTcp c s now = some c') :
    Attached c' := by
  rcases handleTcp_cases htcp with ⟨-, hrst⟩ | ⟨-, hdone⟩ | ⟨-, b, hnext, hrest⟩
  · exact handleRst hwf hrst
  · exact h.handleAck hwf hdone
  · have hb : Attached b := h.handleAck hwf hnext
    have hwfb : WellFormed b := hwf.handleAck hnext
    rcases hrest with ⟨-, rfl⟩ | ⟨-, hdata⟩
    · exact hb.handleOld
    · exact (hb.handleWindow s).handleData (hwfb.handleWindow s) hdata

/-! ## Events and calls -/

theorem closedBoth (hclose : ClosedBoth c c') : Attached c' := by
  cases hclose with
  | reset => exact of_none rfl (.inl rfl)
  | fin => exact of_none rfl (.inr rfl)

theorem tcpSend {d : List Uchar} (h : Attached c) (hsend : tcpSend c d = some c') :
    Attached c' := by
  obtain ⟨r, k, l, n, e, -, rfl⟩ := tcpSend_eq hsend
  exact h.of_eq rfl rfl rfl

theorem tcpRead {len : ℤ} {d : List Uchar} (h : Attached c)
    (hread : tcpRead c len = some (c', d)) : Attached c' := by
  obtain ⟨l, n, e, x, -, rfl⟩ := tcpRead_eq hread
  exact h.of_eq rfl rfl rfl

theorem setMap {m : Option TcpMap} (h : Attached c) (hm : m.isSome = true)
    (hold : c.map.isSome = true) : Attached { c with map := m } :=
  h.of_eq (hm.trans hold.symm) rfl rfl

theorem canRead {r : ReadResult} {again : Bool} (h : Attached c) (hm : c.map.isSome = true)
    (hread : CanRead c r c' again) : Attached c' := by
  cases hread with
  | nothing => exact h
  | closed _ hclose => exact closedBoth hclose
  | sent _ _ hsend hm' =>
      have hold := (h.tcpSend hsend)
      obtain ⟨_, _, _, _, _, -, rfl⟩ := tcpSend_eq hsend
      exact hold.setMap hm' hm

theorem canWrite {r : WriteResult} {again : Bool} (h : Attached c) (hm : c.map.isSome = true)
    (hwrite : CanWrite c r c' again) : Attached c' := by
  cases hwrite with
  | again _ hread hm' =>
      have hold := h.tcpRead hread
      obtain ⟨_, _, _, _, -, rfl⟩ := tcpRead_eq hread
      exact hold.setMap hm' hm
  | closed _ _ hclose => exact closedBoth hclose
  | wrote _ _ _ hread hm' =>
      have hold := h.tcpRead hread
      obtain ⟨_, _, _, _, -, rfl⟩ := tcpRead_eq hread
      exact hold.of_eq (hm'.trans hm.symm) rfl rfl

theorem didConnect {ok again : Bool} (h : Attached c) (hm : c.map.isSome = true)
    (hconn : DidConnect c ok c' again) : Attached c' := by
  cases hconn with
  | @accepted m _ hm' =>
      obtain ⟨_, _, _, -, heq⟩ := tcpAccept_eq { c with map := m }
      rw [heq]
      exact h.of_eq (hm'.trans hm.symm) rfl rfl
  | closed _ hclose => exact closedBoth hclose

theorem wrote {again : Bool} (h : Attached c) (hw : Wrote c now c' again) : Attached c' := by
  cases hw with
  | syn => exact h.of_eq rfl rfl rfl
  | nothing => exact h.of_eq rfl rfl rfl
  | segment _ _ ha _ =>
      obtain ⟨l, n, e, k, m, r, w, x, heq⟩ := emitSegment_eq c _ _ now
      rw [heq] at ha
      subst ha
      exact h.of_eq rfl rfl rfl

/-- The calls of an application other than the relay, which has no map. -/
theorem of_other (hwf : WellFormed c) (hcb : c.tcb.cb = some .otherCb) (hmap : c'.map = c.map)
    (hcb' : c'.tcb.cb = c.tcb.cb ∨ c'.tcb.cb = none) : Attached c' := by
  have hnone : c.map = none := hwf.map_none (by rw [hcb]; nofun)
  rw [Attached, hmap, hnone]
  refine ⟨nofun, fun hrelay => ?_⟩
  rcases hcb' with hcb' | hcb' <;> rw [hcb'] at hrelay
  · rw [hcb] at hrelay
    cases hrelay.2
  · cases hrelay.2

/-- `tcp_remove` runs in `TIME_WAIT` only: the other states past the handshake have no other
timer than the one for retransmission. -/
theorem removed {e : Event} (hwf : WellFormed c) (htimer : TimerOk False c)
    (hlive : c.live = true) (he : e ∈ c.ev.timeEventList) (hown : c.owns e = true)
    (hf : e.func = .tcpRemove) : c.map = none := by
  refine Option.not_isSome_iff_eq_none.mp fun hs => ?_
  have hmem : e ∈ c.timers := List.mem_filter.mpr ⟨he, hown⟩
  have hest : c.tcb.state = .established :=
    (hwf.attached hs).resolve_left (hwf.timer_state hlive he hown)
  rcases htimer.guarded hlive (by rw [hest]; rfl) with ⟨hidle, -⟩ | ⟨x, hlist, -, hfunc, -⟩
  · rw [hidle.timers] at hmem
    cases hmem
  · rw [hlist] at hmem
    obtain rfl := List.mem_singleton.mp hmem
    rw [hf] at hfunc
    cases hfunc

theorem stepped (h : Attached c) (hwf : WellFormed c) (htimer : TimerOk False c)
    (hlive : c.live = true) (hstep : Stepped c i c') : Attached c' := by
  cases hstep with
  | @packet s now _ htcp =>
      have hr : Attached (c.receive s) := h.of_eq rfl rfl rfl
      exact hr.handleTcp (hwf.receive s) htcp
  | timeout =>
      obtain ⟨_, _, _, _, -, -, -, heq⟩ := tcpTimeout_eq c
      rw [heq]
      exact h.of_eq rfl rfl rfl
  | removed he hown hf =>
      have hnone : c.map = none := removed hwf htimer hlive he hown hf
      exact of_none hnone (.inl rfl)
  | canRead _ _ _ hm hread _ => exact (h.canRead hm hread).of_eq rfl rfl rfl
  | canWrite _ _ _ hm hwrite _ => exact (h.canWrite hm hwrite).of_eq rfl rfl rfl
  | didConnect _ _ _ hm hconn _ => exact (h.didConnect hm hconn).of_eq rfl rfl rfl
  | write _ _ _ hw _ => exact (h.wrote hw).of_eq rfl rfl rfl
  | accept =>
      obtain ⟨_, _, _, -, heq⟩ := tcpAccept_eq c
      rw [heq]
      exact h.of_eq rfl rfl rfl
  | send _ _ _ hsend => exact h.tcpSend hsend
  | read _ hread => exact h.tcpRead hread
  | @close hard hcb =>
      generalize hclosed : Ptrtd.tcpClose c hard = a
      cases tcpClose_cases hclosed with
      | reset => exact of_other hwf hcb rfl (.inl rfl)
      | fin => exact of_other hwf hcb rfl (.inr rfl)
  | others => exact h.of_eq rfl rfl rfl

theorem of_start {app : TcpCallback} (h : Start app c) : Attached c := by
  obtain ⟨self, isn, ev, syn, -, hopen⟩ := start_cases h
  cases hopen with
  | other hcb =>
      rw [Attached]
      refine ⟨nofun, fun hrelay => ?_⟩
      rw [hcb] at hrelay
      cases hrelay.2
  | @accepted m hcb =>
      obtain ⟨_, _, _, -, heq⟩ := tcpAccept_eq { Conn.fresh self app isn ev syn with map := some m }
      rw [heq]
      exact ⟨fun _ => ⟨rfl, hcb⟩, fun _ => rfl⟩
  | connecting hcb => exact ⟨fun _ => ⟨rfl, hcb⟩, fun _ => rfl⟩
  | failed _ hclose => exact closedBoth hclose

/-- This holds whatever the peer, the sockets and the application do. -/
theorem of_reached {ok : Conn → Input → Prop} (h : Reached ok c) : Attached c := by
  have hboth : (fun t => TimerOk False t ∧ Attached t) c := by
    apply h.invariant
    · intro _ _ hs
      exact ⟨.of_start hs, of_start hs⟩
    · intro _ _ _ hwf hinv _ hlive hstep
      exact ⟨hinv.1.stepped hwf hlive False.elim hstep, hinv.2.stepped hwf hinv.1 hlive hstep⟩
  exact hboth.2

end Attached

/-! ## No callback is made through a `NULL` table -/

theorem outputSpace_isSome {space : ℤ} (h : c.map.isSome = true) :
    (outputSpace c space).isSome = true := by
  rw [outputSpace, Option.isSome_map]
  exact h

theorem cbOutputBufferSpace_isSome {space : ℤ} (h : Callable c) :
    (cbOutputBufferSpace c space).isSome = true := by
  rcases h with hcb | ⟨hcb, hm⟩
  · rw [cbOutputBufferSpace, hcb]
    rfl
  · rw [cbOutputBufferSpace, hcb]
    exact outputSpace_isSome hm

theorem cbDataAvailable_isSome (h : Callable c) : (cbDataAvailable c).isSome = true := by
  rcases h with hcb | ⟨hcb, hm⟩
  · rw [cbDataAvailable, hcb]
    rfl
  · rw [cbDataAvailable, hcb]
    dsimp only
    rw [canRead, Option.isSome_map]
    exact hm

theorem cbClosing_isSome (h : c.tcb.cb.isSome = true → Callable c) :
    (cbClosing c).isSome = true := by
  cases hcb : c.tcb.cb with
  | none =>
      rw [cbClosing, hcb]
      rfl
  | some app =>
      rcases h (by rw [hcb]; rfl) with hother | ⟨hrelay, hm⟩
      · rw [cbClosing, hother]
        rfl
      · rw [cbClosing, hrelay]
        dsimp only
        rw [killMap, Option.isSome_map]
        exact hm

/-- A connection on which `handle_tcp` is defined for every segment. -/
structure Sound (c : Conn) : Prop where
  wellFormed : WellFormed c
  attached : Attached c
  live : c.live = true

namespace Sound

theorem callable (h : Sound c) (hcb : c.tcb.cb.isSome = true) : Callable c :=
  h.attached.callable h.live hcb

theorem handleRst (h : Sound c) : (handleRst c).isSome = true := by
  rw [Ptrtd.handleRst, Option.isSome_map]
  exact cbClosing_isSome h.callable

theorem handleNewAck (h : Sound c) (ack : Uint) (now : Timeval) :
    (handleNewAck c ack now).isSome = true := by
  obtain ⟨r, d, heq⟩ := ackUna_eq c.tcb ack now
  rw [Ptrtd.handleNewAck, heq]
  dsimp only
  split
  · next hest =>
      rw [Option.isSome_map]
      exact cbOutputBufferSpace_isSome (h.callable (h.wellFormed.cb.mpr (.inr hest)))
  iterate 4
    · rfl

theorem handleAllAcked (h : Sound c) (now : Timeval) : (handleAllAcked c now).isSome = true := by
  rw [Ptrtd.handleAllAcked]
  split
  · next hsyn =>
      rw [Option.isSome_map]
      exact cbOutputBufferSpace_isSome (h.callable (h.wellFormed.cb.mpr (.inl hsyn)))
  · rfl
  · split <;> rfl
  · split <;> rfl
  · rfl

/-- After the number has been taken over the connection is as sound as before. -/
theorem newAck (h : Sound c) (s : Segment) (now : Timeval) :
    ∃ b, (if s.ack > c.tcb.sndUna then Ptrtd.handleNewAck c s.ack now else some c) = some b ∧
      Sound b := by
  split
  · obtain ⟨b, hb⟩ := Option.isSome_iff_exists.mp (h.handleNewAck s.ack now)
    have hlive : b.live = c.live := by
      obtain ⟨_, _, _, _, _, _, _, _, -, -, -, rfl⟩ := handleNewAck_eq hb
      rfl
    exact ⟨b, hb, h.wellFormed.handleNewAck hb, h.attached.handleNewAck hb, hlive.trans h.live⟩
  · exact ⟨c, rfl, h⟩

theorem handleAck (h : Sound c) (s : Segment) (now : Timeval) :
    ∃ f, handleAck c s now = some f ∧ ∀ b, f = .next b → Sound b := by
  have hsome : (Ptrtd.handleAck c s now).isSome = true := by
    rw [Ptrtd.handleAck]
    split
    · obtain ⟨b, hb, hsound⟩ := h.newAck s now
      rw [hb, Option.bind_some]
      split
      · exact hsound.handleAllAcked now
      · rfl
    · rfl
  obtain ⟨f, hf⟩ := Option.isSome_iff_exists.mp hsome
  refine ⟨f, hf, ?_⟩
  rintro b rfl
  have hlive : b.live = c.live := by
    rcases handleAck_cases hf with ⟨-, hb⟩ | ⟨-, d, hnew, hall⟩
    · cases hb
      rfl
    · have hd : d.live = c.live := by
        rcases hnew with ⟨-, hnew⟩ | ⟨-, rfl⟩
        · obtain ⟨_, _, _, _, _, _, _, _, -, -, -, rfl⟩ := handleNewAck_eq hnew
          rfl
        · rfl
      rcases hall with ⟨-, hall⟩ | ⟨-, hb⟩
      · cases handleAllAcked_effect hall with
        | opened _ _ hchange =>
            obtain ⟨_, _, _, -, rfl⟩ := hchange
            exact hd
        | finAcked => exact hd
        | other => exact hd
      · cases hb
        exact hd
  exact ⟨h.wellFormed.handleAck hf, h.attached.handleAck h.wellFormed hf, hlive.trans h.live⟩

theorem handleWindow (h : Sound c) (s : Segment) : Sound (handleWindow c s) := by
  refine ⟨h.wellFormed.handleWindow s, h.attached.handleWindow s, ?_⟩
  obtain ⟨l, n, e, heq⟩ := handleWindow_eq c s
  rw [heq]
  exact h.live

theorem recvPayload (h : Sound c) (s : Segment) : (recvPayload c s).isSome = true := by
  obtain ⟨l, n, e, -, heq⟩ := markForIfWrite_eq
    { c with tcb := { c.tcb with rcvNxt := c.tcb.rcvNxt + BitVec.ofNat 32 s.data.length } }
  rw [Ptrtd.recvPayload, heq]
  dsimp only
  split
  · split
    · next hcb =>
        obtain ⟨r, k, hw, -⟩ := Buffer.rbWrite_spec h.wellFormed.inbuf.ok s.data
        rw [hw, Option.bind_some]
        exact cbDataAvailable_isSome (h.callable hcb)
    · rfl
  · rfl

theorem tcpRecvData (h : Sound c) (s : Segment) : (tcpRecvData c s).isSome = true := by
  rw [Ptrtd.tcpRecvData, Option.isSome_map]
  exact h.recvPayload s

theorem handleData (h : Sound c) (s : Segment) (now : Timeval) :
    (handleData c s now).isSome = true := by
  rw [Ptrtd.handleData]
  split
  · rw [Option.isSome_map]
    exact h.tcpRecvData s
  · rw [Option.isSome_map]
    exact h.tcpRecvData s
  · obtain ⟨⟨b, fin⟩, hb⟩ := Option.isSome_iff_exists.mp (h.tcpRecvData s)
    rw [hb, Option.bind_some]
    dsimp only
    split
    · rw [tcpRemoteClose, Option.isSome_map]
      refine cbClosing_isSome fun hcb => ?_
      have hatt : Attached b := h.attached.tcpRecvData hb
      have hlive : b.live = c.live := by
        obtain ⟨-, _, _, _, _, _, _, -, -, -, rfl⟩ := tcpRecvData_eq hb
        rfl
      exact hatt.callable (hlive.trans h.live) hcb
    · rfl
  · rfl

/-- Every segment is handled: no callback is missing and no map has been freed too early. -/
theorem handleTcp (h : Sound c) (s : Segment) (now : Timeval) :
    (handleTcp c s now).isSome = true := by
  rw [Ptrtd.handleTcp]
  split
  · exact h.handleRst
  · obtain ⟨f, hf, hnext⟩ := h.handleAck s now
    rw [hf, Option.bind_some]
    cases f with
    | done b => rfl
    | next b =>
        dsimp only
        split
        · rfl
        · exact ((hnext b rfl).handleWindow s).handleData s now

end Sound

/-! ## Ownership -/

/-- Who owns what between events, as far as one connection is concerned. -/
structure Owned (c : Conn) : Prop where
  map : c.map.isSome = true ↔ c.live = true ∧ c.tcb.cb = some .tcpMapCb
  cb : c.live = true →
    (c.tcb.cb.isSome = true ↔ c.tcb.state = .synRecvd ∨ c.tcb.state = .established)
  events : ∀ e ∈ c.ev.fdEventList, e.data = .tcpMap c.self → c.map.isSome = true
  calls : c.live = true → ∀ s now, (handleTcp (c.receive s) s now).isSome = true

/-- The map belongs to its block for as long as both exist. -/
theorem owned_of_registered {ok : Conn → Input → Prop} {exact : Prop} (h : Reached ok c)
    (hreg : Registered exact c) : Owned c := by
  have hwf := WellFormed.of_reached h
  have hatt := Attached.of_reached h
  refine ⟨hatt, fun _ => hwf.cb, fun e he hdata => ?_, fun hlive s now => ?_⟩
  · obtain ⟨m, hm, -⟩ := hreg.stored he hdata
    rw [hm]
    rfl
  · have hsound : Sound (c.receive s) := ⟨hwf.receive s, hatt.of_eq rfl rfl rfl, hlive⟩
    exact hsound.handleTcp s now

end Ptrtd
