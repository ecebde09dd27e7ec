import Ptrtd.Verification.Relay.Coherence

/-! # Maps and blocks

The maps in `tlist` and the blocks with a callback table point to each other in every run in which
no map keeps a pointer to a socket event that has been unlinked. The forged acknowledgement that
leaves such a pointer behind brings back the event of a map that has been freed. -/

namespace Ptrtd

open Lockstep LinkedList RelayMem

variable {s s' : Relay} {l : List Event} {t : ℕ}

namespace Relay

/-- `write` takes something of the data it is offered, or fails for good. -/
def WriteAccepts (s : Relay) : RelayInput → Prop
  | .fdEvent e (.write r) =>
      ∀ c ∈ s.connOfEvent e, 0 < c.tcb.inbuf.used → r ≠ .again ∧ r ≠ .wrote 0
  | _ => True

/-- `handle_fd_can_read` does not run without any output space, and `ALLOC` yields no block that an
event is still registered for. -/
def Unburdened (s : Relay) : RelayInput → Prop
  | .fdEvent e (.read _) => ∀ c ∈ s.connOfEvent e, tcpGetOutputSpace c.tcb ≠ 0
  | .syn t _ _ _ => ∀ x ∈ s.ev.timeEventList ++ s.ev.alwaysEventList, tcpOwns t x.data = false
  | _ => True

instance (s : Relay) : (i : RelayInput) → Decidable (s.WriteAccepts i)
  | .fdEvent e (.write _) =>
      inferInstanceAs (Decidable (∀ c ∈ s.connOfEvent e, 0 < c.tcb.inbuf.used → _ ∧ _))
  | .fdEvent _ (.read _) | .fdEvent _ (.connect _) | .packet _ _ _ | .syn _ _ _ _ | .timeEvent _
  | .alwaysEvent _ _ | .addFd _ _ _ _ | .removeFd _ | .others _ => isTrue trivial

instance (s : Relay) : (i : RelayInput) → Decidable (s.Unburdened i)
  | .fdEvent e (.read _) =>
      inferInstanceAs (Decidable (∀ c ∈ s.connOfEvent e, tcpGetOutputSpace c.tcb ≠ 0))
  | .syn t _ _ _ =>
      inferInstanceAs (Decidable (∀ x ∈ s.ev.timeEventList ++ s.ev.alwaysEventList,
        tcpOwns t x.data = false))
  | .fdEvent _ (.write _) | .fdEvent _ (.connect _) | .packet _ _ _ | .timeEvent _
  | .alwaysEvent _ _ | .addFd _ _ _ _ | .removeFd _ | .others _ => isTrue trivial

theorem Coherent.step {i : RelayInput} (h : s.Coherent l) (haccept : s.WriteAccepts i)
    (hfree : s.Unburdened i) (hstep : relayStep s i = some s') : ∃ l', s'.Coherent l' := by
  cases i with
  | packet t seg now => exact h.packet hstep
  | syn t p seg res => exact h.syn hfree hstep
  | timeEvent a => exact h.timeEvent hstep
  | fdEvent e io =>
      refine h.fdEvent (fun c hc => ?_) hstep
      cases io with
      | read r => exact hfree c hc
      | write r => exact fun hused => (haccept c hc hused).1
      | connect ok => exact trivial
  | alwaysEvent a now => exact h.alwaysEvent hstep
  | addFd fd write f d => exact h.addFd hstep
  | removeFd a => exact h.removeFd hstep
  | others ev => exact h.others hstep

/-- The states that are reached by steps that satisfy `ok`. -/
def Reached (ok : Relay → RelayInput → Prop) (s : Relay) : Prop :=
  ∃ s₀ : Relay, s₀.Start ∧ Transition.Run relayStep ok s₀ s

theorem Coherent.of_reached (h : Reached (fun s i => s.WriteAccepts i ∧ s.Unburdened i) s) :
    ∃ l, s.Coherent l := by
  obtain ⟨s₀, hstart, hrun⟩ := h
  have hall : (fun u : Relay => ∃ l, u.Coherent l) s := by
    apply hrun.invariant
    · exact ⟨[], .start hstart⟩
    · intro u i u' hu hok hstep
      obtain ⟨l, hl⟩ := hu
      exact hl.step hok.1 hok.2 hstep
  exact hall

/-! ## Runs -/

/-- The relay after `ptrtd_tcp_init`, with a map and a block at 0 that have been there before. -/
def initial : Relay where
  block _ := none
  mem :=
    { cell := fun _ => ⟨⟨-1, none, none⟩, 0⟩
      links := ⟨fun _ => none, fun _ => none⟩
      allocated := []
      tlist := none
      numTcpMaps := 0
      appData := fun _ => some 0
      event := fun _ => ⟨0, .ifReadCallback, .iface, .always⟩
      eventLinks := ⟨fun _ => none, fun _ => none⟩
      fdEventList := none }
  ev := ⟨[], [], [], 0⟩
  isn := 0

theorem start_initial : initial.Start where
  block _ := rfl
  allocated := rfl
  tlist := rfl
  numTcpMaps := rfl
  fdEventList := rfl
  addressed k := by cases k <;> exact ⟨List.nodup_nil, nofun⟩
  fd := rfl
  time := nofun
  always := nofun
  isn := rfl

/-- A segment of a client whose SYN has the sequence number 1000. -/
def reply (t : ℕ) (ack : Uint) (flags : BitVec 6) (data : List Uchar) : RelayInput :=
  .packet t ⟨1001, ack, flags, 8192, data⟩ ⟨0, 0⟩

/-- What is computed about an execution holds of some state that is reached. -/
theorem reached_of_exec {ok : Relay → RelayInput → Prop} [∀ s i, Decidable (ok s i)]
    {is : List RelayInput} {q : Relay → Bool} (hs : Reached ok s)
    (h : (Transition.exec relayStep ok s is).any q = true) : ∃ s, Reached ok s ∧ q s = true := by
  obtain ⟨s₀, hstart, hrun⟩ := hs
  obtain ⟨s', hrun', hq⟩ := Transition.exists_run_of_exec h
  exact ⟨s', ⟨s₀, hstart, hrun.trans hrun'⟩, hq⟩

/-- Two connections, of which the first relays a byte and the second is reset. -/
def twoConnections : List RelayInput :=
  [.syn 0 0 (clientSyn 8192) (.inProgress 4), .syn 1 1 (clientSyn 8192) (.connected 5),
    .fdEvent 0 (.connect true), .alwaysEvent 2 ⟨0, 0⟩, reply 0 0x10001 0x18 [7], reply 1 0 0x4 [],
    .fdEvent 5 (.write (.wrote 1))]

/-! ## One connection of many -/

/-- The connection of the block at `t` by itself: with the map that `app_data` leads to and the
events that `fd_event_list` leads to. -/
def connection (s : Relay) (t : ℕ) : Option Conn :=
  (s.load t).map fun c => c.attach (s.mem.mapAt t) (s.fdEvents.map s.mem.seen)

/-- The links of `fd_event_list` hold together, and each connection is in a state that it reaches
by itself. -/
theorem connection_in_memory (h : Reached (fun s i => s.WriteAccepts i ∧ s.Unburdened i) s) :
    IsList s.mem.eventLinks s.mem.fdEventList s.fdEvents ∧
      ∀ t c, s.connection t = some c → Ptrtd.Reached Unblocked c := by
  obtain ⟨l, hl⟩ := Coherent.of_reached h
  have hevents : s.fdEvents = l.map Event.addr := hl.lists.walk
  have hseen : s.fdEvents.map s.mem.seen = l := by
    rw [hevents, List.map_map]
    exact (List.map_congr_left hl.lists.seen).trans l.map_id
  refine ⟨hevents ▸ hl.lists.isList, fun t c hc => ?_⟩
  obtain ⟨c₀, hload, rfl⟩ := Option.map_eq_some_iff.mp hc
  rw [hseen]
  exact (hl.conn t c₀ hload).reached

/-- The first connection waits for more of both sides. -/
theorem connection_in_memory_two :
    ∃ s c, Reached (fun s i => s.WriteAccepts i ∧ s.Unburdened i) s ∧ s.connection 0 = some c ∧
      Ptrtd.Reached Unblocked c ∧ c.map = some ⟨4, some 3, none⟩ ∧
        c.ev.fdEventList.map Event.addr = [3] := by
  have hexec : (Transition.exec relayStep (fun s i => s.WriteAccepts i ∧ s.Unburdened i) initial
      twoConnections).any (fun s => (s.connection 0).any fun c =>
        c.map = some ⟨4, some 3, none⟩ ∧ c.ev.fdEventList.map Event.addr = [3]) = true := by
    decide +kernel
  obtain ⟨s, hreach, hs⟩ := reached_of_exec ⟨initial, start_initial, .refl⟩ hexec
  obtain ⟨c, hc, hobs⟩ := (Option.any_eq_true _ _).mp hs
  obtain ⟨hmap, hlist⟩ := of_decide_eq_true hobs
  exact ⟨s, c, hreach, hc, (connection_in_memory hreach).2 0 c hc, hmap, hlist⟩

/-! ## Possession -/

/-- `tlist` holds the maps `l`. They and the blocks with a callback table point to each other, and
no callback needs a table or a map that is not there. -/
structure Owned (s : Relay) (l : List ℕ) : Prop where
  list : IsList s.mem.links s.mem.tlist l
  count : s.mem.numTcpMaps = l.length
  map : ∀ p ∈ l, s.mem.appData (s.mem.cell p).tcb = some p ∧
    ∃ b, s.block (s.mem.cell p).tcb = some b ∧ b.tcb.cb.isSome = true
  block : ∀ t b, s.block t = some b → b.tcb.cb.isSome = true →
    ∃ p ∈ l, s.mem.appData t = some p ∧ (s.mem.cell p).tcb = t
  cb : ∀ t b, s.block t = some b →
    (b.tcb.cb.isSome = true ↔ b.tcb.state = .synRecvd ∨ b.tcb.state = .established)
  calls : ∀ t b, s.block t = some b → ∀ seg now, (relayStep s (.packet t seg now)).isSome = true
  events : ∀ e ∈ s.fdEvents, ∀ p, (s.mem.event e).data = .tcpMap p → p ∈ l

theorem Coherent.possession (h : s.Coherent l) : ∃ k, s.Owned k := by
  obtain ⟨k, hk⟩ := h.maps
  refine ⟨k, hk.isList, hk.count, fun p hp => ?_, fun t b hb hcb => ?_, fun t b hb => ?_,
    fun t b hb seg now => ?_, fun e he p hdata => ?_⟩
  · obtain ⟨happ, hsome⟩ := h.owned p ((hk.mem p).mp hp)
    obtain ⟨b, hb⟩ := Option.isSome_iff_exists.mp hsome
    have hmap : s.mem.IsMap (s.mem.cell p).tcb p := ⟨happ, (hk.mem p).mp hp, rfl⟩
    have hcb := ((h.conn _ _ (load_of_block hb)).owned.map.mp (by
      rw [show (Conn.attach _ (s.mem.mapAt (s.mem.cell p).tcb) l).map = _ from hmap.mapAt]
      rfl)).2
    exact ⟨happ, b, hb, by rw [show b.tcb.cb = some .tcpMapCb from hcb]; rfl⟩
  · have hrelay : b.tcb.cb = some .tcpMapCb := by
      have hnot := h.relayed t b hb
      cases happ : b.tcb.cb with
      | none =>
          rw [happ] at hcb
          cases hcb
      | some app =>
          cases app with
          | tcpMapCb => rfl
          | otherCb => exact absurd happ hnot
    have hmap := (h.conn t _ (load_of_block hb)).owned.map.mpr ⟨rfl, hrelay⟩
    obtain ⟨map, hmap⟩ := Option.isSome_iff_exists.mp hmap
    obtain ⟨p, hp, -⟩ := exists_isMap hmap
    exact ⟨p, (hk.mem p).mpr hp.allocated, hp.appData, hp.tcb⟩
  · exact (h.conn t _ (load_of_block hb)).owned.cb rfl
  · have hcalls := (h.conn t _ (load_of_block hb)).owned.calls rfl seg now
    obtain ⟨d, hd⟩ := Option.isSome_iff_exists.mp hcalls
    have hrel := ((h.sim (load_of_block hb)).receive seg).handleTcp seg now
    rw [hd] at hrel
    obtain ⟨x, hx, -⟩ := exists_of_rel hrel
    rw [relayStep, load_of_block hb, Option.bind_some, hx]
    rfl
  · obtain ⟨x, hx, rfl, -⟩ := h.exists_event he
    exact (hk.mem p).mpr ((h.backed x hx).mem hdata)

/-- Whatever segments arrive, forged ones among them, maps and blocks belong to each other, as long
as no socket event is unlinked while its map keeps the pointer. -/
theorem owned_of_unburdened (h : Reached (fun s i => s.WriteAccepts i ∧ s.Unburdened i) s) :
    ∃ l, s.Owned l := by
  obtain ⟨l, hl⟩ := Coherent.of_reached h
  exact hl.possession

/-- The first connection is left, the second is gone. -/
theorem owned_of_unburdened_two :
    ∃ s, Reached (fun s i => s.WriteAccepts i ∧ s.Unburdened i) s ∧ (∃ l, s.Owned l) ∧
      s.mem.tlist = some 0 ∧ s.mem.numTcpMaps = 1 := by
  have hexec : (Transition.exec relayStep (fun s i => s.WriteAccepts i ∧ s.Unburdened i) initial
      twoConnections).any (fun s => s.mem.tlist = some 0 ∧ s.mem.numTcpMaps = 1) = true := by
    decide +kernel
  obtain ⟨s, hreach, hs⟩ := reached_of_exec ⟨initial, start_initial, .refl⟩ hexec
  exact ⟨s, hreach, owned_of_unburdened hreach, of_decide_eq_true hs⟩

/-- A map that is made and freed again leaves the memory as it was. -/
theorem killMap_newMap_initial {c : Conn} (hclosed : c.trace.closed = false) :
    (({ initial.mem with appData := Function.update initial.mem.appData 0 none } :
      RelayMem).newMap 0 0 (-1)).killMap c 0 = some (c, initial.mem) := by
  have htrace : { c with trace := { c.trace with closed := false } } = c := by rw [← hclosed]
  simp [RelayMem.killMap, RelayMem.newMap, initial, Links.unlink, Links.setPrev?, Links.setNext?,
    Links.setPrev, Links.setNext, RelayMem.removeFd?, hclosed, htrace]

/-- A connection for which no socket can be had is gone at once. -/
theorem noSocket_initial (n : Uint) :
    relayStep { initial with isn := n } (.syn 0 0 (clientSyn 8192) .noSocket) =
      some { initial with isn := n + 1 } := by
  obtain ⟨c, hc⟩ : ∃ c, c = tcpClose
    ⟨0, newTcb .tcpMapCb n (clientSyn 8192), true, none, initial.ev, Trace.start (clientSyn 8192)⟩
      false := ⟨_, rfl⟩
  have hsyn : initial.mem.handleSyn 0 .tcpMapCb n initial.ev (clientSyn 8192) 0 .noSocket =
      some (c, initial.mem) := by
    have hkill := killMap_newMap_initial (c := c) (by rw [hc]; rfl)
    rw [hc] at hkill ⊢
    exact hkill
  have hstore : ({ initial with isn := n } : Relay).store (c, initial.mem) =
      { initial with isn := n } := by
    have hblock : Function.update initial.block 0 none = initial.block :=
      Function.update_eq_self 0 initial.block
    rw [hc]
    exact congrArg (fun b => ({ initial with block := b, isn := n } : Relay)) hblock
  have hstep : relayStep { initial with isn := n } (.syn 0 0 (clientSyn 8192) .noSocket) =
      (initial.mem.handleSyn 0 .tcpMapCb n initial.ev (clientSyn 8192) 0 .noSocket).map fun x =>
        { ({ initial with isn := n } : Relay).store x with isn := n + 1 } := by
    rw [relayStep]
    exact if_pos ⟨rfl, List.not_mem_nil⟩
  rw [hstep, hsyn, Option.map_some, hstore]

theorem reached_initial (n : ℕ) :
    Reached WriteAccepts { initial with isn := BitVec.ofNat 32 n } := by
  induction n with
  | zero => exact ⟨initial, start_initial, .refl⟩
  | succ n ih =>
      obtain ⟨s₀, hstart, hrun⟩ := ih
      refine ⟨s₀, hstart, hrun.tail (i := .syn 0 0 (clientSyn 8192) .noSocket) trivial ?_⟩
      rw [noSocket_initial, BitVec.ofNat_add]
      rfl

/-- A forged acknowledgement fills `outbuf` to the brim, so that the read event of a connection is
unlinked and its map keeps the pointer. `kill_map` unlinks it once more, through links that lead to
the event of a map that has been freed: it is back in the list. -/
theorem not_owned_after_forged_ack :
    ¬∀ s, Reached WriteAccepts s → ∃ l, s.Owned l := by
  intro hall
  have hexec : (Transition.exec relayStep WriteAccepts
      { initial with isn := BitVec.ofNat 32 0xFFFE }
      [.addFd 3 false .ifReadCallback .iface, .syn 0 0 (clientSyn 8192) (.inProgress 4),
        .syn 1 1 (clientSyn 8192) (.connected 5), .alwaysEvent 2 ⟨0, 0⟩, reply 1 1 0x10 [],
        .syn 2 2 (clientSyn 8192) (.inProgress 6), reply 1 0xFFFFC001 0x10 [],
        .fdEvent 3 (.read .again), reply 0 0 0x4 [], reply 1 0 0x4 []]).any
      (fun s => 1 ∈ s.fdEvents ∧ (s.mem.event 1).data = .tcpMap 0 ∧ s.mem.tlist = some 2 ∧
        s.mem.numTcpMaps = 1) = true := by
    decide +kernel
  obtain ⟨s, hreach, hs⟩ := reached_of_exec (reached_initial 0xFFFE) hexec
  obtain ⟨hlist, hdata, htlist, hcount⟩ := of_decide_eq_true hs
  obtain ⟨l, howned⟩ := hall s hreach
  have hmem : 0 ∈ l := howned.events 1 hlist 0 hdata
  -- `tlist` holds one map, and this is another
  have hhead : l.head? = some 2 := howned.list.head.symm.trans htlist
  have hlen : l.length = 1 := by
    have hcount' := howned.count
    rw [hcount] at hcount'
    omega
  obtain ⟨p, rfl⟩ := List.length_eq_one_iff.mp hlen
  obtain rfl := Option.some.inj hhead
  cases List.mem_singleton.mp hmem

end Relay

end Ptrtd
