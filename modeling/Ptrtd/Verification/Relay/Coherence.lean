import Ptrtd.Verification.Relay.Ownership
import Ptrtd.Verification.Relay.Simulation
import Ptrtd.Verification.System.Invariant

/-! # Connections side by side in memory

A step of the relay is a step of one connection, or changes nothing that is a connection's. The
pointers then lead to what each connection has by itself, as long as no map keeps a pointer to an
event that has been unlinked. -/

namespace Ptrtd

open Lockstep LinkedList RelayMem

variable {s s' : Relay} {m m₀ : RelayMem} {l l' : List Event} {t p e : ℕ} {c c' d d' : Conn}
  {map : TcpMap} {again : Bool}

/-! ## The event that runs -/

theorem addr_mem_delEvent {b : ℕ} (he : e ∈ l.map Event.addr) (hne : b ≠ e) :
    e ∈ (delEvent b l).map Event.addr := by
  obtain ⟨x, hx, haddr⟩ := List.mem_map.mp he
  exact List.mem_map.mpr ⟨x, mem_delEvent.mpr ⟨hx, fun heq => hne (heq ▸ haddr)⟩, haddr⟩

/-- `kill_map` leaves what the map does not point to. -/
theorem listed_of_killMap (hm : c.map = some map) (hread : map.eFdRead ≠ some e)
    (hwrite : map.eFdWrite ≠ some e) (he : e ∈ c.ev.fdEventList.map Event.addr)
    (h : killMap c = some c') : e ∈ c'.ev.fdEventList.map Event.addr := by
  rw [killMap, hm, Option.map_some] at h
  obtain rfl := Option.some.inj h
  have hkeep : ∀ (a : Option ℕ) (ev : EventLists), a ≠ some e →
      e ∈ ev.fdEventList.map Event.addr → e ∈ (removeFd? ev a).fdEventList.map Event.addr := by
    intro a ev ha hmem
    cases a with
    | none => exact hmem
    | some b => exact addr_mem_delEvent hmem fun heq => ha (congrArg some heq)
  exact hkeep _ _ hread (hkeep _ _ hwrite he)

theorem listed_of_closeBoth (h : closeBoth c = some c') (hm : c.map = some map)
    (hread : map.eFdRead ≠ some e) (hwrite : map.eFdWrite ≠ some e)
    (he : e ∈ c.ev.fdEventList.map Event.addr) : e ∈ c'.ev.fdEventList.map Event.addr := by
  obtain ⟨hmap, hlist⟩ := (BlockOnly.tcpClose false).fixed c
  refine listed_of_killMap (hmap.trans hm) hread hwrite ?_ h
  rw [hlist]
  exact he

theorem listed_of_canRead {r : ReadResult} (hm : c.map = some map) (hwrite : map.eFdWrite ≠ some e)
    (he : e ∈ c.ev.fdEventList.map Event.addr) (h : handleFdCanRead c r = some (c', again)) :
    e ∈ c'.ev.fdEventList.map Event.addr := by
  obtain ⟨m, hm', hcase⟩ := handleFdCanRead_cases h
  obtain rfl := Option.some.inj (hm.symm.trans hm')
  cases hcase with
  | full => exact he
  | again => exact he
  | closed _ hclose => exact listed_of_closeBoth hclose rfl (by nofun) hwrite he
  | filled _ hsend =>
      obtain ⟨_, _, _, _, _, -, rfl⟩ := tcpSend_eq hsend
      exact he
  | sent _ hsend =>
      obtain ⟨_, _, _, _, _, -, rfl⟩ := tcpSend_eq hsend
      exact he

theorem listed_of_canWrite {r : WriteResult} (hm : c.map = some map) (hread : map.eFdRead ≠ some e)
    (he : e ∈ c.ev.fdEventList.map Event.addr) (h : handleFdCanWrite c r = some (c', again)) :
    e ∈ c'.ev.fdEventList.map Event.addr := by
  obtain ⟨m, hm', hcase⟩ := handleFdCanWrite_cases h
  obtain rfl := Option.some.inj (hm.symm.trans hm')
  cases hcase with
  | again _ htake =>
      obtain ⟨_, _, _, _, -, rfl⟩ := tcpRead_eq htake
      exact he
  | closed _ htake hclose =>
      obtain ⟨_, _, _, _, -, rfl⟩ := tcpRead_eq htake
      exact listed_of_closeBoth hclose rfl hread (by nofun) he
  | wrote _ _ _ htake =>
      obtain ⟨_, _, _, _, -, rfl⟩ := tcpRead_eq htake
      exact he

theorem listed_of_didConnect {ok : Bool} (hm : c.map = some map) (hread : map.eFdRead ≠ some e)
    (he : e ∈ c.ev.fdEventList.map Event.addr) (h : handleFdDidConnect c ok = some (c', again)) :
    e ∈ c'.ev.fdEventList.map Event.addr := by
  obtain ⟨-, m, hm', ⟨-, rfl⟩ | ⟨-, hclose⟩⟩ := handleFdDidConnect_cases h
  · rw [(BlockOnly.tcpAccept.fixed _).2]
    exact he
  · obtain rfl := Option.some.inj (hm.symm.trans hm')
    exact listed_of_closeBoth hclose rfl hread (by nofun) he

variable {x : Event}

theorem runFdEvent_read {r : ReadResult}
    (hfind : findEvent c.ev.fdEventList e (.tcpMap c.self) = some x)
    (hf : x.func = .handleFdCanRead) (h : handleFdCanRead c r = some (c', again)) :
    runFdEvent c e (.read r) = some (finishFd e c' again) := by
  rw [runFdEvent, hfind, Option.bind_some]
  dsimp only
  rw [hf]
  dsimp only
  rw [h]
  rfl

theorem runFdEvent_write {r : WriteResult}
    (hfind : findEvent c.ev.fdEventList e (.tcpMap c.self) = some x)
    (hf : x.func = .handleFdCanWrite) (h : handleFdCanWrite c r = some (c', again)) :
    runFdEvent c e (.write r) = some (finishFd e c' again) := by
  rw [runFdEvent, hfind, Option.bind_some]
  dsimp only
  rw [hf]
  dsimp only
  rw [h]
  rfl

theorem runFdEvent_connect {ok : Bool}
    (hfind : findEvent c.ev.fdEventList e (.tcpMap c.self) = some x)
    (hf : x.func = .handleFdDidConnect) (h : handleFdDidConnect c ok = some (c', again)) :
    runFdEvent c e (.connect ok) = some (finishFd e c' again) := by
  rw [runFdEvent, hfind, Option.bind_some]
  dsimp only
  rw [hf]
  dsimp only
  rw [h]
  rfl

/-- The condition is about the block. -/
theorem Unblocked.attach {i : Input} {m : Option TcpMap} (h : Unblocked c i) :
    Unblocked (c.attach m l) i := by
  cases i with
  | fdEvent a io => cases io <;> exact h
  | _ => exact trivial

/-! ## Connections and memory -/

/-- A connection that has been reached without a pointer left behind. -/
structure Steady (c : Conn) : Prop where
  tidy : Tidy c
  reached : Reached Unblocked c

namespace Steady

theorem registered (h : Steady c) : Registered True c := .of_unblocked (fun _ _ => id) h.reached

theorem owned (h : Steady c) : Owned c := owned_of_registered h.reached h.registered

/-- A step of the connection itself. -/
theorem step {i : Input} (h : Steady c) (hown : i.isOwn = true) (hok : Unblocked c i)
    (hstep : Ptrtd.step c i = some c') : Steady c' ∧ c.ev.Changed (tcpOwns c.self) c'.ev := by
  have hkept := kept_of_step h.tidy hown hstep
  exact ⟨⟨hkept.tidy, h.reached.tail hok hstep⟩, hkept.ev⟩

/-- Another owner's changes. -/
theorem others (h : Steady c) (hlive : c.live = true) (own : DataRef → Bool) {ev : EventLists}
    (hev : c.ev.Changed own ev) (hother : ∀ d, own d = true → tcpOwns c.self d = false) :
    Steady { c with ev } := by
  refine ⟨h.tidy.others own hev, h.reached.tail (i := .others ev) trivial ?_⟩
  rw [Ptrtd.step.eq_def]
  dsimp only
  rw [if_pos hlive, if_pos (othersChanged_of_changed own hev hother)]

theorem linked (h : Steady c) : Linked c := by
  intro map hm
  have hreg := h.registered
  refine ⟨fun e he => ?_, hreg.apart map hm⟩
  obtain ⟨x, hx, -, rfl⟩ := (hreg.noOrphan trivial).pending map hm e he
  exact List.mem_map_of_mem hx

end Steady

/-- The pointers lead to the maps and the socket events, and each connection is as it would be by
itself. -/
structure Relay.Coherent (s : Relay) (l : List Event) : Prop where
  lists : s.mem.Lists l s.ev.next
  maps : ∃ k, s.mem.Maps k
  backed : ∀ e ∈ l, Backed s.mem (s.mem.event e.addr).data
  owned : ∀ q ∈ s.mem.allocated, s.mem.appData (s.mem.cell q).tcb = some q ∧
    (s.block (s.mem.cell q).tcb).isSome = true
  addressed : ({ s.ev with fdEventList := l } : EventLists).Addressed
  relayed : ∀ t b, s.block t = some b → b.tcb.cb ≠ some .otherCb
  conn : ∀ t c, s.load t = some c → Steady (c.attach (s.mem.mapAt t) l)

namespace Relay

/-- The connection that a socket event belongs to. -/
def connOfEvent (s : Relay) (e : ℕ) : Option Conn :=
  (s.mapOfEvent e).bind fun p => s.load (s.mem.cell p).tcb

theorem load_eq (h : s.load t = some c) : c.self = t ∧ c.live = true ∧ c.ev = s.ev ∧
    s.block t = some ⟨c.tcb, c.trace⟩ := by
  obtain ⟨b, hb, rfl⟩ := Option.map_eq_some_iff.mp h
  exact ⟨rfl, rfl, rfl, hb⟩

theorem mapOfEvent_eq (h : s.mapOfEvent e = some p) :
    e ∈ s.fdEvents ∧ (s.mem.event e).data = .tcpMap p := by
  rw [mapOfEvent] at h
  split at h
  · next he =>
      split at h
      · next q hq =>
          cases h
          exact ⟨he, hq⟩
      · cases h
  · cases h

theorem runFdEvent_cases {io : Io} (h : s.runFdEvent e p io = some s') :
    p ∈ s.mem.allocated ∧ ∃ c x, s.load (s.mem.cell p).tcb = some c ∧
      s' = s.store (if x.2 then x.1 else (x.1.1, x.1.2.removeFdEvent e)) ∧
        ((∃ r, (s.mem.event e).func = .handleFdCanRead ∧ io = .read r ∧
            s.mem.handleFdCanRead c p r = some x) ∨
          (∃ r, (s.mem.event e).func = .handleFdCanWrite ∧ io = .write r ∧
            s.mem.handleFdCanWrite c p r = some x) ∨
          ∃ ok, (s.mem.event e).func = .handleFdDidConnect ∧ io = .connect ok ∧
            s.mem.handleFdDidConnect c p ok = some x) := by
  rw [runFdEvent] at h
  split at h
  · next hp =>
      obtain ⟨c, hload, hrun⟩ := Option.bind_eq_some_iff.mp h
      clear h
      refine ⟨hp, c, ?_⟩
      dsimp only at hrun
      split at hrun
      · next hfunc =>
          obtain ⟨x, hx, rfl⟩ := Option.map_eq_some_iff.mp hrun
          exact ⟨x, hload, rfl, .inl ⟨_, hfunc, rfl, hx⟩⟩
      · next hfunc =>
          obtain ⟨x, hx, rfl⟩ := Option.map_eq_some_iff.mp hrun
          exact ⟨x, hload, rfl, .inr (.inl ⟨_, hfunc, rfl, hx⟩)⟩
      · next hfunc =>
          obtain ⟨x, hx, rfl⟩ := Option.map_eq_some_iff.mp hrun
          exact ⟨x, hload, rfl, .inr (.inr ⟨_, hfunc, rfl, hx⟩)⟩
      · cases hrun
  · cases h

theorem load_of_block {b : Block} (h : s.block t = some b) : s.load t = some
    { self := t, tcb := b.tcb, live := true, map := none, ev := s.ev, trace := b.trace } := by
  rw [load, h]
  rfl

theorem store_block_of_ne {x : Conn × RelayMem} {u : ℕ} (hu : u ≠ x.1.self) :
    (s.store x).block u = s.block u := Function.update_of_ne hu ..

theorem store_block_self (s : Relay) (x : Conn × RelayMem) : (s.store x).block x.1.self =
    if x.1.live then some ⟨x.1.tcb, x.1.trace⟩ else none := Function.update_self ..

/-- What has been stored is what is loaded next. -/
theorem load_store {x : Conn × RelayMem} (h : (s.store x).load x.1.self = some c) :
    x.1.live = true ∧ ∀ map l, c.attach map l = x.1.attach map l := by
  obtain ⟨b, hb, rfl⟩ := Option.map_eq_some_iff.mp h
  rw [store_block_self] at hb
  split at hb
  · next hlive =>
      obtain rfl := Option.some.inj hb
      refine ⟨hlive, fun map l => ?_⟩
      rw [← hlive]
      rfl
  · cases hb

/-- A block that has not been worked on is the same, except for the events of others. -/
theorem load_store_of_ne {x : Conn × RelayMem} {u : ℕ} (hu : u ≠ x.1.self)
    (h : (s.store x).load u = some c) :
    ∃ c₀, s.load u = some c₀ ∧ c = { c₀ with ev := x.1.ev } := by
  obtain ⟨b, hb, rfl⟩ := Option.map_eq_some_iff.mp h
  rw [store_block_of_ne hu] at hb
  exact ⟨_, load_of_block hb, rfl⟩

namespace Coherent

/-- A block is worked on as if it were alone. -/
theorem sim (h : s.Coherent l) (hload : s.load t = some c) :
    Sim s.mem t (c, s.mem) (c.attach (s.mem.mapAt t) l) := by
  obtain ⟨hself, hlive, hev, hblock⟩ := load_eq hload
  have hsteady := h.conn t c hload
  refine
    { self := hself
      frame := .refl ..
      lists := hev ▸ h.lists
      maps := h.maps
      backed := h.backed
      relayed := h.relayed t _ hblock
      view := rfl
      linked := hsteady.linked
      anchor := fun hcb q happ _ => ?_ }
  have hmap : (s.mem.mapAt t).isSome = true := hsteady.owned.map.mpr ⟨hlive, hcb⟩
  obtain ⟨map, hmap⟩ := Option.isSome_iff_exists.mp hmap
  obtain ⟨p, hp, -⟩ := exists_isMap hmap
  obtain rfl := Option.some.inj (hp.appData.symm.trans happ)
  exact hp.tcb

/-- A map that is allocated has its block, and an event that is registered has its map. -/
theorem owned_views {x : Conn × RelayMem} (hviews : Views m₀ t x d) (hsteady : Steady d)
    (howned : ∀ q ∈ m₀.allocated, m₀.appData (m₀.cell q).tcb = some q) :
    (∀ e ∈ d.ev.fdEventList, Backed x.2 (x.2.event e.addr).data) ∧
      ∀ q ∈ x.2.allocated, x.2.appData (x.2.cell q).tcb = some q ∧
        ((x.2.cell q).tcb = t → x.1.live = true) := by
  obtain ⟨c, m⟩ := x
  have hframe : Framed t m₀ m := hviews.frame
  have hview := hviews.view
  have hmap : d.map = m.mapAt t := congrArg Conn.map hview
  have happ : ∀ q ∈ m.allocated, m.appData (m.cell q).tcb = some q := by
    intro q hq
    rw [hframe.appData, hframe.tcb]
    exact howned q (hframe.gone q hq)
  refine ⟨fun e he => (hviews.backed e he).imp fun q hq hold => ?_, fun q hq => ⟨happ q hq, ?_⟩⟩
  · by_cases htcb : (m₀.cell q).tcb = t
    · have hself : d.self = t := (congrArg Conn.self hview).trans hviews.self
      have hdata : e.data = .tcpMap d.self := by
        have hseen := congrArg Event.data (hviews.lists.seen e he)
        rw [RelayMem.seen, show (m.event e.addr).data = .tcpMap q from hq] at hseen
        rw [← hseen, hself, ← htcb, ← hframe.tcb q]
        rfl
      obtain ⟨map, hsome⟩ := Option.isSome_iff_exists.mp (hsteady.owned.events e he hdata)
      obtain ⟨q', hq', -⟩ := exists_isMap (hmap.symm.trans hsome)
      have hsame : some q' = some q := by
        rw [← hq'.appData, hframe.appData, ← htcb]
        exact howned q hold
      obtain rfl := Option.some.inj hsame
      exact hq'.allocated
    · exact (hframe.cell q htcb).2 hold
  · intro htcb
    have hq' : m.IsMap t q := ⟨htcb ▸ happ q hq, hq, htcb⟩
    have hlive : d.live = true := by
      refine (hsteady.owned.map.mp ?_).1
      rw [hmap, hq'.mapAt]
      rfl
    exact (congrArg Conn.live hview).symm.trans hlive

/-- One block has been worked on. `m₀` is the memory after its map has been made, if it is new. -/
theorem store {x : Conn × RelayMem} (h : s.Coherent l) (hviews : Views m₀ t x d)
    (hsteady : Steady d)
    (hchanged : ({ s.ev with fdEventList := l } : EventLists).Changed (tcpOwns t) d.ev)
    (hothers : ∀ u, u ≠ t → m₀.mapAt u = s.mem.mapAt u)
    (howned : ∀ q ∈ m₀.allocated, m₀.appData (m₀.cell q).tcb = some q ∧
      ((m₀.cell q).tcb = t ∨ (s.block (m₀.cell q).tcb).isSome = true)) :
    (s.store x).Coherent d.ev.fdEventList := by
  obtain ⟨hbacked, hkept⟩ := owned_views hviews hsteady fun q hq => (howned q hq).1
  have hself : x.1.self = t := hviews.self
  have hframe : Framed t m₀ x.2 := hviews.frame
  have hev : d.ev = { x.1.ev with fdEventList := d.ev.fdEventList } := congrArg Conn.ev hviews.view
  refine ⟨hviews.lists, hviews.maps, hbacked, fun q hq => ?_, ?_, fun u b hb => ?_,
    fun u c hload => ?_⟩
  · obtain ⟨happ, hlive⟩ := hkept q hq
    refine ⟨happ, ?_⟩
    change ((s.store x).block (x.2.cell q).tcb).isSome = true
    by_cases htcb : (x.2.cell q).tcb = t
    · rw [htcb, ← hself, store_block_self, if_pos (hlive htcb)]
      rfl
    · rw [store_block_of_ne (hself ▸ htcb), hframe.tcb q]
      exact (howned q (hframe.gone q hq)).2.resolve_left (hframe.tcb q ▸ htcb)
  · have haddr := hchanged.addressed h.addressed
    rw [hev] at haddr
    exact haddr
  · by_cases hu : u = x.1.self
    · subst hu
      rw [store_block_self] at hb
      split at hb
      · obtain rfl := Option.some.inj hb
        exact hviews.relayed
      · cases hb
    · rw [store_block_of_ne hu] at hb
      exact h.relayed u b hb
  · by_cases hu : u = x.1.self
    · subst hu
      obtain ⟨-, hattach⟩ := load_store hload
      have hview := hviews.view
      rw [← hself, ← hattach] at hview
      exact hview ▸ hsteady
    · obtain ⟨c₀, hload₀, rfl⟩ := load_store_of_ne hu hload
      have hut : u ≠ t := hself ▸ hu
      obtain ⟨hself₀, hlive₀, hev₀, -⟩ := load_eq hload₀
      have hmap : x.2.mapAt u = s.mem.mapAt u := (hframe.mapAt hut).trans (hothers u hut)
      have hold := (h.conn u c₀ hload₀).others hlive₀ (tcpOwns t) (hev₀ ▸ hchanged) fun x hx => by
        cases hux : tcpOwns u x with
        | false => exact hself₀.symm ▸ hux
        | true => exact absurd (tcpOwns_inj hux hx) hut
      rw [hev] at hold
      change Steady (Conn.attach _ (x.2.mapAt u) _)
      rw [hmap]
      exact hold

/-- A step of the connection at `t`. -/
theorem stored {x : Conn × RelayMem} {i : Input} (h : s.Coherent l) (hload : s.load t = some c)
    (hown : i.isOwn = true) (hok : Unblocked (c.attach (s.mem.mapAt t) l) i)
    (hstep : Ptrtd.step (c.attach (s.mem.mapAt t) l) i = some d) (hviews : Views s.mem t x d) :
    (s.store x).Coherent d.ev.fdEventList := by
  obtain ⟨hself, -, hev, -⟩ := load_eq hload
  obtain ⟨hsteady, hchanged⟩ := (h.conn t c hload).step hown hok hstep
  refine h.store hviews hsteady ?_ (fun _ _ => rfl) fun q hq => ?_
  · rw [← hev, ← hself]
    exact hchanged
  · obtain ⟨happ, hblock⟩ := h.owned q hq
    exact ⟨happ, .inr hblock⟩

/-! ## One step -/

theorem packet {seg : Segment} {now : Timeval} (h : s.Coherent l)
    (hstep : relayStep s (.packet t seg now) = some s') : ∃ l', s'.Coherent l' := by
  obtain ⟨c, hload, hstep⟩ := Option.bind_eq_some_iff.mp hstep
  obtain ⟨x, hx, rfl⟩ := Option.map_eq_some_iff.mp hstep
  obtain ⟨-, hlive, -, -⟩ := load_eq hload
  have hrel := ((h.sim hload).receive seg).handleTcp seg now
  rw [hx] at hrel
  obtain ⟨d, hd, hsim⟩ := rel_exists hrel
  refine ⟨_, h.stored (i := .packet seg now) hload rfl trivial ?_ hsim.toViews⟩
  rw [step.eq_def]
  exact (if_pos hlive).trans hd

theorem timeEvent {a : ℕ} (h : s.Coherent l) (hstep : relayStep s (.timeEvent a) = some s') :
    ∃ l', s'.Coherent l' := by
  obtain ⟨t, -, hstep⟩ := Option.bind_eq_some_iff.mp hstep
  obtain ⟨c, hload, hstep⟩ := Option.bind_eq_some_iff.mp hstep
  obtain ⟨c', hc', rfl⟩ := Option.map_eq_some_iff.mp hstep
  obtain ⟨-, hlive, -, -⟩ := load_eq hload
  have hrel := (h.sim hload).runTimeEvent a
  rw [hc'] at hrel
  obtain ⟨d, hd, hsim⟩ := rel_exists hrel
  refine ⟨_, h.stored (i := .timeEvent a) hload rfl trivial ?_ hsim.toViews⟩
  rw [step.eq_def]
  exact (if_pos hlive).trans hd

theorem alwaysEvent {a : ℕ} {now : Timeval} (h : s.Coherent l)
    (hstep : relayStep s (.alwaysEvent a now) = some s') : ∃ l', s'.Coherent l' := by
  obtain ⟨t, -, hstep⟩ := Option.bind_eq_some_iff.mp hstep
  obtain ⟨c, hload, hstep⟩ := Option.bind_eq_some_iff.mp hstep
  obtain ⟨c', hc', rfl⟩ := Option.map_eq_some_iff.mp hstep
  obtain ⟨-, hlive, -, -⟩ := load_eq hload
  have hrel := (h.sim hload).runAlwaysEvent a now
  rw [hc'] at hrel
  obtain ⟨d, hd, hsim⟩ := rel_exists hrel
  refine ⟨_, h.stored (i := .alwaysEvent a now) hload rfl trivial ?_ hsim.toViews⟩
  rw [step.eq_def]
  exact (if_pos hlive).trans hd

/-! ## Socket events -/

theorem exists_event (h : s.Coherent l) (he : e ∈ s.fdEvents) :
    ∃ x ∈ l, x.addr = e ∧ s.mem.seen e = x := by
  rw [fdEvents, h.lists.walk] at he
  obtain ⟨x, hx, rfl⟩ := List.mem_map.mp he
  exact ⟨x, hx, rfl, h.lists.seen x hx⟩

theorem findEvent_of_mem {x : Event} (hnodup : (l.map Event.addr).Nodup) (hx : x ∈ l) :
    findEvent l x.addr x.data = some x := by
  have hsome : (findEvent l x.addr x.data).isSome = true :=
    List.find?_isSome.mpr ⟨x, hx, decide_eq_true ⟨rfl, rfl⟩⟩
  obtain ⟨y, hy⟩ := Option.isSome_iff_exists.mp hsome
  obtain ⟨hmem, haddr, -⟩ := findEvent_spec hy
  rw [hy, List.inj_on_of_nodup_map hnodup hmem hx haddr]

/-- The callback of a socket event has run. -/
theorem ran {x : (Conn × RelayMem) × Bool} {y : Conn × Bool} {io : Io} (h : s.Coherent l)
    (hload : s.load t = some c) (hok : Unblocked (c.attach (s.mem.mapAt t) l) (.fdEvent e io))
    (hret : Sim.Returns s.mem t x y) (hlisted : e ∈ y.1.ev.fdEventList.map Event.addr)
    (hrun : Ptrtd.runFdEvent (c.attach (s.mem.mapAt t) l) e io =
      some (finishFd e y.1 y.2)) :
    ∃ l', (s.store (if x.2 then x.1 else (x.1.1, x.1.2.removeFdEvent e))).Coherent l' := by
  obtain ⟨-, hlive, -, -⟩ := load_eq hload
  obtain ⟨⟨a, m⟩, again⟩ := x
  obtain ⟨d, again'⟩ := y
  obtain ⟨hsim, hagain⟩ := hret
  obtain rfl : again = again' := hagain
  have hviews : Views s.mem t (if again then (a, m) else (a, m.removeFdEvent e))
      (finishFd e d again) := by
    rw [finishFd]
    cases again with
    | true => exact hsim.toViews
    | false => exact hsim.toViews.unlink hlisted
  refine ⟨_, h.stored (i := .fdEvent e io) hload rfl hok ?_ hviews⟩
  rw [step.eq_def]
  exact (if_pos hlive).trans hrun

/-- The event as the connection sees it. -/
theorem findEvent_of_map (h : s.Coherent l) (hload : s.load t = some c)
    (ht : (s.mem.cell p).tcb = t) (he : e ∈ s.fdEvents)
    (hdata : (s.mem.event e).data = .tcpMap p) :
    ∃ x ∈ l, x.addr = e ∧ x.func = (s.mem.event e).func ∧ x.data = .tcpMap c.self ∧
      findEvent l e (.tcpMap c.self) = some x := by
  obtain ⟨hself, -, -, -⟩ := load_eq hload
  obtain ⟨x, hx, rfl, hseen⟩ := h.exists_event he
  have hxdata : x.data = .tcpMap c.self := by
    rw [← hseen, RelayMem.seen, hdata, hself, ← ht]
    rfl
  refine ⟨x, hx, rfl, (congrArg Event.func hseen).symm, hxdata, ?_⟩
  rw [← hxdata]
  exact findEvent_of_mem h.lists.isList.nodup hx

theorem fdEvent {io : Io} (h : s.Coherent l)
    (hok : ∀ c ∈ s.connOfEvent e, Unblocked c (.fdEvent e io))
    (hstep : relayStep s (.fdEvent e io) = some s') : ∃ l', s'.Coherent l' := by
  obtain ⟨p, hp, hstep⟩ := Option.bind_eq_some_iff.mp hstep
  rw [connOfEvent, hp, Option.bind_some] at hok
  obtain ⟨he, hdata⟩ := mapOfEvent_eq hp
  obtain ⟨hmem, c, x, hload, rfl, hcases⟩ := runFdEvent_cases hstep
  have hok' := (hok c hload).attach (l := l) (m := s.mem.mapAt (s.mem.cell p).tcb)
  have hsim := h.sim hload
  obtain ⟨t, ht⟩ : ∃ t, t = (s.mem.cell p).tcb := ⟨_, rfl⟩
  rw [← ht] at hload hsim hok'
  have hmap : s.mem.IsMap t p := ⟨ht ▸ (h.owned p hmem).1, hmem, ht.symm⟩
  have hreg := (h.conn t c hload).registered
  have hm := hsim.map_eq hmap
  obtain ⟨ev, hev, rfl, hfunc, hdata', hfind⟩ := h.findEvent_of_map hload ht.symm he hdata
  have hmine := owns_of_tcpMap (c := c.attach (s.mem.mapAt t) l) hdata'
  obtain ⟨hread, hwrite⟩ := hreg.pointed hev hmine
  have hlisted : ev.addr ∈ l.map Event.addr := List.mem_map_of_mem hev
  rcases hcases with ⟨r, hf, rfl, hcall⟩ | ⟨r, hf, rfl, hcall⟩ | ⟨ok, hf, rfl, hcall⟩
  · have hrel := hsim.handleFdCanRead hmap r
    rw [hcall] at hrel
    obtain ⟨⟨a, again⟩, ha, hret⟩ := rel_exists hrel
    have hf' : ev.func = .handleFdCanRead := hfunc.trans hf
    have hptr := hread hf'
    rw [readPtr_eq hm] at hptr
    have hkeep := listed_of_canRead hm (hreg.apart _ hm _ hptr) hlisted ha
    exact h.ran hload hok' hret hkeep (runFdEvent_read hfind hf' ha)
  · have hrel := hsim.handleFdCanWrite hmap r
    rw [hcall] at hrel
    obtain ⟨⟨a, again⟩, ha, hret⟩ := rel_exists hrel
    have hf' : ev.func = .handleFdCanWrite := hfunc.trans hf
    have hptr := hwrite fun heq => by cases hf'.symm.trans heq
    rw [writePtr_eq hm] at hptr
    have hkeep := listed_of_canWrite hm (fun heq => hreg.apart _ hm _ heq hptr) hlisted ha
    exact h.ran hload hok' hret hkeep (runFdEvent_write hfind hf' ha)
  · have hrel := hsim.handleFdDidConnect hmap ok
    rw [hcall] at hrel
    obtain ⟨⟨a, again⟩, ha, hret⟩ := rel_exists hrel
    have hf' : ev.func = .handleFdDidConnect := hfunc.trans hf
    have hptr := hwrite fun heq => by cases hf'.symm.trans heq
    rw [writePtr_eq hm] at hptr
    have hkeep := listed_of_didConnect hm (fun heq => hreg.apart _ hm _ heq hptr) hlisted ha
    exact h.ran hload hok' hret hkeep (runFdEvent_connect hfind hf' ha)

/-! ## A new connection -/

/-- No event of the lists belongs to an address where no block is. -/
theorem fresh (h : s.Coherent l) (hblock : s.block t = none)
    (hclean : ∀ x ∈ s.ev.timeEventList ++ s.ev.alwaysEventList, tcpOwns t x.data = false) :
    freshAddr t { s.ev with fdEventList := l } := by
  intro x hx
  have hown : tcpOwns t x.data = false := by
    rcases List.mem_append.mp hx with hx | hx
    · rcases List.mem_append.mp hx with hx | hx
      · exact hclean x (List.mem_append_left _ hx)
      · have hdata : x.data = s.mem.owner (s.mem.event x.addr).data :=
          (congrArg Event.data (h.lists.seen x hx)).symm
        rw [hdata]
        rcases h.backed x hx with hforeign | ⟨q, hq, heq⟩
        · cases hd : (s.mem.event x.addr).data with
          | tcb | tcpMap =>
              rw [hd] at hforeign
              cases hforeign
          | udpMap | iface => rfl
        · have hne : t ≠ (s.mem.cell q).tcb := fun heq => by
            have hsome := (h.owned q hq).2
            rw [← heq, hblock] at hsome
            cases hsome
          rw [heq, owner, tcpOwns]
          simpa using Ne.symm hne
    · exact hclean x (List.mem_append_right _ hx)
  rw [tcpOwns, Bool.or_eq_false_iff, decide_eq_false_iff_not, decide_eq_false_iff_not] at hown
  exact hown

theorem setIsn (h : s.Coherent l) (n : Uint) : Coherent { s with isn := n } l :=
  ⟨h.lists, h.maps, h.backed, h.owned, h.addressed, h.relayed, h.conn⟩

/-- The new block, which is zeroed, gets the new map, and nothing else changes. -/
theorem owned_newMap (h : s.Coherent l) (hblock : s.block t = none) (hp : p ∉ s.mem.allocated)
    (hm : m = { s.mem with appData := Function.update s.mem.appData t none }) (fd : ℤ) :
    (∀ u, u ≠ t → (m.newMap t p fd).mapAt u = s.mem.mapAt u) ∧
      ∀ q ∈ (m.newMap t p fd).allocated,
        (m.newMap t p fd).appData ((m.newMap t p fd).cell q).tcb = some q ∧
          (((m.newMap t p fd).cell q).tcb = t ∨
            (s.block ((m.newMap t p fd).cell q).tcb).isSome = true) := by
  have happ : ∀ u, u ≠ t → m.appData u = s.mem.appData u := by
    intro u hu
    rw [hm]
    exact Function.update_of_ne hu ..
  have hcell : m.cell = s.mem.cell ∧ m.allocated = s.mem.allocated := by
    rw [hm]
    exact ⟨rfl, rfl⟩
  refine ⟨fun u hu => ?_, fun q hq => ?_⟩
  · refine (mapAt_newMap hu (hcell.2 ▸ hp) fd).trans ?_
    rw [mapAt, mapAt, happ u hu, hcell.1, hcell.2]
  · by_cases hqp : q = p
    · subst hqp
      have hmap := (m.isMap_newMap t q fd).1
      exact ⟨hmap.tcb.symm ▸ hmap.appData, .inl hmap.tcb⟩
    · have hq' : q ∈ s.mem.allocated := hcell.2 ▸ (List.mem_cons.mp hq).resolve_left hqp
      obtain ⟨hold, hsome⟩ := h.owned q hq'
      have hqcell : (m.newMap t p fd).cell q = s.mem.cell q :=
        (Function.update_of_ne hqp ..).trans (congrFun hcell.1 q)
      have hne : (s.mem.cell q).tcb ≠ t := fun heq => by
        rw [heq, hblock] at hsome
        cases hsome
      rw [hqcell]
      exact ⟨(Function.update_of_ne hne ..).trans ((happ _ hne).trans hold), .inr hsome⟩

theorem syn {seg : Segment} {res : ConnectResult} (h : s.Coherent l)
    (hclean : ∀ x ∈ s.ev.timeEventList ++ s.ev.alwaysEventList, tcpOwns t x.data = false)
    (hstep : relayStep s (.syn t p seg res) = some s') : ∃ l', s'.Coherent l' := by
  rw [relayStep] at hstep
  split at hstep
  · next hfree =>
      obtain ⟨hblock, hp⟩ := hfree
      obtain ⟨x, hx, rfl⟩ := Option.map_eq_some_iff.mp hstep
      rw [RelayMem.handleSyn] at hx
      obtain ⟨m, hm⟩ : ∃ m, m = { s.mem with appData := Function.update s.mem.appData t none } :=
        ⟨_, rfl⟩
      rw [← hm] at hx
      have hlists : m.Lists l s.ev.next := hm ▸ h.lists.congr rfl rfl fun _ _ => rfl
      obtain ⟨j, hj⟩ := h.maps
      have hmaps : m.Maps j := hm ▸ ⟨hj.isList, hj.mem, hj.nodup, hj.count⟩
      have hbacked : ∀ e ∈ l, Backed m (m.event e.addr).data := hm ▸ h.backed
      have hp' : p ∉ m.allocated := hm ▸ hp
      split at hx
      · next hflags =>
          obtain ⟨fd, hrel⟩ := Sim.incoming (c := ⟨t, newTcb .tcpMapCb s.isn seg, true, none, s.ev,
            Trace.start seg⟩) hlists hmaps hbacked (by nofun) hp' res
          rw [show m.incoming _ p res = some x from hx] at hrel
          obtain ⟨d, hd, hsim⟩ := rel_exists hrel
          have hstart : Ptrtd.handleSyn t .tcpMapCb s.isn { s.ev with fdEventList := l } seg res =
              some d := (if_pos hflags).trans hd
          obtain ⟨-, hchanged, htidy, -⟩ := kept_of_syn h.addressed hstart
          have hsteady : Steady d :=
            ⟨htidy, .tcpMapCb, d, ⟨t, s.isn, _, seg, res, h.fresh hblock hclean, hstart⟩, .refl⟩
          obtain ⟨hothers, howned⟩ := h.owned_newMap hblock hp hm fd
          exact ⟨_, (h.store hsim.toViews hsteady hchanged hothers howned).setIsn _⟩
      · cases hx
  · cases hstep

/-! ## The rest of the daemon -/

/-- Others have changed events of theirs. -/
theorem foreign {v : ℕ → Event} {k : Links ℕ} {o : Option ℕ} {ev : EventLists}
    (h : s.Coherent l)
    (hlists : { s.mem with event := v, eventLinks := k, fdEventList := o }.Lists l' ev.next)
    (hbacked : ∀ e ∈ l', Backed s.mem (v e.addr).data)
    (hchanged : ({ s.ev with fdEventList := l } : EventLists).Changed Ptrtd.foreign
      { ev with fdEventList := l' }) :
    Coherent
      { s with mem := { s.mem with event := v, eventLinks := k, fdEventList := o }, ev } l' := by
  obtain ⟨j, hj⟩ := h.maps
  refine ⟨hlists, ⟨j, hj.isList, hj.mem, hj.nodup, hj.count⟩, hbacked, h.owned,
    hchanged.addressed h.addressed, h.relayed, fun u c hload => ?_⟩
  obtain ⟨b, hb, rfl⟩ := Option.map_eq_some_iff.mp hload
  have hload₀ := load_of_block (s := s) hb
  exact (h.conn u _ hload₀).others rfl Ptrtd.foreign hchanged fun d hd => by
    cases d with
    | tcb | tcpMap => cases hd
    | udpMap | iface => rfl

theorem addFd {fd : ℤ} {write : Bool} {f : Callback} {d : DataRef} (h : s.Coherent l)
    (hstep : relayStep s (.addFd fd write f d) = some s') : ∃ l', s'.Coherent l' := by
  rw [relayStep] at hstep
  split at hstep
  · next hd =>
      obtain rfl := Option.some.inj hstep
      have howner : s.mem.owner d = d := by
        cases d with
        | tcb | tcpMap => cases hd
        | udpMap | iface => rfl
      have hlists := h.lists.addFdEvent fd write f d
      rw [howner] at hlists
      refine ⟨_, h.foreign hlists (fun e he => ?_) (.addFdEvent hd)⟩
      rcases List.mem_cons.mp he with rfl | he
      · rw [Function.update_self]
        exact .inl hd
      · rw [Function.update_of_ne (h.lists.lt e he).ne]
        exact h.backed e he
  · cases hstep

theorem removeFd {a : ℕ} (h : s.Coherent l) (hstep : relayStep s (.removeFd a) = some s') :
    ∃ l', s'.Coherent l' := by
  rw [relayStep] at hstep
  split at hstep
  · next hd =>
      obtain ⟨he, hd⟩ := hd
      obtain rfl := Option.some.inj hstep
      obtain ⟨x, hx, rfl, hseen⟩ := h.exists_event he
      have hown : Ptrtd.foreign x.data = true := by
        rw [← hseen, RelayMem.seen]
        cases hdata : (s.mem.event x.addr).data with
        | tcb | tcpMap =>
            rw [hdata] at hd
            cases hd
        | udpMap | iface => rfl
      have hmine := h.addressed.mine (k := .fd) hx hown
      refine ⟨_, h.foreign (h.lists.removeFdEvent (List.mem_map_of_mem hx)) (fun e he => ?_)
        (.removeFdEvent hmine)⟩
      exact h.backed e (mem_delEvent.mp he).1
  · cases hstep

theorem changed_of_othersOnly {n : ℕ} (h : OthersOnly n l l') :
    Ownership.Changed Event.addr Event.data Ptrtd.foreign n l l' := by
  obtain ⟨hsame, hborn⟩ := h
  have hfilter : ∀ (q : DataRef → Bool) (k : List Event),
      (∀ d, Ptrtd.foreign d = true → q d = false) →
        ((k.filter fun e => !Ptrtd.foreign e.data).filter fun e => q e.data) =
          k.filter fun e => q e.data := by
    intro q k hq
    rw [List.filter_filter]
    refine List.filter_congr fun e _ => ?_
    cases hd : Ptrtd.foreign e.data with
    | false => simp
    | true => simp [hq _ hd]
  refine ⟨fun q hq => ?_, fun e he => ?_⟩
  · rw [← hfilter q l hq, ← hfilter q l' hq, hsame]
  · cases hd : Ptrtd.foreign e.data with
    | true =>
        rcases Nat.lt_or_ge e.addr n with hlt | hge
        · obtain ⟨x, hx, haddr, hdata⟩ := hborn e he hd hlt
          exact .inl ⟨x, hx, haddr, hdata⟩
        · exact .inr ⟨rfl, hge⟩
    | false =>
        have hmem : e ∈ l.filter fun e => !Ptrtd.foreign e.data := by
          rw [← hsame]
          exact List.mem_filter.mpr ⟨he, by rw [hd]; rfl⟩
        exact .inl ⟨e, (List.mem_filter.mp hmem).1, rfl, rfl⟩

theorem others {ev : EventLists} (h : s.Coherent l) (hstep : relayStep s (.others ev) = some s') :
    ∃ l', s'.Coherent l' := by
  rw [relayStep] at hstep
  split at hstep
  · next hev =>
      obtain ⟨hnext, haddressed, -, htime, halways⟩ := hev
      obtain rfl := Option.some.inj hstep
      refine ⟨l, h.foreign (h.lists.mono hnext) h.backed ⟨hnext, fun k => ?_, fun haddr k => ?_⟩⟩
      · cases k with
        | time => exact changed_of_othersOnly htime
        | fd => exact .refl ..
        | always => exact changed_of_othersOnly halways
      · cases k with
        | time => exact haddressed .time
        | fd =>
            obtain ⟨hnodup, hlt⟩ := haddr .fd
            exact ⟨hnodup, fun e he => (hlt e he).trans_le hnext⟩
        | always => exact haddressed .always
  · cases hstep

/-! ## Every run -/

theorem start (h : s.Start) : s.Coherent [] := by
  have hlist : IsList s.mem.eventLinks s.mem.fdEventList [] := by
    rw [h.fdEventList]
    exact ⟨rfl, List.nodup_nil, trivial⟩
  have hlist' : IsList s.mem.links s.mem.tlist [] := by
    rw [h.tlist]
    exact ⟨rfl, List.nodup_nil, trivial⟩
  refine ⟨⟨hlist, nofun, nofun⟩, ⟨[], hlist', fun q => ?_, ?_, h.numTcpMaps⟩, nofun, fun q hq => ?_,
    ?_, fun t b hb => ?_, fun t c hload => ?_⟩
  · rw [h.allocated]
  · rw [h.allocated]
    exact List.nodup_nil
  · rw [h.allocated] at hq
    cases hq
  · intro k
    cases k with
    | time => exact h.addressed .time
    | fd => exact ⟨List.nodup_nil, nofun⟩
    | always => exact h.addressed .always
  · rw [h.block] at hb
    cases hb
  · rw [load, h.block] at hload
    cases hload

end Coherent

end Relay

end Ptrtd
