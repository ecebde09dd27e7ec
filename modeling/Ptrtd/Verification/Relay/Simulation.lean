import Ptrtd.Library.Lockstep
import Ptrtd.Verification.Relay.Memory

/-! # The functions on memory

Each function that follows the relay's pointers does to the memory what the function of the same
name does to a connection that has its map and the socket events at hand, and leaves the maps of
the other blocks alone. -/

namespace Ptrtd

open Lockstep RelayMem

variable {m m' m'' m₀ : RelayMem} {t p : ℕ} {c d : Conn} {map : TcpMap} {now : Timeval}
  {s : Segment}

/-! ## The relation -/

/-- What a function keeps when it works for the block at `t`. -/
structure Framed (t : ℕ) (m m' : RelayMem) : Prop where
  tcb : ∀ q, (m'.cell q).tcb = (m.cell q).tcb
  appData : m'.appData = m.appData
  gone : ∀ q, q ∈ m'.allocated → q ∈ m.allocated
  cell : ∀ q, (m.cell q).tcb ≠ t →
    m'.cell q = m.cell q ∧ (q ∈ m.allocated → q ∈ m'.allocated)

namespace Framed

theorem refl (t : ℕ) (m : RelayMem) : Framed t m m :=
  ⟨fun _ => rfl, rfl, fun _ => id, fun _ _ => ⟨rfl, id⟩⟩

theorem trans (h : Framed t m m') (h' : Framed t m' m'') : Framed t m m'' := by
  refine ⟨fun q => (h'.tcb q).trans (h.tcb q), h'.appData.trans h.appData,
    fun q hq => h.gone q (h'.gone q hq), fun q hq => ?_⟩
  obtain ⟨hcell, hkept⟩ := h.cell q hq
  obtain ⟨hcell', hkept'⟩ := h'.cell q (by rwa [hcell])
  exact ⟨hcell'.trans hcell, fun hmem => hkept' (hkept hmem)⟩

theorem removeFd? (t : ℕ) (m : RelayMem) (a : Option ℕ) : Framed t m (m.removeFd? a) := by
  cases a <;> exact ⟨fun _ => rfl, rfl, fun _ => id, fun _ _ => ⟨rfl, id⟩⟩

theorem setMap (hp : (m.cell p).tcb = t) (map : TcpMap) : Framed t m (m.setMap p map) := by
  refine ⟨fun q => ?_, rfl, fun _ => id, fun q hq => ⟨setMap_of_ne (fun heq => ?_) map, id⟩⟩
  · by_cases hq : q = p
    · rw [hq, setMap_self]
    · rw [setMap_of_ne hq]
  · rw [heq] at hq
    exact hq hp

theorem freeMap (hp : (m.cell p).tcb = t) : Framed t m (m.freeMap p) := by
  refine ⟨fun _ => rfl, rfl, fun _ => List.mem_of_mem_erase, fun q hq => ⟨rfl, fun hmem => ?_⟩⟩
  refine (List.mem_erase_of_ne fun heq => ?_).mpr hmem
  rw [heq] at hq
  exact hq hp

theorem addFdEvent (t : ℕ) (m : RelayMem) (a : ℕ) (fd : ℤ) (write : Bool) (f : Callback)
    (d : DataRef) : Framed t m (m.addFdEvent a fd write f d) :=
  ⟨fun _ => rfl, rfl, fun _ => id, fun _ _ => ⟨rfl, id⟩⟩

theorem mapAt (h : Framed t m m') {u : ℕ} (hu : u ≠ t) : m'.mapAt u = m.mapAt u := by
  rw [RelayMem.mapAt, RelayMem.mapAt, h.appData]
  congr 1
  funext q
  rw [h.tcb q]
  by_cases hq : (m.cell q).tcb = u
  · obtain ⟨hcell, hkept⟩ := h.cell q (hq.trans_ne hu)
    rw [hcell]
    exact if_congr (and_congr_left' ⟨h.gone q, hkept⟩) rfl rfl
  · rw [if_neg fun hmem => hq hmem.2, if_neg fun hmem => hq hmem.2]

end Framed

/-- The block that is worked on and the memory, and the connection that they stand for. The
events of the list have the maps that there were at first. -/
structure Views (m₀ : RelayMem) (t : ℕ) (x : Conn × RelayMem) (d : Conn) : Prop where
  self : x.1.self = t
  frame : Framed t m₀ x.2
  lists : x.2.Lists d.ev.fdEventList x.1.ev.next
  maps : ∃ l, x.2.Maps l
  backed : ∀ e ∈ d.ev.fdEventList, Backed m₀ (x.2.event e.addr).data
  relayed : x.1.tcb.cb ≠ some .otherCb
  view : d = x.1.attach (x.2.mapAt t) d.ev.fdEventList

/-- While a function runs, the events that the map has stored are registered, and `app_data` is
used only if it is the block's map. -/
structure Sim (m₀ : RelayMem) (t : ℕ) (x : Conn × RelayMem) (d : Conn) : Prop
    extends Views m₀ t x d where
  linked : Linked d
  anchor : x.1.tcb.cb = some .tcpMapCb → ∀ q, x.2.appData t = some q → q ∈ x.2.allocated →
    (x.2.cell q).tcb = t

/-- `event_loop` unlinks the event that has run. -/
theorem Views.unlink {e : ℕ} (h : Views m₀ t (c, m) d) (he : e ∈ d.ev.fdEventList.map Event.addr) :
    Views m₀ t (c, m.removeFdEvent e) { d with ev := removeFdEvent d.ev e } := by
  obtain ⟨k, hk⟩ := h.maps
  exact
    { self := h.self
      frame := h.frame.trans (.removeFd? t m (some e))
      lists := h.lists.removeFdEvent he
      maps := ⟨k, hk.isList, hk.mem, hk.nodup, hk.count⟩
      backed := fun x hx => h.backed x (mem_delEvent.mp hx).1
      relayed := h.relayed
      view := by
        rw [h.view]
        rfl }

namespace Sim

theorem exists_attach (h : Sim m₀ t (c, m) d) : ∃ l, d = c.attach (m.mapAt t) l :=
  ⟨_, h.view⟩

theorem tcb (h : Sim m₀ t (c, m) d) : d.tcb = c.tcb := by
  rw [h.view]
  rfl

theorem trace (h : Sim m₀ t (c, m) d) : d.trace = c.trace := by
  rw [h.view]
  rfl

/-- What needs no map is the same in both. -/
theorem blockOnly {g : Conn → Conn} (h : Sim m₀ t (c, m) d) (hg : BlockOnly g) :
    Sim m₀ t (g c, m) (g d) := by
  obtain ⟨l, rfl⟩ := h.exists_attach
  have happ : ∀ app, (g c).tcb.cb = some app → c.tcb.cb = some app := by
    intro app hcb
    rcases hg.cb c with hsame | hnone
    · exact hsame.symm.trans hcb
    · cases hnone.symm.trans hcb
  rw [hg.attach]
  exact
    { self := (hg.self c).trans h.self
      frame := h.frame
      lists := h.lists.mono (hg.next c)
      maps := h.maps
      backed := h.backed
      relayed := fun hcb => h.relayed (happ _ hcb)
      view := rfl
      linked := h.linked
      anchor := fun hcb => h.anchor (happ _ hcb) }

/-- A change of fields that the relation does not speak of. -/
theorem setBlock (h : Sim m₀ t (c, m) d) {u : Tcb} (v : Trace) (hcb : u.cb = c.tcb.cb) :
    Sim m₀ t ({ c with tcb := u, trace := v }, m) { d with tcb := u, trace := v } := by
  obtain ⟨l, rfl⟩ := h.exists_attach
  exact
    { self := h.self
      frame := h.frame
      lists := h.lists
      maps := h.maps
      backed := h.backed
      relayed := fun happ => h.relayed (hcb.symm.trans happ)
      view := rfl
      linked := h.linked
      anchor := fun happ => h.anchor (hcb.symm.trans happ) }

theorem setTcb (h : Sim m₀ t (c, m) d) {u : Tcb} (hcb : u.cb = c.tcb.cb) :
    Sim m₀ t ({ c with tcb := u }, m) { d with tcb := u } := by
  have hset := h.setBlock c.trace hcb
  rw [← h.trace] at hset
  have htrace : c = { c with trace := d.trace } := by rw [h.trace]
  rw [htrace]
  exact hset

theorem setTrace (h : Sim m₀ t (c, m) d) (f : Trace → Trace) :
    Sim m₀ t ({ c with trace := f c.trace }, m) { d with trace := f d.trace } := by
  have hset := h.setBlock (u := c.tcb) (f c.trace) rfl
  rw [h.trace, show d = { d with tcb := c.tcb } by rw [← h.tcb]]
  exact hset

theorem map_eq (h : Sim m₀ t (c, m) d) (hp : m.IsMap t p) : d.map = some (m.cell p).map := by
  obtain ⟨l, rfl⟩ := h.exists_attach
  exact hp.mapAt

/-! ## Assignments to a map -/

theorem setMap (h : Sim m₀ t (c, m) d) (hp : m.IsMap t p) (map : TcpMap)
    (hlinked : Linked { d with map := some map }) :
    Sim m₀ t (c, m.setMap p map) { d with map := some map } := by
  obtain ⟨l, rfl⟩ := h.exists_attach
  obtain ⟨k, hk⟩ := h.maps
  have hframe := Framed.setMap hp.tcb map
  have hp' : (m.setMap p map).IsMap t p := ⟨hp.appData, hp.allocated, (hframe.tcb p).trans hp.tcb⟩
  have hmap : (m.setMap p map).mapAt t = some map := by
    rw [hp'.mapAt, setMap_self]
  exact
    { self := h.self
      frame := h.frame.trans hframe
      lists := h.lists.congr rfl rfl fun _ _ => seen_congr hframe.tcb rfl
      maps := ⟨k, hk.isList, hk.mem, hk.nodup, hk.count⟩
      backed := h.backed
      relayed := h.relayed
      view := by rw [hmap]; rfl
      linked := hlinked
      anchor := fun hcb q happ hq => (hframe.tcb q).trans (h.anchor hcb q happ hq) }

/-- A pointer that is cleared leaves the other one. -/
theorem forget (h : Sim m₀ t (c, m) d) (hp : m.IsMap t p) {map : TcpMap}
    (hread : map.eFdRead = (m.cell p).map.eFdRead ∨ map.eFdRead = none)
    (hwrite : map.eFdWrite = (m.cell p).map.eFdWrite ∨ map.eFdWrite = none) :
    Sim m₀ t (c, m.setMap p map) { d with map := some map } := by
  refine h.setMap hp map ?_
  obtain ⟨hin, hne⟩ := h.linked _ (h.map_eq hp)
  have hread' : ∀ e, map.eFdRead = some e → (m.cell p).map.eFdRead = some e := by
    intro e he
    rcases hread with hsame | hnone
    · exact hsame ▸ he
    · cases hnone.symm.trans he
  have hwrite' : ∀ e, map.eFdWrite = some e → (m.cell p).map.eFdWrite = some e := by
    intro e he
    rcases hwrite with hsame | hnone
    · exact hsame ▸ he
    · cases hnone.symm.trans he
  rintro _ ⟨⟩
  exact ⟨fun e he => hin e (he.imp (hread' e) (hwrite' e)),
    fun e he he' => hne e (hread' e he) (hwrite' e he')⟩

theorem forgetRead (h : Sim m₀ t (c, m) d) (hp : m.IsMap t p) :
    Sim m₀ t (c, m.setMap p { (m.cell p).map with eFdRead := none })
      { d with map := some { (m.cell p).map with eFdRead := none } } :=
  h.forget hp (.inr rfl) (.inl rfl)

theorem forgetWrite (h : Sim m₀ t (c, m) d) (hp : m.IsMap t p) :
    Sim m₀ t (c, m.setMap p { (m.cell p).map with eFdWrite := none })
      { d with map := some { (m.cell p).map with eFdWrite := none } } :=
  h.forget hp (.inl rfl) (.inr rfl)

/-- An event is registered for the map, which stores it. -/
theorem register (h : Sim m₀ t (c, m) d) (hp : m.IsMap t p) (fd : ℤ) (write : Bool) (f : Callback)
    (map : TcpMap)
    (hlinked : Linked
      { d with ev := addFdEvent d.ev fd write f (.tcpMap d.self), map := some map }) :
    Sim m₀ t
      (c.newEvent, (m.addFdEvent c.ev.next fd write f (.tcpMap p)).setMap p map)
      { d with ev := addFdEvent d.ev fd write f (.tcpMap d.self), map := some map } := by
  obtain ⟨l, rfl⟩ := h.exists_attach
  obtain ⟨k, hk⟩ := h.maps
  have hframe := Framed.addFdEvent t m c.ev.next fd write f (.tcpMap p)
  have hp' : (m.addFdEvent c.ev.next fd write f (.tcpMap p)).IsMap t p :=
    ⟨hp.appData, hp.allocated, hp.tcb⟩
  have hframe' := hframe.trans (Framed.setMap hp'.tcb map)
  have hmap : ((m.addFdEvent c.ev.next fd write f (.tcpMap p)).setMap p map).mapAt t =
      some map := by
    have hp'' : ((m.addFdEvent c.ev.next fd write f (.tcpMap p)).setMap p map).IsMap t p :=
      ⟨hp.appData, hp.allocated, (hframe'.tcb p).trans hp.tcb⟩
    rw [hp''.mapAt, setMap_self]
  have hlists := h.lists.addFdEvent fd write f (.tcpMap p)
  have howner : m.owner (.tcpMap p) = .tcpMap c.self :=
    congrArg DataRef.tcpMap (hp.tcb.trans h.self.symm)
  rw [howner] at hlists
  have hbacked : ∀ e ∈ ⟨c.ev.next, f, .tcpMap c.self, .fd fd write⟩ :: l,
      Backed m₀ ((m.addFdEvent c.ev.next fd write f (.tcpMap p)).event e.addr).data := by
    intro e he
    rcases List.mem_cons.mp he with rfl | he
    · rw [addFdEvent_self]
      exact .inr ⟨p, h.frame.gone p hp.allocated, rfl⟩
    · rw [addFdEvent_of_ne (h.lists.lt e he).ne]
      exact h.backed e he
  exact
    { self := h.self
      frame := h.frame.trans hframe'
      lists := hlists.congr rfl rfl fun _ _ => seen_congr (Framed.setMap hp'.tcb map).tcb rfl
      maps := ⟨k, hk.isList, hk.mem, hk.nodup, hk.count⟩
      backed := hbacked
      relayed := h.relayed
      view := by rw [hmap]; rfl
      linked := hlinked
      anchor := fun hcb q happ hq => (hframe'.tcb q).trans (h.anchor hcb q happ hq) }

/-- The event is new, so that it is none that the map has stored. -/
theorem register_linked (h : Sim m₀ t (c, m) d) (hmap : d.map = some map) {map' : TcpMap}
    {fd : ℤ} {write : Bool} {f : Callback} (hnew : map'.eFdRead = some d.ev.next ∧
      map'.eFdWrite = map.eFdWrite ∨ map'.eFdRead = map.eFdRead ∧ map'.eFdWrite = some d.ev.next) :
    Linked { d with ev := addFdEvent d.ev fd write f (.tcpMap d.self), map := some map' } := by
  obtain ⟨l, rfl⟩ := h.exists_attach
  obtain ⟨hin, hne⟩ := h.linked map hmap
  have hnot : c.ev.next ∉ l.map Event.addr := h.lists.not_mem
  rintro _ ⟨⟩
  rcases hnew with ⟨hread, hwrite⟩ | ⟨hread, hwrite⟩
  · refine ⟨fun e he => ?_, fun e he he' => ?_⟩
    · rcases he with he | he
      · obtain rfl := Option.some.inj (hread.symm.trans he)
        exact List.mem_cons_self
      · exact List.mem_cons_of_mem _ (hin e (.inr (hwrite.symm.trans he)))
    · obtain rfl := Option.some.inj (hread.symm.trans he)
      exact hnot (hin _ (.inr (hwrite.symm.trans he')))
  · refine ⟨fun e he => ?_, fun e he he' => ?_⟩
    · rcases he with he | he
      · exact List.mem_cons_of_mem _ (hin e (.inl (hread.symm.trans he)))
      · obtain rfl := Option.some.inj (hwrite.symm.trans he)
        exact List.mem_cons_self
    · obtain rfl := Option.some.inj (hwrite.symm.trans he')
      exact hnot (hin _ (.inl (hread.symm.trans he)))

/-! ## The callbacks of the relay -/

theorem killMap (h : Sim m₀ t (c, m) d) (hp : m.IsMap t p) :
    Option.Rel (Sim m₀ t) (m.killMap c p) (Ptrtd.killMap d) := by
  have hmap := h.map_eq hp
  obtain ⟨l, rfl⟩ := h.exists_attach
  obtain ⟨k, hk⟩ := h.maps
  obtain ⟨hin, hne⟩ := h.linked _ hmap
  obtain ⟨map, hmapeq⟩ : ∃ map, map = (m.cell p).map := ⟨_, rfl⟩
  rw [← hmapeq] at hmap hin hne
  have hlists := h.lists.unhook hin hne
  obtain ⟨m₁, hm₁⟩ : ∃ m₁, m₁ = m.unhook map := ⟨_, rfl⟩
  rw [← hm₁] at hlists
  obtain ⟨q, o, heq⟩ := m.unhook_eq map
  rw [← hm₁] at heq
  have hbacked : ∀ e ∈ delEvent? map.eFdRead (delEvent? map.eFdWrite l),
      Backed m₀ (m₁.event e.addr).data := by
    intro e he
    rw [heq]
    exact h.backed e (mem_delEvent?.mp (mem_delEvent?.mp he).1).1
  have hk₁ : m₁.Maps k := heq ▸ ⟨hk.isList, hk.mem, hk.nodup, hk.count⟩
  have hp₁ : m₁.IsMap t p := heq ▸ ⟨hp.appData, hp.allocated, hp.tcb⟩
  have hframe : Framed t m (m₁.freeMap p) := by
    refine .trans ?_ (.freeMap hp₁.tcb)
    rw [hm₁]
    exact (Framed.removeFd? t m _).trans (.removeFd? t _ _)
  have hgone : p ∉ (m₁.freeMap p).allocated := hk₁.nodup.not_mem_erase
  have hnone : (m₁.freeMap p).mapAt t = none := by
    rw [RelayMem.mapAt, show (m₁.freeMap p).appData t = some p from hp₁.appData]
    exact if_neg fun hmem => hgone hmem.1
  obtain ⟨c', hc'⟩ : ∃ c' : Conn, c' = { c with
    trace := { c.trace with closed := c.trace.closed || decide ((0 : ℤ) ≤ map.fd) } } := ⟨_, rfl⟩
  have hkill : m.killMap c p = some (c', m₁.freeMap p) := by
    rw [RelayMem.killMap, if_pos hp.allocated, ← hmapeq, hm₁, hc']
    rfl
  have hkill' : Ptrtd.killMap (c.attach (m.mapAt t) l) =
      some (c'.attach none (delEvent? map.eFdRead (delEvent? map.eFdWrite l))) := by
    rw [Ptrtd.killMap, hmap, Option.map_some, hc']
    dsimp only
    cases map.eFdWrite <;> cases map.eFdRead <;> rfl
  rw [hkill, hkill']
  exact .some
    { self := by rw [hc']; exact h.self
      frame := h.frame.trans hframe
      lists := by rw [hc']; exact hlists.congr rfl rfl fun _ _ => rfl
      maps := ⟨k.erase p, hk₁.freeMap hp₁.allocated⟩
      backed := hbacked
      relayed := by rw [hc']; exact h.relayed
      view := by rw [hnone]; rfl
      linked := fun map hm => by cases hm
      anchor := fun _ r hr hmem => by
        obtain rfl := Option.some.inj (hp₁.appData.symm.trans hr)
        exact absurd hmem hgone }

theorem closeBoth (h : Sim m₀ t (c, m) d) (hp : m.IsMap t p) :
    Option.Rel (Sim m₀ t) (m.closeBoth c p) (Ptrtd.closeBoth d) :=
  (h.blockOnly (.tcpClose false)).killMap hp

theorem outputSpace (h : Sim m₀ t (c, m) d) (hp : m.IsMap t p) (space : ℤ) :
    Option.Rel (Sim m₀ t) (m.outputSpace c p space) (Ptrtd.outputSpace d space) := by
  have hmap := h.map_eq hp
  obtain ⟨l, rfl⟩ := h.exists_attach
  rw [RelayMem.outputSpace, if_pos hp.allocated, Ptrtd.outputSpace, hmap, Option.map_some]
  dsimp only
  split
  · refine .some (h.register hp _ false .handleFdCanRead _ ?_)
    exact h.register_linked hmap (.inl ⟨rfl, rfl⟩)
  · exact .some h

theorem canRead (h : Sim m₀ t (c, m) d) (hp : m.IsMap t p) :
    Option.Rel (Sim m₀ t) (m.canRead c p) (Ptrtd.canRead d) := by
  have hmap := h.map_eq hp
  obtain ⟨l, rfl⟩ := h.exists_attach
  rw [RelayMem.canRead, if_pos hp.allocated, Ptrtd.canRead, hmap, Option.map_some]
  dsimp only
  split
  · refine .some (h.register hp _ true .handleFdCanWrite _ ?_)
    exact h.register_linked hmap (.inr ⟨rfl, rfl⟩)
  · exact .some h

/-! ## Calls through `t->cb` -/

/-- A callback gets the block's map, or neither side goes on. -/
theorem called {f : ℕ → Option (Conn × RelayMem)} {o : Option Conn} (h : Sim m₀ t (c, m) d)
    (hcb : c.tcb.cb = some .tcpMapCb) (hfreed : ∀ q, q ∉ m.allocated → f q = none)
    (hnull : d.map = none → o = none) (hmap : ∀ q, m.IsMap t q → Option.Rel (Sim m₀ t) (f q) o) :
    Option.Rel (Sim m₀ t) ((m.appData c.self).bind f) o := by
  have hself : c.self = t := h.self
  have hdmap : d.map = m.mapAt t := by
    rw [h.view]
    rfl
  rw [hself]
  cases happ : m.appData t with
  | none =>
      rw [hnull (hdmap.trans (by rw [mapAt, happ]; rfl))]
      exact .none
  | some q =>
      rw [Option.bind_some]
      by_cases hq : q ∈ m.allocated
      · exact hmap q ⟨happ, hq, h.anchor hcb q happ hq⟩
      · have hnone : m.mapAt t = none := by
          rw [mapAt, happ]
          exact if_neg fun hmem => hq hmem.1
        rw [hfreed q hq, hnull (hdmap.trans hnone)]
        exact .none

theorem cbOutputBufferSpace (h : Sim m₀ t (c, m) d) (space : ℤ) :
    Option.Rel (Sim m₀ t) (m.cbOutputBufferSpace c space) (Ptrtd.cbOutputBufferSpace d space) := by
  rw [RelayMem.cbOutputBufferSpace.eq_def, Ptrtd.cbOutputBufferSpace.eq_def, h.tcb]
  cases hcb : c.tcb.cb with
  | none => exact .none
  | some app =>
      cases app with
      | tcpMapCb =>
          refine h.called hcb (fun q hq => if_neg hq) (fun hnone => ?_) fun q hq =>
            h.outputSpace hq space
          rw [Ptrtd.outputSpace, hnone]
          rfl
      | otherCb => exact .some h

theorem cbDataAvailable (h : Sim m₀ t (c, m) d) :
    Option.Rel (Sim m₀ t) (m.cbDataAvailable c) (Ptrtd.cbDataAvailable d) := by
  rw [RelayMem.cbDataAvailable.eq_def, Ptrtd.cbDataAvailable.eq_def, h.tcb]
  cases hcb : c.tcb.cb with
  | none => exact .none
  | some app =>
      cases app with
      | tcpMapCb =>
          refine h.called hcb (fun q hq => if_neg hq) (fun hnone => ?_) fun q hq => h.canRead hq
          rw [Ptrtd.canRead, hnone]
          rfl
      | otherCb => exact .some h

theorem cbClosing (h : Sim m₀ t (c, m) d) :
    Option.Rel (Sim m₀ t) (m.cbClosing c) (Ptrtd.cbClosing d) := by
  rw [RelayMem.cbClosing.eq_def, Ptrtd.cbClosing.eq_def, h.tcb]
  cases hcb : c.tcb.cb with
  | none => exact .some h
  | some app =>
      cases app with
      | tcpMapCb =>
          refine h.called hcb (fun q hq => if_neg hq) (fun hnone => ?_) fun q hq => h.killMap hq
          rw [Ptrtd.killMap, hnone]
          rfl
      | otherCb => exact .some h

/-! ## Segments -/

theorem receive (h : Sim m₀ t (c, m) d) (s : Segment) :
    Sim m₀ t (c.receive s, m) (d.receive s) :=
  h.setTrace fun v => { v with received := v.received ++ [s] }

theorem handleRst (h : Sim m₀ t (c, m) d) :
    Option.Rel (Sim m₀ t) (m.handleRst c) (Ptrtd.handleRst d) :=
  rel_map_map h.cbClosing fun _ _ hx => hx.blockOnly .tcbDelete

theorem handleNewAck (h : Sim m₀ t (c, m) d) (ack : Uint) (now : Timeval) :
    Option.Rel (Sim m₀ t) (m.handleNewAck c ack now) (Ptrtd.handleNewAck d ack now) := by
  have hcb : (ackUna c.tcb ack now).cb = c.tcb.cb := by
    rw [ackUna]
    split <;> rfl
  have hack := h.setTcb (u := ackUna c.tcb ack now) hcb
  have htimer := hack.blockOnly (.ackTimer ack now)
  rw [RelayMem.handleNewAck.eq_def, Ptrtd.handleNewAck.eq_def, h.tcb]
  dsimp only
  cases (ackUna c.tcb ack now).state with
  | established =>
      refine rel_map_map (r := Sim m₀ t) ((hack.setTcb ?_).cbOutputBufferSpace _) fun _ _ hx =>
        hx.blockOnly (.ackTimer ack now)
      exact rfl
  | finWait1 | closing | lastAck => exact .some htimer
  | closed | listen | synSent | synRecvd | finWait2 | closeWait | timeWait => exact .some hack

end Sim

/-- Both leave the function, or both go on. -/
inductive FlowSim (m₀ : RelayMem) (t : ℕ) : Flow × RelayMem → Flow → Prop where
  | done {c d : Conn} {m : RelayMem} : Sim m₀ t (c, m) d → FlowSim m₀ t (.done c, m) (.done d)
  | next {c d : Conn} {m : RelayMem} : Sim m₀ t (c, m) d → FlowSim m₀ t (.next c, m) (.next d)

namespace Sim

theorem handleAllAcked (h : Sim m₀ t (c, m) d) (now : Timeval) :
    Option.Rel (FlowSim m₀ t) (m.handleAllAcked c now) (Ptrtd.handleAllAcked d now) := by
  simp only [RelayMem.handleAllAcked.eq_def, Ptrtd.handleAllAcked.eq_def, h.tcb]
  cases c.tcb.state with
  | synRecvd =>
      refine rel_map_map (r := Sim m₀ t) ((h.setTcb ?_).cbOutputBufferSpace _) fun _ _ hx =>
        .next hx
      exact rfl
  | lastAck =>
      have hgone := h.blockOnly .tcbDelete
      simp only [h.tcb] at hgone
      exact .some (.done hgone)
  | finWait1 =>
      dsimp only
      split
      · exact .some (.next (h.setTcb rfl))
      · exact .some (.next h)
  | closing =>
      dsimp only
      split
      · exact .some (.done (h.blockOnly (.enterTimeWait now)))
      · exact .some (.done h)
  | closed | listen | synSent | established | finWait2 | closeWait | timeWait =>
      exact .some (.next h)

theorem handleAck (h : Sim m₀ t (c, m) d) (s : Segment) (now : Timeval) :
    Option.Rel (FlowSim m₀ t) (m.handleAck c s now) (Ptrtd.handleAck d s now) := by
  rw [RelayMem.handleAck, Ptrtd.handleAck, h.tcb]
  split
  · refine rel_bind (r := Sim m₀ t) ?_ fun x a hx => ?_
    · split
      · exact h.handleNewAck s.ack now
      · exact .some h
    · obtain ⟨x, m'⟩ := x
      rw [hx.tcb]
      dsimp only
      split
      · exact hx.handleAllAcked now
      · exact .some (.next hx)
  · exact .some (.next h)

/-- The data goes into `inbuf`, and the application is told. -/
theorem storePayload (h : Sim m₀ t (c, m) d) (s : Segment) :
    Option.Rel (Sim m₀ t)
      ((rbWrite c.tcb.inbuf s.data).bind fun x => m.cbDataAvailable
        { c with
          tcb := { c.tcb with inbuf := x.1, rcvWnd := BitVec.ofInt 32 (rbLeft x.1) }
          trace := { c.trace with stored := c.trace.stored ++ s.data.take x.2 } })
      ((rbWrite d.tcb.inbuf s.data).bind fun x => Ptrtd.cbDataAvailable
        { d with
          tcb := { d.tcb with inbuf := x.1, rcvWnd := BitVec.ofInt 32 (rbLeft x.1) }
          trace := { d.trace with stored := d.trace.stored ++ s.data.take x.2 } }) := by
  rw [h.tcb, h.trace]
  cases rbWrite c.tcb.inbuf s.data with
  | none => exact .none
  | some x =>
      rw [Option.bind_some, Option.bind_some]
      refine (h.setBlock _ ?_).cbDataAvailable
      exact rfl

theorem recvPayload (h : Sim m₀ t (c, m) d) (s : Segment) :
    Option.Rel (Sim m₀ t) (m.recvPayload c s) (Ptrtd.recvPayload d s) := by
  rw [RelayMem.recvPayload, Ptrtd.recvPayload, h.tcb]
  split
  · have hset := h.setTcb
      (u := { c.tcb with rcvNxt := c.tcb.rcvNxt + BitVec.ofNat 32 s.data.length }) rfl
    have hmark := hset.blockOnly .markForIfWrite
    dsimp only
    rw [hmark.tcb]
    split
    · have hstore := hmark.storePayload s
      rw [hmark.tcb, hmark.trace] at hstore
      rw [hmark.trace]
      exact hstore
    · exact .some hmark
  · exact .some h

theorem tcpRecvData (h : Sim m₀ t (c, m) d) (s : Segment) :
    Option.Rel (fun x y => Sim m₀ t x.1 y.1 ∧ x.2 = y.2) (m.tcpRecvData c s)
      (Ptrtd.tcpRecvData d s) :=
  rel_map_map (h.recvPayload s) fun _ _ hx => ⟨hx.blockOnly (.recvFin s), rfl⟩

theorem tcpRemoteClose (h : Sim m₀ t (c, m) d) :
    Option.Rel (Sim m₀ t) (m.tcpRemoteClose c) (Ptrtd.tcpRemoteClose d) :=
  rel_map_map h.cbClosing fun _ _ hx => hx.blockOnly (.tcpClose false)

theorem handleData (h : Sim m₀ t (c, m) d) (s : Segment) (now : Timeval) :
    Option.Rel (Sim m₀ t) (m.handleData c s now) (Ptrtd.handleData d s now) := by
  rw [RelayMem.handleData.eq_def, Ptrtd.handleData.eq_def, h.tcb]
  have hrecv := h.tcpRecvData s
  cases c.tcb.state with
  | finWait2 =>
      refine rel_map_map hrecv fun x y hxy => ?_
      obtain ⟨⟨c', m'⟩, fin⟩ := x
      obtain ⟨d', fin'⟩ := y
      obtain ⟨hx, hfin⟩ := hxy
      obtain rfl : fin = fin' := hfin
      dsimp only at hx ⊢
      split
      · exact hx.blockOnly (.enterTimeWait now)
      · exact hx
  | finWait1 =>
      refine rel_map_map hrecv fun x y hxy => ?_
      obtain ⟨⟨c', m'⟩, fin⟩ := x
      obtain ⟨d', fin'⟩ := y
      obtain ⟨hx, hfin⟩ := hxy
      obtain rfl : fin = fin' := hfin
      dsimp only at hx ⊢
      split
      · rw [hx.tcb]
        exact hx.setTcb rfl
      · exact hx
  | established =>
      refine rel_bind hrecv fun x y hxy => ?_
      obtain ⟨⟨c', m'⟩, fin⟩ := x
      obtain ⟨d', fin'⟩ := y
      obtain ⟨hx, hfin⟩ := hxy
      obtain rfl : fin = fin' := hfin
      dsimp only at hx ⊢
      split
      · rw [hx.tcb]
        refine (hx.setTcb ?_).tcpRemoteClose
        exact rfl
      · exact .some hx
  | closed | listen | synSent | synRecvd | closeWait | closing | lastAck | timeWait =>
      exact .some h

/-- A segment does to the memory what it does to the connection. -/
theorem handleTcp (h : Sim m₀ t (c, m) d) (s : Segment) (now : Timeval) :
    Option.Rel (Sim m₀ t) (m.handleTcp c s now) (Ptrtd.handleTcp d s now) := by
  rw [RelayMem.handleTcp, Ptrtd.handleTcp]
  split
  · exact h.handleRst
  · refine rel_bind (h.handleAck s now) fun x f hx => ?_
    cases hx with
    | done hx => exact .some hx
    | next hx =>
        dsimp only
        rw [hx.tcb]
        split
        · exact .some (hx.blockOnly .handleOld)
        · exact (hx.blockOnly (.handleWindow s)).handleData s now

/-! ## Socket events -/

theorem tcpSend (h : Sim m₀ t (c, m) d) (data : List Uchar) :
    Option.Rel (fun x y => Sim m₀ t (x, m) y) (tcpSend c data) (tcpSend d data) := by
  rw [Ptrtd.tcpSend, Ptrtd.tcpSend, h.tcb, h.trace]
  cases rbWrite c.tcb.outbuf data with
  | none => exact .none
  | some x =>
      obtain ⟨r, k⟩ := x
      have hset := h.setBlock (u := { c.tcb with outbuf := r })
        { c.trace with written := c.trace.written ++ data.take k } rfl
      refine .some ?_
      dsimp only
      split
      · exact hset.blockOnly .markForIfWrite
      · exact hset

theorem tcpRead (h : Sim m₀ t (c, m) d) (len : ℤ) :
    Option.Rel (fun x y => Sim m₀ t (x.1, m) y.1 ∧ x.2 = y.2) (tcpRead c len) (tcpRead d len) := by
  rw [Ptrtd.tcpRead, Ptrtd.tcpRead, h.tcb]
  dsimp only
  refine rel_map_map (r := Eq) ?_ fun data _ hdata => ?_
  · cases rbRead c.tcb.inbuf c.tcb.readSeq _ with
    | none => exact .none
    | some data => exact .some rfl
  · subst hdata
    split
    · refine ⟨(h.setTcb ?_).blockOnly .markForIfWrite, rfl⟩
      exact rfl
    · refine ⟨h.setTcb ?_, rfl⟩
      exact rfl

/-- The callbacks that return a value. -/
abbrev Returns (m₀ : RelayMem) (t : ℕ) (x : (Conn × RelayMem) × Bool) (y : Conn × Bool) : Prop :=
  Sim m₀ t x.1 y.1 ∧ x.2 = y.2

theorem returns {o : Option (Conn × RelayMem)} {o' : Option Conn} (h : Option.Rel (Sim m₀ t) o o')
    (again : Bool) : Option.Rel (Returns m₀ t) (o.map fun x => (x, again))
      (o'.map fun y => (y, again)) :=
  rel_map_map h fun _ _ hx => ⟨hx, rfl⟩

theorem handleFdCanRead (h : Sim m₀ t (c, m) d) (hp : m.IsMap t p) (r : ReadResult) :
    Option.Rel (Returns m₀ t) (m.handleFdCanRead c p r) (Ptrtd.handleFdCanRead d r) := by
  have hclose := (h.forgetRead hp).closeBoth (hp.setMap _)
  dsimp only at hclose
  rw [h.tcb] at hclose
  rw [RelayMem.handleFdCanRead.eq_def, Ptrtd.handleFdCanRead.eq_def, h.map_eq hp,
    Option.bind_some, h.tcb]
  dsimp only
  generalize (if tcpGetOutputSpace c.tcb < 0 ∨ tcpGetOutputSpace c.tcb > tbSize then
    (tbSize : ℤ) else tcpGetOutputSpace c.tcb) = len
  split
  · exact .some ⟨h, rfl⟩
  · cases r with
    | again => exact .some ⟨h, rfl⟩
    | eof => exact returns hclose false
    | error => exact returns hclose false
    | data data =>
        dsimp only
        split
        · refine rel_map_bind (h.tcpSend data) fun c' d' hsent => ?_
          rw [show tcpGetOutputSpace d'.tcb = tcpGetOutputSpace c'.tcb by rw [hsent.tcb]]
          split
          · exact .some ⟨hsent.forgetRead hp, rfl⟩
          · exact .some ⟨hsent, rfl⟩
        · exact .none

theorem handleFdCanWrite (h : Sim m₀ t (c, m) d) (hp : m.IsMap t p) (r : WriteResult) :
    Option.Rel (Returns m₀ t) (m.handleFdCanWrite c p r) (Ptrtd.handleFdCanWrite d r) := by
  rw [RelayMem.handleFdCanWrite.eq_def, Ptrtd.handleFdCanWrite.eq_def, h.map_eq hp,
    Option.bind_some]
  refine rel_bind (h.tcpRead tbSize) fun x y hxy => ?_
  obtain ⟨c', data⟩ := x
  obtain ⟨d', data'⟩ := y
  obtain ⟨hread, hdata⟩ := hxy
  obtain rfl : data = data' := hdata
  dsimp only at hread ⊢
  obtain ⟨m', hm'⟩ : ∃ m', m' = if data.length < tbSize then
    m.setMap p { (m.cell p).map with eFdWrite := none } else m := ⟨_, rfl⟩
  obtain ⟨b, hb⟩ : ∃ b, b = if data.length < tbSize then
    { d' with map := some { (m.cell p).map with eFdWrite := none } } else d' := ⟨_, rfl⟩
  have hafter : Sim m₀ t (c', m') b ∧ m'.IsMap t p := by
    rw [hm', hb]
    split
    · exact ⟨hread.forgetWrite hp, hp.setMap _⟩
    · exact ⟨hread, hp⟩
  have hclear : { (m.cell p).map with eFdWrite := none } =
      { (m'.cell p).map with eFdWrite := none } := by
    rw [hm']
    split
    · rw [setMap_self]
    · rfl
  rw [← hm', ← hb, hclear]
  obtain ⟨hsim, hp'⟩ := hafter
  have hclose : ∀ {c₁ d₁}, Sim m₀ t (c₁, m') d₁ → Option.Rel (Returns m₀ t)
      (((m'.setMap p { (m'.cell p).map with eFdWrite := none }).closeBoth c₁ p).map fun x =>
        (x, false))
      (d₁.map.bind fun map =>
        (Ptrtd.closeBoth { d₁ with map := some { map with eFdWrite := none } }).map fun y =>
          (y, false)) := by
    intro c₁ d₁ h₁
    rw [h₁.map_eq hp', Option.bind_some]
    exact returns ((h₁.forgetWrite hp').closeBoth (hp'.setMap _)) false
  cases r with
  | again => exact .some ⟨hsim, rfl⟩
  | error => exact hclose hsim
  | wrote n =>
      dsimp only
      split
      · have hwrote := hsim.setTrace fun v => { v with relayed := v.relayed ++ data.take n }
        split
        · exact hclose hwrote
        · refine .some ⟨hwrote, ?_⟩
          rw [hsim.map_eq hp']
          rfl
      · exact .none

theorem handleFdDidConnect (h : Sim m₀ t (c, m) d) (hp : m.IsMap t p) (ok : Bool) :
    Option.Rel (Returns m₀ t) (m.handleFdDidConnect c p ok) (Ptrtd.handleFdDidConnect d ok) := by
  have hforget := h.forgetWrite hp
  rw [RelayMem.handleFdDidConnect, Ptrtd.handleFdDidConnect, h.map_eq hp, Option.bind_some]
  dsimp only
  split
  · exact .some ⟨hforget.blockOnly .tcpAccept, rfl⟩
  · exact returns (hforget.closeBoth (hp.setMap _)) false

/-! ## The other events -/

theorem runTimeEvent (h : Sim m₀ t (c, m) d) (addr : ℕ) :
    Option.Rel (fun x y => Sim m₀ t (x, m) y) (runTimeEvent c addr) (runTimeEvent d addr) := by
  have hlist : d.ev.timeEventList = c.ev.timeEventList ∧ d.self = c.self := by
    rw [h.view]
    exact ⟨rfl, rfl⟩
  rw [Ptrtd.runTimeEvent, Ptrtd.runTimeEvent, hlist.1, hlist.2]
  cases findEvent c.ev.timeEventList addr (.tcb c.self) with
  | none => exact .none
  | some e =>
      have hremove : ∀ {c₁ d₁}, Sim m₀ t (c₁, m) d₁ → Sim m₀ t
          ({ c₁ with ev := removeTimeEvent c₁.ev addr }, m)
          { d₁ with ev := removeTimeEvent d₁.ev addr } := fun h₁ =>
        h₁.blockOnly (.removeTimeEvent addr)
      rw [Option.bind_some, Option.bind_some]
      dsimp only
      cases e.func with
      | tcpTimeout => exact .some (hremove (h.blockOnly .tcpTimeout))
      | tcpRemove => exact .some (hremove (h.blockOnly .tcpRemove))
      | _ => exact .none

/-- A value comes with the block. -/
abbrev Writes (m₀ : RelayMem) (t : ℕ) (m : RelayMem) (x y : Conn × Bool) : Prop :=
  Sim m₀ t (x.1, m) y.1 ∧ x.2 = y.2

theorem tcpSendAndAck (h : Sim m₀ t (c, m) d) (now : Timeval) :
    Option.Rel (Writes m₀ t m) (tcpSendAndAck c now) (tcpSendAndAck d now) := by
  rw [Ptrtd.tcpSendAndAck, Ptrtd.tcpSendAndAck, h.tcb]
  refine rel_map_map (r := Eq) ?_ fun data _ hdata => ?_
  · cases sendData c.tcb with
    | none => exact .none
    | some data => exact .some rfl
  · subst hdata
    dsimp only
    split
    · exact ⟨h, rfl⟩
    · have hemit := h.blockOnly (.emitSegment data (finDue c.tcb data.length) now)
      exact ⟨hemit, congrArg sendAgain hemit.tcb.symm⟩

theorem doTcbWrite (h : Sim m₀ t (c, m) d) (now : Timeval) :
    Option.Rel (Writes m₀ t m) (doTcbWrite c now) (doTcbWrite d now) := by
  rw [Ptrtd.doTcbWrite, Ptrtd.doTcbWrite, h.tcb]
  split
  · exact .some ⟨(h.blockOnly .tcpSendSyn).blockOnly .sent, rfl⟩
  · refine rel_map_map (h.tcpSendAndAck now) fun x y hxy => ?_
    obtain ⟨c', more⟩ := x
    obtain ⟨d', more'⟩ := y
    obtain ⟨hsent, hmore⟩ := hxy
    obtain rfl : more = more' := hmore
    have hdone : Sim m₀ t
        (if more then c' else { c' with tcb := { c'.tcb with eTcbSend := none } }, m)
        (if more then d' else { d' with tcb := { d'.tcb with eTcbSend := none } }) := by
      split
      · exact hsent
      · exact hsent.blockOnly .sent
    exact ⟨hdone, congrArg (fun u : Tcb => u.eTcbSend.isSome) hdone.tcb.symm⟩

theorem runAlwaysEvent (h : Sim m₀ t (c, m) d) (addr : ℕ) (now : Timeval) :
    Option.Rel (fun x y => Sim m₀ t (x, m) y) (runAlwaysEvent c addr now)
      (runAlwaysEvent d addr now) := by
  have hlist : d.ev.alwaysEventList = c.ev.alwaysEventList ∧ d.self = c.self := by
    rw [h.view]
    exact ⟨rfl, rfl⟩
  rw [Ptrtd.runAlwaysEvent, Ptrtd.runAlwaysEvent, hlist.1, hlist.2]
  cases findEvent c.ev.alwaysEventList addr (.tcb c.self) with
  | none => exact .none
  | some e =>
      rw [Option.bind_some, Option.bind_some]
      cases e.func with
      | doTcbWrite =>
          refine rel_map_map (h.doTcbWrite now) fun x y hxy => ?_
          obtain ⟨c', again⟩ := x
          obtain ⟨d', again'⟩ := y
          obtain ⟨hwrote, hagain⟩ := hxy
          obtain rfl : again = again' := hagain
          dsimp only
          split
          · exact hwrote
          · exact hwrote.blockOnly (.removeAlwaysEvent addr)
      | _ => exact .none

/-! ## A new connection -/

/-- A block whose map has just been made. -/
theorem opening {l : List Event} {k : List ℕ} (hlists : m.Lists l c.ev.next) (hmaps : m.Maps k)
    (hbacked : ∀ e ∈ l, Backed m (m.event e.addr).data) (hcb : c.tcb.cb ≠ some .otherCb)
    (hp : p ∉ m.allocated) (fd : ℤ) :
    Sim (m.newMap c.self p fd) c.self (c, m.newMap c.self p fd)
      (c.attach (some ⟨fd, none, none⟩) l) := by
  obtain ⟨hmap, hcell⟩ := m.isMap_newMap c.self p fd
  have hlinked : Linked (c.attach (some ⟨fd, none, none⟩) l) := by
    rintro _ ⟨⟩
    refine ⟨fun e he => ?_, fun e he => ?_⟩
    · rcases he with he | he <;> cases he
    · cases he
  exact
    { self := rfl
      frame := .refl ..
      lists := hlists.newMap (fun e he heq => hp ((hbacked e he).mem heq)) c.self fd
      maps := ⟨p :: k, hmaps.newMap hp fd⟩
      backed := fun e he => (hbacked e he).imp fun _ _ hq => List.mem_cons_of_mem p hq
      relayed := hcb
      view := by rw [hmap.mapAt, hcell]; rfl
      linked := hlinked
      anchor := fun _ q happ _ => by
        obtain rfl := Option.some.inj (hmap.appData.symm.trans happ)
        exact hmap.tcb }

theorem incoming {l : List Event} {k : List ℕ} (hlists : m.Lists l c.ev.next) (hmaps : m.Maps k)
    (hbacked : ∀ e ∈ l, Backed m (m.event e.addr).data) (hcb : c.tcb.cb ≠ some .otherCb)
    (hp : p ∉ m.allocated) (res : ConnectResult) :
    ∃ fd, Option.Rel (Sim (m.newMap c.self p fd) c.self) (m.incoming c p res)
      (Ptrtd.incoming (c.attach none l) res) := by
  have hopen := opening hlists hmaps hbacked hcb hp
  have hmap := fun fd => (m.isMap_newMap c.self p fd).1
  cases res with
  | noSocket => exact ⟨-1, ((hopen (-1)).blockOnly (.tcpClose false)).killMap (hmap (-1))⟩
  | connected fd => exact ⟨fd, .some ((hopen fd).blockOnly .tcpAccept)⟩
  | inProgress fd =>
      refine ⟨fd, .some ((hopen fd).register (hmap fd) fd true .handleFdDidConnect _ ?_)⟩
      exact (hopen fd).register_linked rfl (.inr ⟨rfl, rfl⟩)
  | failed fd => exact ⟨fd, ((hopen fd).blockOnly (.tcpClose false)).killMap (hmap fd)⟩

end Sim

end Ptrtd
