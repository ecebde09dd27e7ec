import Ptrtd.Library.Registry
import Ptrtd.Library.Run
import Ptrtd.Model.UdpMaps
import Ptrtd.Verification.Event.Lists
import Ptrtd.Verification.Udp.RoundTrip

/-! # The UDP maps and their events

A map comes with a socket and two events, and goes with them. Its address and its descriptor may
then be used again, so that a map must not leave anything behind that refers to it. -/

namespace Ptrtd.Wire

open LinkedList Registry
open Table (Addr)

/-! ## The events of the maps in a list -/

/-- The event refers to the map. -/
def refersTo (um : ℕ) (e : Event) : Bool := e.data = .udpMap um

/-- Each map has one event in the list, the one that it points to. The list has no other events of
maps. -/
structure Registers (maps : ℕ → Prop) (p : ℕ → ℕ) (shape : ℕ → Event → Prop) (l : List Event) :
    Prop where
  points : ∀ um, maps um → Points Event.addr (refersTo um) l (some (p um))
  only : ∀ e ∈ l, ∀ um, e.data = .udpMap um → maps um ∧ shape um e

section

variable {maps maps' : ℕ → Prop} {p p' : ℕ → ℕ} {shape shape' : ℕ → Event → Prop}
  {l l' : List Event} {e : Event} {um : ℕ}

/-- The event of a map, as the list has it. -/
theorem Registers.exists_eq (h : Registers maps p shape l) (hum : maps um) :
    ∃ e, l.filter (refersTo um) = [e] ∧ e.addr = p um ∧ e.data = .udpMap um ∧ shape um e := by
  obtain ⟨e, hlist, haddr⟩ := points_some.mp (h.points um hum)
  have hmem : e ∈ l.filter (refersTo um) := by rw [hlist]; exact List.mem_singleton_self e
  obtain ⟨he, href⟩ := List.mem_filter.mp hmem
  have hdata : e.data = .udpMap um := of_decide_eq_true href
  exact ⟨e, hlist, haddr, hdata, (h.only e he um hdata).2⟩

theorem Registers.congr (h : Registers maps p shape l) (hmaps : ∀ um, maps' um ↔ maps um)
    (hp : ∀ um, maps um → p' um = p um) (hshape : ∀ um e, maps um → shape um e → shape' um e) :
    Registers maps' p' shape' l := by
  refine ⟨fun um hum => ?_, fun e he um hdata => ?_⟩
  · have hum := (hmaps um).mp hum
    rw [hp um hum]
    exact h.points um hum
  · obtain ⟨hum, hsh⟩ := h.only e he um hdata
    exact ⟨(hmaps um).mpr hum, hshape um e hum hsh⟩

/-- A new map registers its event. -/
theorem Registers.add (h : Registers maps p shape l) (hnew : ¬maps um)
    (hperm : l'.Perm (e :: l)) (hdata : e.data = .udpMap um) (hp : p um = e.addr)
    (hshape : shape um e) : Registers (fun a => a = um ∨ maps a) p shape l' := by
  refine ⟨fun a ha => ?_, fun x hx a hxa => ?_⟩
  · by_cases hself : a = um
    · subst hself
      have hnone : Points Event.addr (refersTo a) l none := by
        refine points_none.mpr (List.filter_eq_nil_iff.mpr fun x hx href => hnew ?_)
        exact (h.only x hx a (of_decide_eq_true href)).1
      rw [hp]
      exact hnone.add (decide_eq_true hdata) hperm
    · have hmaps := ha.resolve_left hself
      have hother : refersTo a e = false := by
        refine decide_eq_false fun heq => hself ?_
        exact (DataRef.udpMap.inj (hdata.symm.trans heq)).symm
      exact ((h.points a hmaps).add_other hother).perm hperm
  · rcases List.mem_cons.mp (hperm.subset hx) with rfl | hx
    · obtain rfl := DataRef.udpMap.inj (hdata.symm.trans hxa)
      exact ⟨.inl rfl, hshape⟩
    · obtain ⟨ha, hsh⟩ := h.only x hx a hxa
      exact ⟨.inr ha, hsh⟩

/-- The event of a map is taken out. -/
theorem Registers.remove (h : Registers maps p shape l) (haddr : (l.map Event.addr).Nodup)
    (hum : maps um) : Registers (fun a => maps a ∧ a ≠ um) p shape (delEvent (p um) l) := by
  have hgone : Points Event.addr (refersTo um) (delEvent (p um) l) none := (h.points um hum).remove
  refine ⟨fun a ha => ?_, fun x hx a hxa => ?_⟩
  · obtain ⟨ha, hne⟩ := ha
    refine (h.points a ha).remove_other fun heq => hne ?_
    obtain ⟨e, he, href, hkey⟩ := (h.points um hum).exists_mem
    obtain ⟨x, hx, hxref, hxkey⟩ := (h.points a ha).exists_mem
    have hsame : x = e := by
      refine List.inj_on_of_nodup_map haddr hx he ?_
      rw [hkey, hxkey, Option.some.inj heq]
    have hdata : x.data = .udpMap a := of_decide_eq_true hxref
    have hdata' : e.data = .udpMap um := of_decide_eq_true href
    rw [hsame, hdata'] at hdata
    exact (DataRef.udpMap.inj hdata).symm
  · obtain ⟨ha, hsh⟩ := h.only x (mem_delEvent.mp hx).1 a hxa
    refine ⟨⟨ha, ?_⟩, hsh⟩
    rintro rfl
    exact List.filter_eq_nil_iff.mp (points_none.mp hgone) x hx (decide_eq_true hxa)

/-- The rest of the daemon changes its own events. -/
theorem Registers.others (h : Registers maps p shape l) (hsame : l'.filter isUdp = l.filter isUdp) :
    Registers maps p shape l' := by
  have hudp : ∀ um e, refersTo um e = true → isUdp e = true := by
    intro um e href
    have hdata : e.data = .udpMap um := of_decide_eq_true href
    rw [isUdp, hdata]
  have hfilter : ∀ (um : ℕ) (L : List Event),
      (L.filter isUdp).filter (refersTo um) = L.filter (refersTo um) := by
    intro um L
    rw [List.filter_filter]
    refine List.filter_congr fun x _ => ?_
    cases href : refersTo um x with
    | false => rfl
    | true => rw [hudp um x href]; rfl
  refine ⟨fun um hum => (h.points um hum).congr ?_, fun x hx um hxum => ?_⟩
  · rw [← hfilter, ← hfilter um l, hsame]
  · have hmem : x ∈ l'.filter isUdp :=
      List.mem_filter.mpr ⟨hx, hudp um x (decide_eq_true hxum)⟩
    rw [hsame] at hmem
    exact h.only x (List.mem_filter.mp hmem).1 um hxum

end

/-! ## The two events of a map -/

/-- The maps have a read event and a stale event each, and there are no others. -/
structure MapEvents (maps : ℕ → Prop) (cell : ℕ → UdpCell) (ev : EventLists) : Prop where
  addressed : ev.Addressed
  read : Registers maps (fun um => (cell um).eFdRead)
    (fun um e => e.func = .handleUdpRead ∧ e.kind = .fd (cell um).map.fd false) ev.fdEventList
  stale : Registers maps (fun um => (cell um).eStale)
    (fun _ e => e.func = .removeUdpMap ∧ ∃ t, e.kind = .time t) ev.timeEventList
  always : ∀ e ∈ ev.alwaysEventList, isUdp e = false

section

variable {maps maps' : ℕ → Prop} {cell : ℕ → UdpCell} {ev ev' : EventLists} {um : ℕ} {t : Timeval}

theorem MapEvents.of_iff (h : MapEvents maps cell ev) (hmaps : ∀ a, maps' a ↔ maps a) :
    MapEvents maps' cell ev :=
  ⟨h.addressed, h.read.congr hmaps (fun _ _ => rfl) fun _ _ _ hsh => hsh,
    h.stale.congr hmaps (fun _ _ => rfl) fun _ _ _ hsh => hsh, h.always⟩

theorem MapEvents.create (h : MapEvents maps cell ev) (hnew : ¬maps um) (map : UdpMap) :
    MapEvents (fun a => a = um ∨ maps a)
      (Function.update cell um ⟨map, ev.next, ev.next + 1⟩)
      (addTimeEvent (addFdEvent ev map.fd false .handleUdpRead (.udpMap um)) t .removeUdpMap
        (.udpMap um)) := by
  have hcell : ∀ a, maps a → Function.update cell um ⟨map, ev.next, ev.next + 1⟩ a = cell a := by
    intro a ha
    refine Function.update_of_ne ?_ _ _
    rintro rfl
    exact hnew ha
  refine ⟨?_, ?_, ?_, h.always⟩
  · have hfd : (addFdEvent ev map.fd false .handleUdpRead (.udpMap um)).Addressed :=
      h.addressed.add (k := .fd) (List.Perm.refl _) rfl
        (fun j hj => by cases j <;> first | rfl | exact absurd rfl hj) rfl
    exact hfd.add (k := .time) (insertTimeEvent_perm _ _) rfl
      (fun j hj => by cases j <;> first | rfl | exact absurd rfl hj) rfl
  · have hread : Registers maps
        (fun a => (Function.update cell um ⟨map, ev.next, ev.next + 1⟩ a).eFdRead)
        (fun a e => e.func = .handleUdpRead ∧
          e.kind = .fd (Function.update cell um ⟨map, ev.next, ev.next + 1⟩ a).map.fd false)
        ev.fdEventList :=
      h.read.congr (fun _ => Iff.rfl) (fun a ha => congrArg UdpCell.eFdRead (hcell a ha))
        fun a e ha hsh => by rw [hcell a ha]; exact hsh
    exact hread.add hnew (List.Perm.refl _) rfl (by simp) (by simp)
  · have hstale : Registers maps
        (fun a => (Function.update cell um ⟨map, ev.next, ev.next + 1⟩ a).eStale)
        (fun _ e => e.func = .removeUdpMap ∧ ∃ t, e.kind = .time t) ev.timeEventList :=
      h.stale.congr (fun _ => Iff.rfl) (fun a ha => congrArg UdpCell.eStale (hcell a ha))
        fun _ _ _ hsh => hsh
    exact hstale.add hnew (insertTimeEvent_perm _ _) rfl (by simp [addFdEvent])
      ⟨rfl, t, rfl⟩

/-- The stale event of a map is scheduled for a later time. -/
theorem MapEvents.refresh (h : MapEvents maps cell ev) (hum : maps um) (t : Timeval) :
    MapEvents maps cell (ev.reschedTimeEvent (cell um).eStale t) := by
  obtain ⟨e, hlist, haddr, hdata, hfunc, -⟩ := h.stale.exists_eq hum
  have he : e ∈ ev.timeEventList := by
    have hmem : e ∈ ev.timeEventList.filter (refersTo um) := by
      rw [hlist]
      exact List.mem_singleton_self e
    exact (List.mem_filter.mp hmem).1
  have hnodup : (ev.timeEventList.map Event.addr).Nodup := (h.addressed .time).1
  have haddressed := h.addressed.resched he t
  have heq := reschedTimeEvent_eq hnodup he t
  rw [haddr] at heq haddressed
  rw [heq] at haddressed ⊢
  refine ⟨haddressed, h.read, ?_, h.always⟩
  have hgone : ¬(maps um ∧ um ≠ um) := fun hmaps => hmaps.2 rfl
  have hstale := (h.stale.remove hnodup hum).add (e := ⟨(cell um).eStale, e.func, e.data, .time t⟩)
    hgone (insertTimeEvent_perm _ _) hdata rfl ⟨hfunc, t, rfl⟩
  refine hstale.congr (fun a => ?_) (fun _ _ => rfl) fun _ _ _ hsh => hsh
  by_cases hself : a = um
  · simp [hself, hum]
  · simp [hself]

/-- A map goes with its events. -/
theorem MapEvents.remove (h : MapEvents maps cell ev) (hum : maps um) :
    MapEvents (fun a => maps a ∧ a ≠ um) cell
      (removeTimeEvent (removeFdEvent ev (cell um).eFdRead) (cell um).eStale) := by
  refine ⟨h.addressed.sublist (fun k => ?_) rfl, h.read.remove (h.addressed .fd).1 hum,
    h.stale.remove (h.addressed .time).1 hum, h.always⟩
  cases k with
  | time => exact List.filter_sublist
  | fd => exact List.filter_sublist
  | always => exact List.Sublist.refl _

theorem MapEvents.others (h : MapEvents maps cell ev) (haddr : ev'.Addressed)
    (hsame : ∀ k, (ev'.list k).filter isUdp = (ev.list k).filter isUdp) :
    MapEvents maps cell ev' := by
  refine ⟨haddr, h.read.others (hsame .fd), h.stale.others (hsame .time), fun e he => ?_⟩
  by_contra hudp
  have hmem : e ∈ (ev'.list .always).filter isUdp :=
    List.mem_filter.mpr ⟨he, Bool.eq_true_of_not_eq_false hudp⟩
  rw [hsame] at hmem
  exact hudp (h.always e (List.mem_filter.mp hmem).1)

end

/-! ## The list of maps -/

/-- The client of a map. -/
def UdpMap.client (map : UdpMap) : Addr × ℕ := (map.raddr, map.rport)

/-- The maps are linked and have different clients and sockets. Their sockets are open and were
created for their clients. -/
structure Maps (s : UdpMem) (l : List ℕ) : Prop where
  isList : IsList s.links s.ulist l
  allocated : ∀ um ∈ l, um ∈ s.allocated
  clients : (l.map fun um => (s.cell um).map.client).Nodup
  sockets : (l.map fun um => (s.cell um).map.fd).Nodup
  opened : ∀ um ∈ l, s.opened (s.cell um).map.fd = true
  owned : ∀ um ∈ l, owner (s.cell um).map.fd s.log = some (s.cell um).map.client
  events : MapEvents (· ∈ l) s.cell s.ev

section

variable {s s' : UdpMem} {l front rest : List ℕ} {raddr : Addr} {rport um fuel : ℕ} {fd : ℤ}
  {now : Timeval} {i : UdpMemInput}

theorem UdpMem.Start.maps (h : s.Start) : Maps s [] := by
  have hnone : ∀ k, ∀ e ∈ s.ev.list k, ∀ um, e.data ≠ .udpMap um := by
    intro k e he um hdata
    have hudp := h.events k e he
    rw [isUdp, hdata] at hudp
    cases hudp
  refine ⟨h.ulist ▸ isList_nil, ?_, List.nodup_nil, List.nodup_nil, ?_, ?_, h.addressed,
    ⟨?_, ?_⟩, ⟨?_, ?_⟩, h.events .always⟩
  · exact fun um hum => absurd hum List.not_mem_nil
  · exact fun um hum => absurd hum List.not_mem_nil
  · exact fun um hum => absurd hum List.not_mem_nil
  · exact fun um hum => absurd hum List.not_mem_nil
  · exact fun e he um hdata => absurd hdata (hnone .fd e he um)
  · exact fun um hum => absurd hum List.not_mem_nil
  · exact fun e he um hdata => absurd hdata (hnone .time e he um)

/-- The loop of `udp_get_map` looks for the client among the maps that are left. -/
theorem findMap_eq (h : IsList s.links s.ulist (front ++ rest)) (hfuel : rest.length ≤ fuel) :
    s.findMap raddr rport fuel rest.head? = some (rest.find? fun um =>
      (s.cell um).map.rport = rport ∧ (s.cell um).map.raddr = raddr) := by
  induction rest generalizing front fuel with
  | nil => cases fuel <;> rfl
  | cons um rest ih =>
      obtain ⟨fuel, rfl⟩ : ∃ n, fuel = n + 1 := ⟨fuel - 1, by simp at hfuel; omega⟩
      rw [List.head?_cons, UdpMem.findMap]
      by_cases hkey : (s.cell um).map.rport = rport ∧ (s.cell um).map.raddr = raddr
      · rw [if_pos hkey, List.find?_cons_of_pos (by simpa using hkey)]
      · have hsplit : front ++ um :: rest = (front ++ [um]) ++ rest := by simp
        rw [if_neg hkey, List.find?_cons_of_neg (by simpa using hkey), h.seg.links.2]
        rw [hsplit] at h
        exact ih h (Nat.le_of_succ_le_succ hfuel)

theorem createMap_cell (s : UdpMem) (raddr : Addr) (rport : ℕ) (fd : ℤ) (now : Timeval)
    (hnot : um ∉ l) :
    (s.createMap raddr rport um fd now).cell um =
        ⟨⟨fd, raddr, rport⟩, s.ev.next, s.ev.next + 1⟩ ∧
      ∀ a ∈ l, (s.createMap raddr rport um fd now).cell a = s.cell a := by
  refine ⟨Function.update_self .., fun a ha => Function.update_of_ne ?_ _ _⟩
  rintro rfl
  exact hnot ha

theorem Maps.findMap (h : Maps s l) (raddr : Addr) (rport : ℕ) :
    s.findMap raddr rport s.allocated.length s.ulist = some (l.find? fun um =>
      (s.cell um).map.rport = rport ∧ (s.cell um).map.raddr = raddr) := by
  have hle : l.length ≤ s.allocated.length :=
    (List.subperm_of_subset h.isList.nodup h.allocated).length_le
  have hlist : IsList s.links s.ulist ([] ++ l) := h.isList
  rw [h.isList.head]
  exact findMap_eq hlist hle

/-- A map is made for a new client. -/
theorem Maps.createMap (h : Maps s l) (hum : um ∉ s.allocated) (hfd : s.opened fd = false)
    (hnew : ∀ a ∈ l, (s.cell a).map.client ≠ (raddr, rport)) (now : Timeval) :
    Maps (s.createMap raddr rport um fd now) (um :: l) := by
  have hnot : um ∉ l := fun hmem => hum (h.allocated um hmem)
  obtain ⟨hself, hcell⟩ := createMap_cell s raddr rport fd now hnot
  have hother : ∀ a ∈ l, (s.cell a).map.fd ≠ fd := by
    intro a ha heq
    have hopen := h.opened a ha
    rw [heq, hfd] at hopen
    cases hopen
  refine ⟨?_, ?_, ?_, ?_, ?_, ?_, ?_⟩
  · have hclear : IsList (s.links.setPrev um none) s.ulist l :=
      h.isList.congr (fun a ha => Links.setPrev_of_ne fun heq => hnot (heq ▸ ha)) fun _ _ => rfl
    have hpush := hclear.pushFront hnot Links.setPrev_prev
    rw [Links.pushFront, Links.setNext_next] at hpush
    exact hpush
  · intro a ha
    rcases List.mem_cons.mp ha with rfl | ha
    · exact List.mem_cons_self
    · exact List.mem_cons_of_mem um (h.allocated a ha)
  · rw [List.map_cons, List.map_congr_left fun a ha => by rw [hcell a ha]]
    refine List.nodup_cons.mpr ⟨fun hmem => ?_, h.clients⟩
    obtain ⟨a, ha, hkey⟩ := List.mem_map.mp hmem
    rw [hself] at hkey
    exact hnew a ha hkey
  · rw [List.map_cons, List.map_congr_left fun a ha => by rw [hcell a ha]]
    refine List.nodup_cons.mpr ⟨fun hmem => ?_, h.sockets⟩
    obtain ⟨a, ha, hkey⟩ := List.mem_map.mp hmem
    rw [hself] at hkey
    exact hother a ha hkey
  · intro a ha
    rcases List.mem_cons.mp ha with rfl | ha
    · rw [hself]
      exact Function.update_self ..
    · rw [hcell a ha]
      exact (Function.update_of_ne (hother a ha) ..).trans (h.opened a ha)
  · intro a ha
    rcases List.mem_cons.mp ha with rfl | ha
    · rw [hself]
      exact if_pos rfl
    · rw [hcell a ha]
      exact (if_neg (hother a ha).symm).trans (h.owned a ha)
  · have hevents := h.events.create (t := timeFuture now 600000) hnot ⟨fd, raddr, rport⟩
    exact hevents.of_iff fun a => List.mem_cons

theorem Maps.refresh (h : Maps s l) (hum : um ∈ l) (now : Timeval) : Maps (s.refresh um now) l :=
  ⟨h.isList, h.allocated, h.clients, h.sockets, h.opened, h.owned, h.events.refresh hum _⟩

/-- The traces of what is sent have no part in it. -/
theorem Maps.sent (h : Maps s l) (sent4 : List Sendto) (sent6 : List Pbuf) :
    Maps { s with sent4, sent6 } l :=
  ⟨h.isList, h.allocated, h.clients, h.sockets, h.opened, h.owned, h.events⟩

/-- A map is removed with its stale event. -/
theorem Maps.removeUdpMap (h : Maps s l) (hum : um ∈ l) :
    Maps { s.removeUdpMap um with
      ev := removeTimeEvent (s.removeUdpMap um).ev (s.cell um).eStale } (l.erase um) := by
  have hmem : ∀ a, a ∈ l.erase um ↔ a ∈ l ∧ a ≠ um := fun a =>
    h.isList.nodup.mem_erase_iff.trans and_comm
  have hother : ∀ a ∈ l.erase um, (s.cell um).map.fd ≠ (s.cell a).map.fd := by
    intro a ha heq
    obtain ⟨ha, hne⟩ := (hmem a).mp ha
    exact hne (List.inj_on_of_nodup_map h.sockets hum ha heq).symm
  refine ⟨h.isList.unlink hum, fun a ha => ?_, ?_, ?_, fun a ha => ?_, fun a ha => ?_, ?_⟩
  · obtain ⟨ha, hne⟩ := (hmem a).mp ha
    exact (List.mem_erase_of_ne hne).mpr (h.allocated a ha)
  · exact h.clients.sublist (List.erase_sublist.map _)
  · exact h.sockets.sublist (List.erase_sublist.map _)
  · have hopen := h.opened a ((hmem a).mp ha).1
    exact (Function.update_of_ne (hother a ha).symm ..).trans hopen
  · exact (if_neg (hother a ha)).trans (h.owned a ((hmem a).mp ha).1)
  · exact (h.events.remove hum).of_iff hmem

/-- A socket with an owner is on record. -/
theorem exists_entry {log : List UdpEntry} (h : owner fd log ≠ none) : ∃ x ∈ log, x.fd = fd := by
  induction log with
  | nil => exact absurd rfl h
  | cons x log ih =>
      by_cases hx : x.fd = fd
      · exact ⟨x, List.mem_cons_self, hx⟩
      · have hrest : owner fd (x :: log) = owner fd log := by
          cases x with
          | created fd' raddr rport => exact if_neg hx
          | closed fd' => exact if_neg hx
        rw [hrest] at h
        obtain ⟨y, hy, hfd⟩ := ih h
        exact ⟨y, List.mem_cons_of_mem x hy, hfd⟩

theorem Maps.others {ev : EventLists} {opened : ℤ → Bool} (h : Maps s l)
    (hothers : s.othersChanged ev opened) : Maps { s with ev, opened } l := by
  obtain ⟨-, haddr, hsame, hopen⟩ := hothers
  refine ⟨h.isList, h.allocated, h.clients, h.sockets, fun um hum => ?_, h.owned,
    h.events.others haddr hsame⟩
  have howner : owner (s.cell um).map.fd s.log ≠ none := by simp [h.owned um hum]
  obtain ⟨x, hx, hfd⟩ := exists_entry howner
  rw [← hfd] at howner
  have hsame := hopen x hx howner
  rw [hfd] at hsame
  exact hsame.trans (h.opened um hum)

/-! ## The maps as a list -/

/-- What `Udp` has of the maps. -/
def UdpMem.view (s : UdpMem) (l : List ℕ) : Udp :=
  { listening := s.listening
    ulist := l.map fun um => (s.cell um).map
    sent4 := s.sent4
    sent6 := s.sent6 }

/-- `udp_get_map` yields a map of the client, as it does on the list. -/
theorem Maps.getMap (h : Maps s l) (hum : um ∉ s.allocated) (hfd : s.opened fd = false)
    (raddr : Addr) (rport : ℕ) (now : Timeval) : ∃ s' um' l',
      s.getMap raddr rport um fd now = some (s', um') ∧ Maps s' l' ∧ um' ∈ l' ∧
        (s.view l).getMap raddr rport fd = (s'.view l', (s'.cell um').map) := by
  rw [UdpMem.getMap, h.findMap]
  have hfind : (s.view l).ulist.find? (fun map => map.rport = rport ∧ map.raddr = raddr) =
      (l.find? fun um => (s.cell um).map.rport = rport ∧ (s.cell um).map.raddr = raddr).map
        fun um => (s.cell um).map := List.find?_map ..
  cases hlook : l.find? fun um => (s.cell um).map.rport = rport ∧
      (s.cell um).map.raddr = raddr with
  | some found =>
      refine ⟨s, found, l, rfl, h, List.mem_of_find?_eq_some hlook, ?_⟩
      rw [Udp.getMap, hfind, hlook]
      rfl
  | none =>
      have hnone := List.find?_eq_none.mp hlook
      have hnew : ∀ a ∈ l, (s.cell a).map.client ≠ (raddr, rport) := by
        intro a ha hkey
        obtain ⟨hraddr, hrport⟩ := Prod.mk.inj hkey
        exact hnone a ha (decide_eq_true ⟨hrport, hraddr⟩)
      have hmaps := h.createMap hum hfd hnew now
      refine ⟨_, um, um :: l, rfl, hmaps, List.mem_cons_self, ?_⟩
      obtain ⟨hself, hcell⟩ := createMap_cell s raddr rport fd now
        fun hmem => hum (h.allocated um hmem)
      have hview : (s.createMap raddr rport um fd now).view (um :: l) =
          { s.view l with ulist := ⟨fd, raddr, rport⟩ :: (s.view l).ulist } := by
        rw [UdpMem.view, List.map_cons, hself, List.map_congr_left fun a ha => by rw [hcell a ha]]
        rfl
      rw [Udp.getMap, hfind, hlook, hview, hself]
      rfl

theorem Maps.handleUdp (h : Maps s l) (hum : um ∉ s.allocated) (hfd : s.opened fd = false)
    (r : Recv) (now now' : Timeval) : ∃ s' l', s.handleUdp r um fd now now' = some s' ∧ Maps s' l' ∧
      (s.view l).handleUdp r fd = s'.view l' := by
  rw [UdpMem.handleUdp, Udp.handleUdp]
  by_cases hlisten : s.listening = true
  · obtain ⟨s₁, um₁, l₁, hget, hmaps, hmem, hview⟩ := h.getMap hum hfd r.src (get16 r.d 40) now
    have hlisten' : (s.view l).listening = true := hlisten
    rw [if_pos hlisten, if_pos hlisten', UdpMem.incoming, hget, Udp.incoming, hview]
    exact ⟨_, l₁, rfl, (hmaps.sent _ _).refresh hmem now', rfl⟩
  · have hlisten' : (s.view l).listening ≠ true := hlisten
    rw [if_neg hlisten, if_neg hlisten']
    exact ⟨s, l, rfl, h, rfl⟩

/-! ## Runs -/

theorem eventMap_spec {evs : List Event} {e : ℕ} {f : Callback} (h : eventMap evs e f = some um) :
    ∃ x ∈ evs, x.addr = e ∧ x.func = f ∧ x.data = .udpMap um := by
  obtain ⟨x, hx, hdata⟩ := Option.bind_eq_some_iff.mp h
  obtain ⟨haddr, hfunc⟩ : x.addr = e ∧ x.func = f := by simpa using List.find?_some hx
  refine ⟨x, List.mem_of_find?_eq_some hx, haddr, hfunc, ?_⟩
  split at hdata
  · next hd =>
      rw [← Option.some.inj hdata]
      exact hd
  · cases hdata

/-- The map of a socket, in the list of maps. -/
theorem Maps.find_view (h : Maps s l) (hum : um ∈ l) :
    (s.view l).ulist.find? (fun map => map.fd = (s.cell um).map.fd) = some (s.cell um).map := by
  have hdistinct : (s.view l).Distinct := by
    rw [Udp.Distinct, UdpMem.view, List.map_map]
    exact h.sockets
  have hholds : (s.view l).Holds (s.cell um).map := ⟨hdistinct, List.mem_map_of_mem hum⟩
  exact hholds.find

theorem Maps.map_erase (h : Maps s l) (hum : um ∈ l) :
    (l.erase um).map (fun a => (s.cell a).map) =
      (l.map fun a => (s.cell a).map).erase (s.cell um).map := by
  have hmaps : (l.map fun a => (s.cell a).map).Nodup :=
    List.Nodup.of_map (·.fd) (by rw [List.map_map]; exact h.sockets)
  obtain ⟨l₁, l₂, rfl⟩ := List.append_of_mem hum
  have hnot : um ∉ l₁ := fun hmem =>
    List.disjoint_of_nodup_append h.isList.nodup hmem List.mem_cons_self
  rw [List.map_append, List.map_cons] at hmaps ⊢
  have hnot' : (s.cell um).map ∉ l₁.map fun a => (s.cell a).map := fun hmem =>
    List.disjoint_of_nodup_append hmaps hmem List.mem_cons_self
  rw [List.erase_append_right _ hnot, List.erase_cons_head, List.erase_append_right _ hnot',
    List.erase_cons_head, List.map_append]

/-- One step keeps the maps well formed, and does to them what a step does to the list. -/
theorem Maps.step (h : Maps s l) (hstep : udpMemStep s i = some s') :
    ∃ l', Maps s' l' ∧ Transition.Run udpStep Transition.Always (s.view l) (s'.view l') := by
  cases i with
  | packet r um fd now now' =>
      rw [udpMemStep] at hstep
      split at hstep
      · next hfresh =>
          obtain ⟨s₁, l', hs₁, hmaps, hview⟩ := h.handleUdp hfresh.1 hfresh.2 r now now'
          rw [hs₁] at hstep
          obtain rfl := Option.some.inj hstep
          refine ⟨l', hmaps, .single (i := .packet r fd) trivial ?_⟩
          have hother : ∀ map ∈ (s.view l).ulist, map.fd ≠ fd := by
            intro map hmap heq
            obtain ⟨a, ha, rfl⟩ := List.mem_map.mp hmap
            have hopen := h.opened a ha
            rw [heq, hfresh.2] at hopen
            cases hopen
          rw [udpStep, if_pos hother, hview]
      · cases hstep
  | readable e data src sport pfx now =>
      obtain ⟨um, hmap, rfl⟩ := Option.map_eq_some_iff.mp hstep
      obtain ⟨x, hx, -, -, hdata⟩ := eventMap_spec hmap
      have hum : um ∈ l := (h.events.read.only x hx um hdata).1
      refine ⟨l, (h.sent _ _).refresh hum now, ?_⟩
      refine .single (i := .readable (s.cell um).map.fd data src sport pfx) trivial ?_
      rw [udpStep, h.find_view hum]
      rfl
  | stale e =>
      obtain ⟨um, hmap, rfl⟩ := Option.map_eq_some_iff.mp hstep
      obtain ⟨x, hx, haddr, -, hdata⟩ := eventMap_spec hmap
      have hum : um ∈ l := (h.events.stale.only x hx um hdata).1
      have hstale : (s.cell um).eStale = e := by
        have hpoints := (h.events.stale.points um hum).eq_some hx (decide_eq_true hdata)
        exact (Option.some.inj hpoints).trans haddr
      have hmaps := h.removeUdpMap hum
      rw [hstale] at hmaps
      refine ⟨l.erase um, hmaps, .single (i := .stale (s.cell um).map.fd) trivial ?_⟩
      rw [udpStep, h.find_view hum]
      rw [Option.map_some, Udp.removeMap, UdpMem.view, ← h.map_erase hum]
      rfl
  | others ev opened =>
      rw [udpMemStep] at hstep
      split at hstep
      · next hothers =>
          obtain rfl := Option.some.inj hstep
          exact ⟨l, h.others hothers, .refl⟩
      · cases hstep

/-- What the maps are between two iterations of `event_loop`. -/
structure MapTable (s : UdpMem) (l : List ℕ) : Prop where
  isList : IsList s.links s.ulist l
  inverse : ∀ a ∈ l, ∀ b ∈ l, s.links.next a = some b ↔ s.links.prev b = some a
  client : ∀ a ∈ l, ∀ b ∈ l, (s.cell a).map.client = (s.cell b).map.client → a = b
  socket : ∀ a ∈ l, ∀ b ∈ l, (s.cell a).map.fd = (s.cell b).map.fd → a = b
  opened : ∀ um ∈ l, s.opened (s.cell um).map.fd = true
  read : ∀ um ∈ l, s.ev.fdEventList.filter (refersTo um) =
    [⟨(s.cell um).eFdRead, .handleUdpRead, .udpMap um, .fd (s.cell um).map.fd false⟩]
  stale : ∀ um ∈ l, ∃ t, s.ev.timeEventList.filter (refersTo um) =
    [⟨(s.cell um).eStale, .removeUdpMap, .udpMap um, .time t⟩]
  always : ∀ um, s.ev.alwaysEventList.filter (refersTo um) = []
  refers : ∀ k, ∀ e ∈ s.ev.list k, ∀ um, e.data = .udpMap um → um ∈ l

theorem Maps.mapTable (h : Maps s l) : MapTable s l := by
  have halways : ∀ e ∈ s.ev.alwaysEventList, ∀ um, e.data ≠ .udpMap um := by
    intro e he um hdata
    have hudp := h.events.always e he
    rw [isUdp, hdata] at hudp
    cases hudp
  refine ⟨h.isList, fun a ha b hb => h.isList.inverse ha hb, fun a ha b hb heq => ?_,
    fun a ha b hb heq => ?_, h.opened, fun um hum => ?_, fun um hum => ?_, fun um => ?_, ?_⟩
  · exact List.inj_on_of_nodup_map h.clients ha hb heq
  · exact List.inj_on_of_nodup_map h.sockets ha hb heq
  · obtain ⟨e, hlist, haddr, hdata, hfunc, hkind⟩ := h.events.read.exists_eq hum
    obtain ⟨addr, func, data, kind⟩ := e
    dsimp only at haddr hdata hfunc hkind
    rw [hlist, haddr, hdata, hfunc, hkind]
  · obtain ⟨e, hlist, haddr, hdata, hfunc, t, hkind⟩ := h.events.stale.exists_eq hum
    obtain ⟨addr, func, data, kind⟩ := e
    dsimp only at haddr hdata hfunc hkind
    exact ⟨t, by rw [hlist, haddr, hdata, hfunc, hkind]⟩
  · exact List.filter_eq_nil_iff.mpr fun e he href => halways e he um (of_decide_eq_true href)
  · intro k e he um hdata
    cases k with
    | time => exact (h.events.stale.only e he um hdata).1
    | fd => exact (h.events.read.only e he um hdata).1
    | always => exact absurd hdata (halways e he um)

/-- A datagram that is read from a map's socket is sent to the client whose datagram the socket was
created for. -/
theorem Maps.relayed {e sport : ℕ} {data : List Uchar} {src : InAddr} {pfx : Addr} (h : Maps s l)
    (hstep : udpMemStep s (.readable e data src sport pfx now) = some s') :
    ∃ um ∈ l, ∃ raddr rport, eventMap s.ev.fdEventList e .handleUdpRead = some um ∧
      owner (s.cell um).map.fd s.log = some (raddr, rport) ∧
      s'.sent6 = s.sent6 ++ [udpSend data (embed pfx src) sport raddr rport] := by
  obtain ⟨um, hmap, rfl⟩ := Option.map_eq_some_iff.mp hstep
  obtain ⟨x, hx, -, -, hdata⟩ := eventMap_spec hmap
  have hum : um ∈ l := (h.events.read.only x hx um hdata).1
  exact ⟨um, hum, _, _, hmap, h.owned um hum, rfl⟩

/-- The list model has the same runs. -/
theorem UdpMem.Start.maps_of_run {s₀ : UdpMem} (hstart : s₀.Start)
    (hrun : Transition.Run udpMemStep Transition.Always s₀ s) :
    ∃ l, Maps s l ∧ Transition.Run udpStep Transition.Always Udp.init (s.view l) := by
  have hinit : s₀.view [] = Udp.init := by
    rw [UdpMem.view, hstart.listening, hstart.sent4, hstart.sent6]
    rfl
  rw [← hinit]
  apply hrun.invariant
  · exact ⟨[], hstart.maps, .refl⟩
  · rintro s i s' ⟨l, hmaps, hview⟩ - hstep
    obtain ⟨l', hmaps', hview'⟩ := hmaps.step hstep
    exact ⟨l', hmaps', hview.trans hview'⟩

/-- In whatever order datagrams arrive and maps become stale, every map has its client, its socket
and its two events to itself, no event refers to a map that has been removed, and what is read from
a socket goes to the client that it was created for. The search for a client comes to its end. -/
theorem maps_kept {s₀ : UdpMem} (hstart : s₀.Start)
    (hrun : Transition.Run udpMemStep Transition.Always s₀ s) :
    (∃ l, MapTable s l) ∧
      (∀ e data src sport pfx now s',
        udpMemStep s (.readable e data src sport pfx now) = some s' →
          ∃ um raddr rport, eventMap s.ev.fdEventList e .handleUdpRead = some um ∧
            owner (s.cell um).map.fd s.log = some (raddr, rport) ∧
            s'.sent6 = s.sent6 ++ [udpSend data (embed pfx src) sport raddr rport]) ∧
      ∀ r um fd now now', um ∉ s.allocated → s.opened fd = false →
        ∃ s', udpMemStep s (.packet r um fd now now') = some s' := by
  obtain ⟨l, hmaps, -⟩ := hstart.maps_of_run hrun
  refine ⟨⟨l, hmaps.mapTable⟩, fun e data src sport pfx now s' hstep => ?_,
    fun r um fd now now' hum hfd => ?_⟩
  · obtain ⟨um, -, raddr, rport, hrest⟩ := hmaps.relayed hstep
    exact ⟨um, raddr, rport, hrest⟩
  · obtain ⟨s', -, hs', -⟩ := hmaps.handleUdp hum hfd r now now'
    exact ⟨s', by rw [udpMemStep, if_pos ⟨hum, hfd⟩, hs']⟩

/-- No maps, and nothing else in the daemon. -/
def UdpMem.init : UdpMem where
  links := ⟨fun _ => none, fun _ => none⟩
  cell := fun _ => ⟨⟨0, Addr.zero, 0⟩, 0, 0⟩
  allocated := []
  ulist := none
  opened := fun _ => false
  ev := ⟨[], [], [], 0⟩
  listening := true
  sent4 := []
  sent6 := []
  log := []

/-- The map of a query is removed after its reply, and the next query's map gets the same address
and the same descriptor. -/
theorem maps_kept_reused : ∃ s, (∃ l, MapTable s l) ∧ s.ulist = some 0 ∧
    s.log = [.created 5 otherlladdr 1024, .closed 5, .created 5 otherlladdr 1024] ∧
      s.ev.fdEventList = [⟨2, .handleUdpRead, .udpMap 0, .fd 5 false⟩] ∧ s.sent6.length = 1 := by
  have hexec : ((Transition.exec udpMemStep Transition.Always UdpMem.init
      [.packet query 0 5 ⟨10, 0⟩ ⟨10, 0⟩,
        .readable 0 [1] (embedded translated) 53 translated ⟨20, 0⟩, .stale 1,
        .packet query 0 5 ⟨700, 0⟩ ⟨700, 0⟩]).any fun s => s.ulist = some 0 ∧
      s.log = [.created 5 otherlladdr 1024, .closed 5, .created 5 otherlladdr 1024] ∧
        s.ev.fdEventList = [⟨2, .handleUdpRead, .udpMap 0, .fd 5 false⟩] ∧
          s.sent6.length = 1) = true := by
    decide +kernel
  obtain ⟨s, hrun, hs⟩ := Transition.exists_run_of_exec hexec
  have hstart : UdpMem.init.Start := by
    refine ⟨rfl, rfl, by decide, fun k e he => ?_, rfl, rfl, rfl⟩
    cases k <;> exact absurd he List.not_mem_nil
  exact ⟨s, (maps_kept hstart hrun).1, of_decide_eq_true hs⟩

end

end Ptrtd.Wire
