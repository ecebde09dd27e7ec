import Ptrtd.Model.RelayMem
import Ptrtd.Verification.Relay.BlockOnly

/-! # The relay's pointers

What the pointers of the maps and of the socket events lead to, and what the functions of
`ptrtd-tcp.c` that write them do to it. -/

namespace Ptrtd

open LinkedList

/-- The addresses of events that a map stores are those of registered events, one to read and
another to write. -/
def Linked (c : Conn) : Prop :=
  ∀ map, c.map = some map →
    (∀ e, map.eFdRead = some e ∨ map.eFdWrite = some e → e ∈ c.ev.fdEventList.map Event.addr) ∧
      ∀ e, map.eFdRead = some e → map.eFdWrite ≠ some e

namespace RelayMem

variable {m m' m'' : RelayMem} {t p n : ℕ} {l : List Event} {e : Event}

@[simp] theorem setMap_self (m : RelayMem) (p : ℕ) (map : TcpMap) :
    (m.setMap p map).cell p = { m.cell p with map } := Function.update_self ..

theorem setMap_of_ne {q : ℕ} (hq : q ≠ p) (map : TcpMap) :
    (m.setMap p map).cell q = m.cell q := Function.update_of_ne hq ..

@[simp] theorem addFdEvent_self (m : RelayMem) (a : ℕ) (fd : ℤ) (write : Bool) (f : Callback)
    (d : DataRef) : (m.addFdEvent a fd write f d).event a = ⟨a, f, d, .fd fd write⟩ :=
  Function.update_self ..

theorem addFdEvent_of_ne {a b : ℕ} (hb : b ≠ a) (fd : ℤ) (write : Bool) (f : Callback)
    (d : DataRef) : (m.addFdEvent a fd write f d).event b = m.event b :=
  Function.update_of_ne hb ..

/-! ## Socket events -/

/-- What an event refers to, with the block of a map in place of the map. -/
def owner (m : RelayMem) : DataRef → DataRef
  | .tcpMap p => .tcpMap (m.cell p).tcb
  | d => d

/-- The event at an address, as the connection that owns it sees it. -/
def seen (m : RelayMem) (a : ℕ) : Event :=
  { m.event a with data := m.owner (m.event a).data }

/-- The pointers of `fd_event_list` lead to these events. -/
structure Lists (m : RelayMem) (l : List Event) (n : ℕ) : Prop where
  isList : IsList m.eventLinks m.fdEventList (l.map Event.addr)
  seen : ∀ e ∈ l, m.seen e.addr = e
  lt : ∀ e ∈ l, e.addr < n

theorem owner_congr (h : ∀ q, (m'.cell q).tcb = (m.cell q).tcb) (d : DataRef) :
    m'.owner d = m.owner d := by
  cases d with
  | tcpMap q => exact congrArg DataRef.tcpMap (h q)
  | tcb | udpMap | iface => rfl

theorem seen_congr (h : ∀ q, (m'.cell q).tcb = (m.cell q).tcb) {a : ℕ}
    (hevent : m'.event a = m.event a) : m'.seen a = m.seen a := by
  rw [RelayMem.seen, RelayMem.seen, hevent, owner_congr h]

/-- `del_event` where the pointer may be null. -/
def delEvent? (a : Option ℕ) (l : List Event) : List Event := a.elim l fun b => delEvent b l

theorem mem_delEvent? {a : Option ℕ} : e ∈ delEvent? a l ↔ e ∈ l ∧ a ≠ some e.addr := by
  cases a with
  | none => simp [delEvent?]
  | some b => exact mem_delEvent.trans (and_congr_right fun _ => by simp [eq_comm])

/-- The first half of `kill_map`: the events of the map are unlinked. -/
def unhook (m : RelayMem) (map : TcpMap) : RelayMem :=
  (m.removeFd? map.eFdWrite).removeFd? map.eFdRead

theorem unhook_eq (m : RelayMem) (map : TcpMap) :
    ∃ k o, m.unhook map = { m with eventLinks := k, fdEventList := o } := by
  obtain ⟨fd, r, w⟩ := map
  cases r <;> cases w <;> exact ⟨_, _, rfl⟩

namespace Lists

theorem mono (h : m.Lists l n) {n' : ℕ} (hn : n ≤ n') : m.Lists l n' :=
  ⟨h.isList, h.seen, fun e he => (h.lt e he).trans_le hn⟩

theorem congr (h : m.Lists l n) (hlinks : m'.eventLinks = m.eventLinks)
    (hhead : m'.fdEventList = m.fdEventList) (hseen : ∀ e ∈ l, m'.seen e.addr = m.seen e.addr) :
    m'.Lists l n :=
  ⟨hlinks ▸ hhead ▸ h.isList, fun e he => (hseen e he).trans (h.seen e he), h.lt⟩

theorem not_mem (h : m.Lists l n) : n ∉ l.map Event.addr := by
  intro hmem
  obtain ⟨e, he, haddr⟩ := List.mem_map.mp hmem
  exact absurd (h.lt e he) (Nat.not_lt.mpr haddr.ge)

theorem length_le (h : m.Lists l n) : l.length ≤ n := by
  have hsub : l.map Event.addr ⊆ List.range n := by
    intro a ha
    obtain ⟨e, he, rfl⟩ := List.mem_map.mp ha
    exact List.mem_range.mpr (h.lt e he)
  have hle := (List.subperm_of_subset h.isList.nodup hsub).length_le
  rwa [List.length_map, List.length_range] at hle

/-- A new event comes first. -/
theorem addFdEvent (h : m.Lists l n) (fd : ℤ) (write : Bool) (f : Callback) (d : DataRef) :
    (m.addFdEvent n fd write f d).Lists (⟨n, f, m.owner d, .fd fd write⟩ :: l) (n + 1) := by
  have hnot := h.not_mem
  have hne : ∀ {a}, a ∈ l.map Event.addr → a ≠ n := fun ha heq => hnot (heq ▸ ha)
  have hlist : IsList ((m.eventLinks.setNext n none).setPrev n none) m.fdEventList
      (l.map Event.addr) := by
    refine h.isList.congr (fun a ha => ?_) fun a ha => ?_
    · rw [Links.setPrev_of_ne (hne ha), Links.setNext_prev]
    · rw [Links.setPrev_next, Links.setNext_of_ne (hne ha)]
  have htcb : ∀ q, ((m.addFdEvent n fd write f d).cell q).tcb = (m.cell q).tcb := fun _ => rfl
  refine ⟨hlist.pushFront hnot Links.setPrev_prev, fun e he => ?_, fun e he => ?_⟩
  · rcases List.mem_cons.mp he with rfl | he
    · rw [RelayMem.seen, addFdEvent_self]
      dsimp only
      rw [owner_congr htcb]
    · have hevent := addFdEvent_of_ne (m := m) (hne (List.mem_map_of_mem he)) fd write f d
      exact (seen_congr htcb hevent).trans (h.seen e he)
  · rcases List.mem_cons.mp he with rfl | he
    · exact Nat.lt_succ_self _
    · exact Nat.lt_succ_of_lt (h.lt e he)

/-- An event of the list is unlinked. -/
theorem removeFdEvent (h : m.Lists l n) {a : ℕ} (ha : a ∈ l.map Event.addr) :
    (m.removeFdEvent a).Lists (delEvent a l) n := by
  have hmap : (delEvent a l).map Event.addr = (l.map Event.addr).erase a := by
    rw [h.isList.nodup.erase_eq_filter, List.filter_map]
    refine congrArg _ (List.filter_congr fun e _ => ?_)
    by_cases he : e.addr = a <;> simp [he]
  have hlist := h.isList.unlink ha
  refine ⟨?_, fun e he => ?_, fun e he => h.lt e (mem_delEvent.mp he).1⟩
  · rw [hmap]
    rw [← unlink_next_self] at hlist
    exact hlist
  · exact h.seen e (mem_delEvent.mp he).1

theorem removeFd? (h : m.Lists l n) {a : Option ℕ}
    (ha : ∀ b, a = some b → b ∈ l.map Event.addr) : (m.removeFd? a).Lists (delEvent? a l) n := by
  cases a with
  | none => exact h
  | some b => exact h.removeFdEvent (ha b rfl)

/-- Both events of a map are unlinked, which are two. -/
theorem unhook (h : m.Lists l n) {map : TcpMap}
    (hin : ∀ a, map.eFdRead = some a ∨ map.eFdWrite = some a → a ∈ l.map Event.addr)
    (hne : ∀ a, map.eFdRead = some a → map.eFdWrite ≠ some a) :
    (m.unhook map).Lists (delEvent? map.eFdRead (delEvent? map.eFdWrite l)) n := by
  refine (h.removeFd? fun b hb => hin b (.inr hb)).removeFd? fun b hb => ?_
  obtain ⟨e, he, rfl⟩ := List.mem_map.mp (hin b (.inl hb))
  refine List.mem_map_of_mem (mem_delEvent?.mpr ⟨he, fun hw => ?_⟩)
  exact hne e.addr hb hw

/-- What `event_loop` comes to. -/
theorem walk (h : m.Lists l n) : m.walk n m.fdEventList = l.map Event.addr := by
  have hwalk : ∀ (k : List ℕ) (q : Option ℕ) (fuel : ℕ), Seg m.eventLinks q k none →
      k.length ≤ fuel → m.walk fuel k.head? = k := by
    intro k
    induction k with
    | nil =>
        intro q fuel _ _
        cases fuel <;> rfl
    | cons a k ih =>
        intro q fuel hseg hlen
        cases fuel with
        | zero => cases hlen
        | succ fuel =>
            obtain ⟨-, hnext, hrest⟩ := hseg
            rw [Option.or_none] at hnext
            rw [List.head?_cons, RelayMem.walk, hnext,
              ih _ fuel hrest (Nat.le_of_succ_le_succ hlen)]
  rw [h.isList.head]
  refine hwalk _ _ n h.isList.seg ?_
  rw [List.length_map]
  exact h.length_le

end Lists

/-! ## Maps -/

/-- The map at `p` is that of the block at `t`. -/
structure IsMap (m : RelayMem) (t p : ℕ) : Prop where
  appData : m.appData t = some p
  allocated : p ∈ m.allocated
  tcb : (m.cell p).tcb = t

/-- The map of a block, if it has one. -/
def mapAt (m : RelayMem) (t : ℕ) : Option TcpMap :=
  (m.appData t).bind fun p =>
    if p ∈ m.allocated ∧ (m.cell p).tcb = t then some (m.cell p).map else none

theorem IsMap.mapAt (h : m.IsMap t p) : m.mapAt t = some (m.cell p).map := by
  rw [RelayMem.mapAt, h.appData]
  exact if_pos ⟨h.allocated, h.tcb⟩

theorem IsMap.setMap (h : m.IsMap t p) (map : TcpMap) : (m.setMap p map).IsMap t p :=
  ⟨h.appData, h.allocated, (congrArg MapCell.tcb (setMap_self m p map)).trans h.tcb⟩

theorem exists_isMap {map : TcpMap} (h : m.mapAt t = some map) :
    ∃ p, m.IsMap t p ∧ (m.cell p).map = map := by
  obtain ⟨p, happ, h⟩ := Option.bind_eq_some_iff.mp h
  split at h
  · next hp => exact ⟨p, ⟨happ, hp.1, hp.2⟩, Option.some.inj h⟩
  · cases h

/-- What a socket event refers to: a map that is allocated, or what is not of the relay. -/
def Backed (m : RelayMem) (d : DataRef) : Prop :=
  foreign d = true ∨ ∃ q ∈ m.allocated, d = .tcpMap q

theorem Backed.mem {d : DataRef} (h : Backed m d) (hd : d = .tcpMap p) : p ∈ m.allocated := by
  subst hd
  rcases h with hforeign | ⟨q, hq, heq⟩
  · cases hforeign
  · cases heq
    exact hq

theorem Backed.imp {d : DataRef} (h : Backed m d)
    (hmem : ∀ q, d = .tcpMap q → q ∈ m.allocated → q ∈ m'.allocated) : Backed m' d := by
  obtain hforeign | ⟨q, hq, hd⟩ := h
  · exact .inl hforeign
  · exact .inr ⟨q, hmem q hd hq, hd⟩

/-- The pointers of `tlist` lead to the maps that are allocated. -/
structure Maps (m : RelayMem) (l : List ℕ) : Prop where
  isList : IsList m.links m.tlist l
  mem : ∀ q, q ∈ l ↔ q ∈ m.allocated
  nodup : m.allocated.Nodup
  count : m.numTcpMaps = l.length

/-- The second half of `kill_map`: the map leaves `tlist` and is freed. -/
def freeMap (m : RelayMem) (p : ℕ) : RelayMem :=
  { m with
    links := m.links.unlink p
    tlist := if m.tlist = some p then (m.links.unlink p).next p else m.tlist
    numTcpMaps := m.numTcpMaps - 1
    allocated := m.allocated.erase p }

theorem Maps.freeMap {l : List ℕ} (h : m.Maps l) (hp : p ∈ m.allocated) :
    (m.freeMap p).Maps (l.erase p) := by
  have hmem := (h.mem p).mpr hp
  have hlist := h.isList.unlink hmem
  rw [← unlink_next_self] at hlist
  refine ⟨hlist, fun q => ?_, h.nodup.erase p, ?_⟩
  · refine h.isList.nodup.mem_erase_iff.trans (Iff.trans ?_ h.nodup.mem_erase_iff.symm)
    exact and_congr_right fun _ => h.mem q
  · have hpos : 0 < l.length := List.length_pos_of_mem hmem
    have hcount := h.count
    rw [List.length_erase_of_mem hmem]
    change m.numTcpMaps - 1 = _
    omega

/-- No event of the list is one of the new map. -/
theorem Lists.newMap (h : m.Lists l n) (hnew : ∀ e ∈ l, (m.event e.addr).data ≠ .tcpMap p)
    (t : ℕ) (fd : ℤ) : (m.newMap t p fd).Lists l n := by
  refine h.congr rfl rfl fun e he => ?_
  have hdata := hnew e he
  rw [RelayMem.seen, RelayMem.seen, show (m.newMap t p fd).event = m.event from rfl]
  cases hd : (m.event e.addr).data with
  | tcpMap q =>
      have hq : q ≠ p := fun heq => hdata (hd.trans (congrArg DataRef.tcpMap heq))
      have hcell : (m.newMap t p fd).cell q = m.cell q := Function.update_of_ne hq ..
      rw [owner, owner, hcell]
  | tcb | udpMap | iface => rfl

/-- The block has the new map. -/
theorem isMap_newMap (m : RelayMem) (t p : ℕ) (fd : ℤ) :
    (m.newMap t p fd).IsMap t p ∧ ((m.newMap t p fd).cell p).map = ⟨fd, none, none⟩ := by
  have hcell : (m.newMap t p fd).cell p = ⟨⟨fd, none, none⟩, t⟩ := Function.update_self ..
  refine ⟨⟨Function.update_self .., List.mem_cons_self, ?_⟩, ?_⟩
  · rw [hcell]
  · rw [hcell]

/-- The other blocks keep their maps. -/
theorem mapAt_newMap {u : ℕ} (hu : u ≠ t) (hp : p ∉ m.allocated) (fd : ℤ) :
    (m.newMap t p fd).mapAt u = m.mapAt u := by
  have happ : (m.newMap t p fd).appData u = m.appData u := Function.update_of_ne hu ..
  rw [mapAt, mapAt, happ]
  congr 1
  funext q
  by_cases hq : q = p
  · subst hq
    have htcb : ((m.newMap t q fd).cell q).tcb = t := (m.isMap_newMap t q fd).1.tcb
    rw [if_neg fun h => hu (h.2.symm.trans htcb), if_neg fun h => hp h.1]
  · have hcell : (m.newMap t p fd).cell q = m.cell q := Function.update_of_ne hq ..
    rw [hcell]
    refine if_congr (and_congr_left' ?_) rfl rfl
    exact List.mem_cons.trans (or_iff_right hq)

/-- A new map comes first. -/
theorem Maps.newMap {l : List ℕ} (h : m.Maps l) (hp : p ∉ m.allocated) (fd : ℤ) :
    (m.newMap t p fd).Maps (p :: l) := by
  have hnot : p ∉ l := fun hmem => hp ((h.mem p).mp hmem)
  have hlist : IsList (m.links.setPrev p none) m.tlist l :=
    h.isList.congr (fun q hq => Links.setPrev_of_ne fun heq => hnot (heq ▸ hq)) fun _ _ => rfl
  have hpush := hlist.pushFront hnot Links.setPrev_prev
  rw [Links.pushFront, Links.setNext_next] at hpush
  refine ⟨hpush, fun q => ?_, List.nodup_cons.mpr ⟨hp, h.nodup⟩, ?_⟩
  · exact (List.mem_cons.trans (or_congr_right (h.mem q))).trans List.mem_cons.symm
  · change m.numTcpMaps + 1 = _
    rw [h.count]
    rfl

end RelayMem

end Ptrtd
