import Mathlib.Data.List.Sublists
import Mathlib.Data.List.Lattice
import Ptrtd.Model.EventMem

/-! # The event lists are what the pointers lead to

Each function of `event.c` keeps the three doubly linked lists, and does to them what its
counterpart does to the lists of `EventLists`. -/

namespace Ptrtd

open LinkedList

variable {m m' : EventMem} {ev : EventLists} {k j : ListKind} {e x : Event} {l l' : List Event}
  {a : ℕ} {t : Timeval} {f : Callback} {d : DataRef}

/-- The pointers of the memory lead to the events of the lists. -/
structure Represents (m : EventMem) (ev : EventLists) : Prop where
  isList : ∀ k, IsList m.links (m.head k) ((ev.list k).map Event.addr)
  event : ∀ k, ∀ e ∈ ev.list k, m.event e.addr = e
  kind : ∀ k, ∀ e ∈ ev.list k, e.kind.list = k
  lt : ∀ k, ∀ e ∈ ev.list k, e.addr < ev.next
  next : m.next = ev.next

/-- An address belongs to one event of one list. -/
theorem Represents.eq_of_addr (h : Represents m ev) (he : e ∈ ev.list k) (hx : x ∈ ev.list j)
    (haddr : e.addr = x.addr) : e = x ∧ k = j := by
  have heq : e = x := by rw [← h.event k e he, ← h.event j x hx, haddr]
  subst heq
  exact ⟨rfl, (h.kind k e he).symm.trans (h.kind j e hx)⟩

/-- The events of a list are not in another one. -/
theorem Represents.not_mem (h : Represents m ev) (hx : x ∈ ev.list j) (hne : j ≠ k) :
    x.addr ∉ (ev.list k).map Event.addr := by
  intro hmem
  obtain ⟨e, he, haddr⟩ := List.mem_map.mp hmem
  exact hne (h.eq_of_addr he hx haddr).2.symm

theorem Represents.fresh_ne (h : Represents m ev) (hx : x ∈ ev.list k) : x.addr ≠ m.next := by
  have hlt := h.lt k x hx
  rw [h.next]
  omega

/-- There are no more events than addresses. -/
theorem Represents.length_le (h : Represents m ev) (k : ListKind) :
    (ev.list k).length ≤ m.next := by
  have hsub : (ev.list k).map Event.addr ⊆ List.range m.next := by
    intro a ha
    obtain ⟨e, he, rfl⟩ := List.mem_map.mp ha
    rw [List.mem_range, h.next]
    exact h.lt k e he
  have hle := (List.subperm_of_subset (h.isList k).nodup hsub).length_le
  rwa [List.length_map, List.length_range] at hle

/-- One list is changed and the others are left alone. -/
theorem Represents.replace (h : Represents m ev) (k : ListKind)
    (hlist : IsList m'.links (m'.head k) (l'.map Event.addr))
    (hevent : ∀ e ∈ l', m'.event e.addr = e ∧ e.kind.list = k ∧ e.addr < ev.next)
    (hhead : ∀ j ≠ k, m'.head j = m.head j) (hnext : m'.next = m.next)
    (hframe : ∀ j ≠ k, ∀ e ∈ ev.list j, m'.links.prev e.addr = m.links.prev e.addr ∧
      m'.links.next e.addr = m.links.next e.addr ∧ m'.event e.addr = m.event e.addr) :
    Represents m' (ev.setList k l') := by
  refine ⟨fun j => ?_, fun j x hx => ?_, fun j x hx => ?_, fun j x hx => ?_, ?_⟩
  · by_cases hj : j = k
    · subst hj
      rw [EventLists.list_setList]
      exact hlist
    · rw [EventLists.list_setList_of_ne hj, hhead j hj]
      refine (h.isList j).congr (fun a ha => ?_) fun a ha => ?_
      · obtain ⟨x, hx, rfl⟩ := List.mem_map.mp ha
        exact (hframe j hj x hx).1
      · obtain ⟨x, hx, rfl⟩ := List.mem_map.mp ha
        exact (hframe j hj x hx).2.1
  · by_cases hj : j = k
    · subst hj
      rw [EventLists.list_setList] at hx
      exact (hevent x hx).1
    · rw [EventLists.list_setList_of_ne hj] at hx
      exact (hframe j hj x hx).2.2.trans (h.event j x hx)
  · by_cases hj : j = k
    · subst hj
      rw [EventLists.list_setList] at hx
      exact (hevent x hx).2.1
    · rw [EventLists.list_setList_of_ne hj] at hx
      exact h.kind j x hx
  · rw [EventLists.setList_next]
    by_cases hj : j = k
    · subst hj
      rw [EventLists.list_setList] at hx
      exact (hevent x hx).2.2
    · rw [EventLists.list_setList_of_ne hj] at hx
      exact h.lt j x hx
  · rw [EventLists.setList_next, hnext, h.next]

/-! ## Adding -/

/-- The new event is in no list, and linked to nothing. -/
theorem Represents.newEvent (h : Represents m ev) (f : Callback) (d : DataRef)
    (kind : EventKind) : Represents (m.newEvent f d kind) { ev with next := ev.next + 1 } := by
  have hlist : ∀ j, ({ ev with next := ev.next + 1 } : EventLists).list j = ev.list j := by
    intro j
    cases j <;> rfl
  have hhead : ∀ j, (m.newEvent f d kind).head j = m.head j := by
    intro j
    cases j <;> rfl
  refine ⟨fun j => ?_, fun j e he => ?_, fun j e he => ?_, fun j e he => ?_, ?_⟩
  · rw [hlist, hhead]
    refine (h.isList j).congr (fun a ha => ?_) fun a ha => ?_
    · obtain ⟨x, hx, rfl⟩ := List.mem_map.mp ha
      exact Links.setPrev_of_ne (h.fresh_ne hx)
    · obtain ⟨x, hx, rfl⟩ := List.mem_map.mp ha
      exact Links.setNext_of_ne (h.fresh_ne hx)
  · rw [hlist] at he
    exact (Function.update_of_ne (h.fresh_ne he) ..).trans (h.event j e he)
  · exact h.kind j e (hlist j ▸ he)
  · exact Nat.lt_succ_of_lt (h.lt j e (hlist j ▸ he))
  · exact congrArg (· + 1) h.next

/-- An event that is in no list and linked to nothing is put in front of a list. -/
theorem Represents.pushEvent (h : Represents m ev) (hprev : m.links.prev e.addr = none)
    (hevent : m.event e.addr = e) (hfresh : ∀ j, e.addr ∉ (ev.list j).map Event.addr)
    (hlt : e.addr < ev.next) :
    Represents (m.pushEvent e.addr e.kind.list)
      (ev.setList e.kind.list (e :: ev.list e.kind.list)) := by
  have hlist := h.isList e.kind.list
  refine h.replace e.kind.list ?_ ?_ (fun j hj => ?_) ?_ fun j hj x hx => ?_
  · rw [EventMem.pushEvent, EventMem.setHead_links, EventMem.head_setHead]
    exact hlist.pushFront (hfresh _) hprev
  · intro x hx
    rw [EventMem.pushEvent, EventMem.setHead_event]
    rcases List.mem_cons.mp hx with rfl | hx
    · exact ⟨hevent, rfl, hlt⟩
    · exact ⟨h.event _ x hx, h.kind _ x hx, h.lt _ x hx⟩
  · rw [EventMem.pushEvent, EventMem.head_setHead_of_ne hj]
    cases j <;> rfl
  · rw [EventMem.pushEvent, EventMem.setHead_next]
  · have hne : x.addr ≠ e.addr := fun heq => hfresh j (heq ▸ List.mem_map_of_mem hx)
    rw [EventMem.pushEvent, EventMem.setHead_links, EventMem.setHead_event]
    obtain ⟨hp, hn⟩ := hlist.pushFront_of_not_mem (h.not_mem hx hj) hne
    exact ⟨hp, hn, rfl⟩

/-- The address of a new event is in no list. -/
theorem Represents.fresh (h : Represents m ev) (j : ListKind) :
    m.next ∉ (ev.list j).map Event.addr := by
  intro hmem
  obtain ⟨x, hx, haddr⟩ := List.mem_map.mp hmem
  exact h.fresh_ne hx haddr

/-- What `add_fd_event` and `add_always_event` have in common. -/
theorem Represents.push (h : Represents m ev) (kind : EventKind) :
    Represents ((m.newEvent f d kind).pushEvent m.next kind.list)
      (({ ev with next := ev.next + 1 } : EventLists).setList kind.list
        (⟨ev.next, f, d, kind⟩ :: ev.list kind.list)) := by
  have hnew := h.newEvent f d kind
  have hlist : ∀ j, ({ ev with next := ev.next + 1 } : EventLists).list j = ev.list j := by
    intro j
    cases j <;> rfl
  have hpush := hnew.pushEvent (e := ⟨m.next, f, d, kind⟩) (by simp [EventMem.newEvent])
    (by simp [EventMem.newEvent]) (fun j => by rw [hlist]; exact h.fresh j)
    (by simp [h.next])
  rw [hlist] at hpush
  have heq : (⟨ev.next, f, d, kind⟩ : Event) = ⟨m.next, f, d, kind⟩ := by rw [h.next]
  rw [heq]
  exact hpush

theorem Represents.addFdEvent (h : Represents m ev) (fd : ℤ) (write : Bool) (f : Callback)
    (d : DataRef) :
    Represents (m.addFdEvent fd write f d) (Ptrtd.addFdEvent ev fd write f d) :=
  h.push (.fd fd write)

theorem Represents.addAlwaysEvent (h : Represents m ev) (f : Callback) (d : DataRef) :
    Represents (m.addAlwaysEvent f d) (Ptrtd.addAlwaysEvent ev f d) :=
  h.push .always

/-! ## Removing -/

/-- `del_event` unlinks the event of a list that has the address. -/
theorem Represents.delEvent (h : Represents m ev) (he : e ∈ ev.list k) :
    Represents (m.delEvent e.addr k) (ev.setList k (Ptrtd.delEvent e.addr (ev.list k))) := by
  have hlist := h.isList k
  have hmem : e.addr ∈ (ev.list k).map Event.addr := List.mem_map_of_mem he
  have hmap : (Ptrtd.delEvent e.addr (ev.list k)).map Event.addr =
      ((ev.list k).map Event.addr).erase e.addr := by
    rw [hlist.nodup.erase_eq_filter, List.filter_map]
    congr 1
    refine List.filter_congr fun x _ => ?_
    by_cases hx : x.addr = e.addr <;> simp [hx]
  refine h.replace k ?_ (fun x hx => ?_) (fun j hj => ?_) ?_ fun j hj x hx => ?_
  · rw [EventMem.delEvent, EventMem.setHead_links, EventMem.head_setHead, hmap,
      unlink_next_self]
    exact hlist.unlink hmem
  · rw [EventMem.delEvent, EventMem.setHead_event]
    have hx := (mem_delEvent.mp hx).1
    exact ⟨h.event k x hx, h.kind k x hx, h.lt k x hx⟩
  · rw [EventMem.delEvent, EventMem.head_setHead_of_ne hj]
    cases j <;> rfl
  · rw [EventMem.delEvent, EventMem.setHead_next]
  · rw [EventMem.delEvent, EventMem.setHead_links, EventMem.setHead_event]
    obtain ⟨hp, hn⟩ := hlist.unlink_of_not_mem hmem (h.not_mem hx hj)
    exact ⟨hp, hn, rfl⟩

theorem Represents.removeEvent (h : Represents m ev) (he : e ∈ ev.list k) :
    Represents (m.removeEvent e.addr) (ev.setList k (Ptrtd.delEvent e.addr (ev.list k))) := by
  rw [EventMem.removeEvent, h.event k e he, h.kind k e he]
  exact h.delEvent he

/-! ## Placing a time event -/

/-- The loop of `resched_time_event` from the event behind `l₁` on. -/
theorem placeTimeEvent_spec {l₁ l₂ : List Event} {fuel : ℕ}
    (hlist : IsList m.links m.timeEventList ((l₁ ++ l₂).map Event.addr))
    (hevents : ∀ x ∈ l₂, m.event x.addr = x) (hevent : m.event e.addr = e)
    (hnot : e.addr ∉ (l₁ ++ l₂).map Event.addr) (hne : l₂ ≠ []) (hfuel : l₂.length ≤ fuel) :
    ∃ links hd, m.placeTimeEvent e.addr fuel (l₂.head?.map Event.addr) =
        some { m with links, timeEventList := hd } ∧
      IsList links hd ((l₁ ++ insertTimeEvent e l₂).map Event.addr) ∧
      ∀ b, b ∉ (l₁ ++ l₂).map Event.addr → b ≠ e.addr →
        links.prev b = m.links.prev b ∧ links.next b = m.links.next b := by
  induction l₂ generalizing l₁ fuel with
  | nil => exact absurd rfl hne
  | cons t rest ih =>
      obtain ⟨fuel, rfl⟩ : ∃ n, fuel = n + 1 := ⟨fuel - 1, by simp at hfuel; omega⟩
      have ht : m.event t.addr = t := hevents t List.mem_cons_self
      have hmap : (l₁ ++ t :: rest).map Event.addr =
          l₁.map Event.addr ++ t.addr :: rest.map Event.addr := by simp
      have hmem : t.addr ∈ (l₁ ++ t :: rest).map Event.addr := by simp
      have hnext : m.links.next t.addr = rest.head?.map Event.addr := by
        rw [← List.head?_map]
        exact (hmap ▸ hlist).seg.links.2
      have hhead : (t :: rest).head?.map Event.addr = some t.addr := rfl
      rw [hhead, EventMem.placeTimeEvent, hevent, ht, insertTimeEvent]
      by_cases hlater : timeDiff e.time t.time > 0
      · rw [if_pos hlater, if_pos hlater]
        refine ⟨_, _, rfl, ?_, fun b hb hbe => ?_⟩
        · rw [hmap] at hlist hnot
          have hins := hlist.insertBefore hnot
          have hmap' : (l₁ ++ e :: t :: rest).map Event.addr =
              l₁.map Event.addr ++ e.addr :: t.addr :: rest.map Event.addr := by simp
          rw [hmap']
          exact hins
        · exact hlist.insertBefore_of_not_mem hmem hnot hb hbe
      · rw [if_neg hlater, if_neg hlater, hnext]
        cases rest with
        | nil =>
            refine ⟨_, _, rfl, ?_, fun b hb hbe => ?_⟩
            · rw [hmap] at hlist hnot
              have hins := hlist.insertLast hnot
              have hmap' : (l₁ ++ t :: insertTimeEvent e []).map Event.addr =
                  l₁.map Event.addr ++ [t.addr, e.addr] := by simp [insertTimeEvent]
              rw [hmap']
              exact hins
            · refine insertLast_of_ne ?_ hbe
              rintro rfl
              exact hb hmem
        | cons u rest =>
            have hsplit : l₁ ++ t :: u :: rest = (l₁ ++ [t]) ++ u :: rest := by simp
            rw [hsplit] at hlist hnot ⊢
            have hgoal := ih hlist (fun x hx => hevents x (List.mem_cons_of_mem t hx)) hnot
              (List.cons_ne_nil u rest) (Nat.le_of_succ_le_succ hfuel)
            have hmap' : l₁ ++ t :: insertTimeEvent e (u :: rest) =
                (l₁ ++ [t]) ++ insertTimeEvent e (u :: rest) := by simp
            rw [hmap', if_neg (by simp)]
            exact hgoal

/-- An event that is in no list is linked into the time list. -/
theorem Represents.linkTimeEvent (h : Represents m ev) (hevent : m.event e.addr = e)
    (hkind : e.kind.list = .time) (hnot : ∀ j, e.addr ∉ (ev.list j).map Event.addr)
    (hlt : e.addr < ev.next) (hnull : ev.timeEventList = [] →
      m.links.prev e.addr = none ∧ m.links.next e.addr = none) :
    ∃ m', m.linkTimeEvent e.addr = some m' ∧
      Represents m' (ev.setList .time (insertTimeEvent e ev.timeEventList)) := by
  have hlist : IsList m.links m.timeEventList (ev.timeEventList.map Event.addr) := h.isList .time
  have hevents : ∀ x ∈ insertTimeEvent e ev.timeEventList,
      m.event x.addr = x ∧ x.kind.list = .time ∧ x.addr < ev.next := by
    intro x hx
    rcases mem_insertTimeEvent.mp hx with rfl | hx
    · exact ⟨hevent, hkind, hlt⟩
    · exact ⟨h.event .time x hx, h.kind .time x hx, h.lt .time x hx⟩
  have hhead := hlist.head
  rw [EventMem.linkTimeEvent]
  cases htimes : ev.timeEventList with
  | nil =>
      rw [htimes] at hhead hevents
      rw [hhead]
      refine ⟨_, rfl, h.replace .time ?_ hevents (fun j hj => ?_) rfl
        fun _ _ _ _ => ⟨rfl, rfl, rfl⟩⟩
      · obtain ⟨hprev, hnext⟩ := hnull htimes
        exact ⟨rfl, List.nodup_singleton _, hprev, hnext, trivial⟩
      · cases j with
        | time => exact absurd rfl hj
        | fd => rfl
        | always => rfl
  | cons t rest =>
      have hsome : m.timeEventList = some t.addr := by rw [hhead, htimes]; rfl
      have hlen : (t :: rest).length ≤ m.next := htimes ▸ h.length_le .time
      have hnot' := hnot .time
      rw [EventLists.list, htimes] at hnot'
      rw [htimes] at hlist hevents
      have hlist' : IsList m.links m.timeEventList (([] ++ t :: rest).map Event.addr) := hlist
      obtain ⟨links, hd, hplace, hlinked, hframe⟩ := placeTimeEvent_spec hlist'
        (fun x hx => h.event .time x (by rw [EventLists.list, htimes]; exact hx)) hevent hnot'
        (List.cons_ne_nil t rest) hlen
      rw [hsome]
      refine ⟨_, hplace, h.replace .time hlinked hevents (fun j hj => ?_) rfl fun j hj x hx => ?_⟩
      · cases j with
        | time => exact absurd rfl hj
        | fd => rfl
        | always => rfl
      · have hout := h.not_mem hx hj
        rw [EventLists.list, htimes] at hout
        obtain ⟨hp, hn⟩ := hframe x.addr hout fun heq => hnot j (heq ▸ List.mem_map_of_mem hx)
        exact ⟨hp, hn, rfl⟩

/-- The fields of an event that is in no list are assigned. -/
theorem Represents.setEvent (h : Represents m ev) (hnot : ∀ j, a ∉ (ev.list j).map Event.addr)
    (r : ℕ → Bool) :
    Represents { m with event := Function.update m.event a x, remove := r } ev := by
  refine ⟨fun j => ?_, fun j y hy => ?_, h.kind, h.lt, h.next⟩
  · have hlist := h.isList j
    cases j <;> exact hlist
  · have hne : y.addr ≠ a := fun heq => hnot j (heq ▸ List.mem_map_of_mem hy)
    exact (Function.update_of_ne hne ..).trans (h.event j y hy)

theorem Represents.addTimeEvent (h : Represents m ev) (t : Timeval) (f : Callback)
    (d : DataRef) :
    ∃ m', m.addTimeEvent t f d = some m' ∧ Represents m' (Ptrtd.addTimeEvent ev t f d) := by
  have hnew := h.newEvent f d (.time t)
  have hlist : ∀ j, ({ ev with next := ev.next + 1 } : EventLists).list j = ev.list j := by
    intro j
    cases j <;> rfl
  have hfresh : ∀ j, m.next ∉ (({ ev with next := ev.next + 1 } : EventLists).list j).map
      Event.addr := by
    intro j
    rw [hlist]
    exact h.fresh j
  obtain ⟨m₁, hm₁⟩ : ∃ m₁, m₁ = m.newEvent f d (.time t) := ⟨_, rfl⟩
  have hself : m₁.links.prev m.next = none ∧ m₁.links.next m.next = none ∧
      m₁.event m.next = ⟨ev.next, f, d, .time t⟩ := by simp [hm₁, EventMem.newEvent, h.next]
  obtain ⟨hprev, hnext, hevent⟩ := hself
  rw [← hm₁] at hnew
  -- the event is not in the list yet, so `del_event` does nothing
  have hdel : (m₁.delEvent m.next .time) = m₁ := by
    have hhead : m₁.head .time ≠ some m.next := by
      intro heq
      refine hfresh .time (List.mem_of_head? ?_)
      rw [← (hnew.isList .time).head, heq]
    rw [EventMem.delEvent, unlink_of_null hprev hnext, if_neg hhead]
    rfl
  obtain ⟨m₂, hm₂⟩ : ∃ m₂ : EventMem, m₂ = { m₁ with
    event := Function.update m₁.event m.next { m₁.event m.next with kind := .time t }
    remove := Function.update m₁.remove m.next false } := ⟨_, rfl⟩
  have hset : Represents m₂ { ev with next := ev.next + 1 } := hm₂ ▸ hnew.setEvent hfresh _
  have hadd : m.addTimeEvent t f d = m₂.linkTimeEvent m.next := by
    have hcomm : m₂.delEvent m.next .time = { m₁.delEvent m.next .time with
      event := Function.update m₁.event m.next { m₁.event m.next with kind := .time t }
      remove := Function.update m₁.remove m.next false } := by rw [hm₂]; rfl
    rw [EventMem.addTimeEvent, ← hm₁, EventMem.reschedTimeEvent]
    dsimp only
    rw [← hm₂, hcomm, hdel, ← hm₂]
  have hevent₂ : m₂.event m.next = ⟨ev.next, f, d, .time t⟩ := by
    rw [hm₂, hevent]
    exact Function.update_self ..
  obtain ⟨m', hm', hrep⟩ := hset.linkTimeEvent (e := ⟨ev.next, f, d, .time t⟩)
    (h.next ▸ hevent₂) rfl (h.next ▸ hfresh) (Nat.lt_succ_self _) fun _ => by
      rw [hm₂, ← h.next]
      exact ⟨hprev, hnext⟩
  refine ⟨m', ?_, hrep⟩
  rw [hadd, h.next]
  exact hm'

/-- An event that is alone in its list is linked to nothing. -/
theorem Represents.null_of_alone (h : Represents m ev) (he : e ∈ ev.list k)
    (halone : Ptrtd.delEvent e.addr (ev.list k) = []) :
    m.links.prev e.addr = none ∧ m.links.next e.addr = none := by
  have hlist := h.isList k
  obtain ⟨l₁, l₂, hsplit⟩ := List.append_of_mem he
  rw [hsplit] at hlist halone
  have hnot : ∀ x ∈ l₁ ++ l₂, x.addr ≠ e.addr := by
    intro x hx heq
    have hnodup := hlist.nodup
    rw [List.map_append, List.map_cons] at hnodup
    refine (List.nodup_cons.mp (List.nodup_middle.mp hnodup)).1 ?_
    rw [← List.map_append, ← heq]
    exact List.mem_map_of_mem hx
  have hempty : l₁ ++ l₂ = [] := by
    refine List.eq_nil_iff_forall_not_mem.mpr fun x hx => ?_
    have hmem : x ∈ Ptrtd.delEvent e.addr (l₁ ++ e :: l₂) := by
      refine mem_delEvent.mpr ⟨?_, hnot x hx⟩
      rcases List.mem_append.mp hx with hx | hx <;> simp [hx]
    rw [halone] at hmem
    cases hmem
  obtain ⟨rfl, rfl⟩ := List.append_eq_nil_iff.mp hempty
  have hseg : Seg m.links none ([] ++ e.addr :: []) none := hlist.seg
  exact hseg.links

/-- The event with the address of one in the list is that one. -/
theorem find?_addr (hnodup : (l.map Event.addr).Nodup) (he : e ∈ l) :
    (l.find? fun x => x.addr = e.addr) = some e := by
  cases hfind : l.find? fun x => x.addr = e.addr with
  | none =>
      have hnone := List.find?_eq_none.mp hfind e he
      simp at hnone
  | some x =>
      have haddr : x.addr = e.addr := by simpa using List.find?_some hfind
      rw [List.inj_on_of_nodup_map hnodup (List.mem_of_find?_eq_some hfind) he haddr]

/-- An event of the list is taken out and inserted again. -/
theorem reschedTimeEvent_eq (hnodup : (ev.timeEventList.map Event.addr).Nodup)
    (he : e ∈ ev.timeEventList) (t : Timeval) :
    ev.reschedTimeEvent e.addr t = ev.setList .time
      (insertTimeEvent { e with kind := .time t } (delEvent e.addr ev.timeEventList)) := by
  rw [EventLists.reschedTimeEvent, find?_addr hnodup he]
  rfl

theorem Represents.reschedTimeEvent (h : Represents m ev) (he : e ∈ ev.timeEventList)
    (t : Timeval) : ∃ m', m.reschedTimeEvent e.addr t = some m' ∧
      Represents m' (ev.reschedTimeEvent e.addr t) := by
  have hdel := h.delEvent (k := .time) he
  obtain ⟨m₁, hm₁⟩ : ∃ m₁, m₁ = m.delEvent e.addr .time := ⟨_, rfl⟩
  obtain ⟨ev₁, hev₁⟩ : ∃ ev₁, ev₁ = ev.setList .time
    (Ptrtd.delEvent e.addr (ev.list .time)) := ⟨_, rfl⟩
  rw [← hm₁, ← hev₁] at hdel
  have htime : (ev.setList .time (Ptrtd.delEvent e.addr (ev.list .time))).timeEventList =
      Ptrtd.delEvent e.addr ev.timeEventList := rfl
  have hnot : ∀ j, e.addr ∉ (ev₁.list j).map Event.addr := by
    intro j hmem
    obtain ⟨x, hx, haddr⟩ := List.mem_map.mp hmem
    rw [hev₁] at hx
    by_cases hj : j = .time
    · subst hj
      rw [EventLists.list_setList] at hx
      exact (mem_delEvent.mp hx).2 haddr
    · rw [EventLists.list_setList_of_ne hj] at hx
      exact hj (h.eq_of_addr hx (k := j) (j := .time) he haddr).2
  have hset := hdel.setEvent (x := { e with kind := .time t }) hnot
    (Function.update m.remove e.addr false)
  have hevent : m.event e.addr = e := h.event .time e he
  have hresched : m.reschedTimeEvent e.addr t = EventMem.linkTimeEvent { m₁ with
      event := Function.update m₁.event e.addr { e with kind := .time t }
      remove := Function.update m.remove e.addr false } e.addr := by
    rw [EventMem.reschedTimeEvent, hevent, hm₁]
    rfl
  have hnext : ev₁.next = ev.next := by rw [hev₁, EventLists.setList_next]
  obtain ⟨m', hm', hrep⟩ := hset.linkTimeEvent (e := { e with kind := .time t })
    (Function.update_self ..) rfl hnot (hnext ▸ h.lt .time e he) fun hnil => by
      rw [hev₁, htime] at hnil
      obtain ⟨hprev, hnull⟩ := h.null_of_alone (k := .time) he hnil
      have hlinks : m₁.links = m.links := by
        rw [hm₁, EventMem.delEvent, EventMem.setHead_links, unlink_of_null hprev hnull]
      rw [hlinks]
      exact ⟨hprev, hnull⟩
  refine ⟨m', hresched.trans hm', ?_⟩
  rw [reschedTimeEvent_eq (h.isList .time).nodup he]
  rw [hev₁] at hrep
  exact hrep

/-! ## Addresses -/

theorem Represents.addressed (h : Represents m ev) : ev.Addressed :=
  fun k => ⟨(h.isList k).nodup, h.lt k⟩

theorem insertTimeEvent_perm (e : Event) (l : List Event) :
    (insertTimeEvent e l).Perm (e :: l) := by
  induction l with
  | nil => exact List.Perm.refl [e]
  | cons t rest ih =>
      rw [insertTimeEvent]
      split
      · exact List.Perm.refl _
      · exact (ih.cons t).trans (List.Perm.swap e t rest)

namespace EventLists.Addressed

variable {ev' : EventLists}

/-- An event with the next address is added. -/
theorem add (h : ev.Addressed) (hperm : (ev'.list k).Perm (x :: ev.list k))
    (haddr : x.addr = ev.next) (hother : ∀ j ≠ k, ev'.list j = ev.list j)
    (hnext : ev'.next = ev.next + 1) : ev'.Addressed := by
  intro j
  by_cases hj : j = k
  · subst hj
    obtain ⟨hnodup, hlt⟩ := h j
    refine ⟨(hperm.map Event.addr).nodup_iff.mpr ?_, fun e he => ?_⟩
    · refine List.nodup_cons.mpr ⟨fun hmem => ?_, hnodup⟩
      obtain ⟨e, he, heq⟩ := List.mem_map.mp hmem
      have hbelow := hlt e he
      omega
    · rcases List.mem_cons.mp (hperm.subset he) with rfl | he
      · omega
      · have hbelow := hlt e he
        omega
  · obtain ⟨hnodup, hlt⟩ := h j
    rw [hother j hj]
    refine ⟨hnodup, fun e he => ?_⟩
    have hbelow := hlt e he
    omega

theorem sublist (h : ev.Addressed) (hsub : ∀ k, (ev'.list k).Sublist (ev.list k))
    (hnext : ev'.next = ev.next) : ev'.Addressed := by
  intro k
  obtain ⟨hnodup, hlt⟩ := h k
  refine ⟨hnodup.sublist ((hsub k).map Event.addr), fun e he => ?_⟩
  rw [hnext]
  exact hlt e ((hsub k).subset he)

/-- Events keep their addresses when they are rescheduled. -/
theorem resched (h : ev.Addressed) (he : e ∈ ev.timeEventList) (t : Timeval) :
    (ev.reschedTimeEvent e.addr t).Addressed := by
  obtain ⟨hnodup, hlt⟩ : (ev.timeEventList.map Event.addr).Nodup ∧
    ∀ x ∈ ev.timeEventList, x.addr < ev.next := h .time
  rw [reschedTimeEvent_eq hnodup he]
  intro j
  by_cases hj : j = .time
  · subst hj
    rw [EventLists.list_setList, EventLists.setList_next]
    refine ⟨((insertTimeEvent_perm _ _).map Event.addr).nodup_iff.mpr ?_, fun x hx => ?_⟩
    · refine List.nodup_cons.mpr ⟨fun hmem => ?_, hnodup.sublist (List.filter_sublist.map _)⟩
      obtain ⟨x, hx, haddr⟩ := List.mem_map.mp hmem
      exact (mem_delEvent.mp hx).2 haddr
    · rcases mem_insertTimeEvent.mp hx with rfl | hx
      · exact hlt e he
      · exact hlt x (mem_delEvent.mp hx).1
  · rw [EventLists.list_setList_of_ne hj, EventLists.setList_next]
    exact h j

end EventLists.Addressed

end Ptrtd
