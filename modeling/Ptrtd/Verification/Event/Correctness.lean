import Ptrtd.Library.IntExpr
import Ptrtd.Verification.Event.Lists
import Ptrtd.Verification.Timer.Firing

/-! # The time list is sorted, but for the rounding

An event is placed before the first one that is later by more than half a millisecond. So two
events of the list may be in the wrong order, but never by half a millisecond. -/

namespace Ptrtd

open LinkedList Transition

variable {m : EventMem} {ev : EventLists} {s s' : EventState} {op : EventOp} {k : ListKind}
  {e x : Event} {l : List Event} {a : ℕ}

/-! ## The order -/

/-- An event is at most half a millisecond earlier than those before it. -/
def Ordered (l : List Event) : Prop :=
  l.Pairwise fun a b => a.time.micros < b.time.micros + 500

/-- The comparison of the insertion loop. -/
theorem timeDiff_pos_iff (a b : Timeval) : timeDiff a b > 0 ↔ a.micros + 500 ≤ b.micros := by
  have heq : timeDiff a b = (b.micros - a.micros + 500).tdiv 1000 := timeAgo_eq b a
  rw [heq]
  by_cases hpos : 0 ≤ b.micros - a.micros + 500
  · rw [tdiv_of_nonneg hpos]
    omega
  · rw [IntExpr.tdiv_of_nonpos (by omega)]
    omega

/-- The slack is not added up: what the event is placed before is later than it. -/
theorem Ordered.insert (h : Ordered l) : Ordered (insertTimeEvent e l) := by
  induction l with
  | nil => exact List.pairwise_singleton _ e
  | cons t rest ih =>
      obtain ⟨hhead, hrest⟩ := List.pairwise_cons.mp h
      rw [insertTimeEvent]
      split
      · next hlater =>
          have hafter := (timeDiff_pos_iff e.time t.time).mp hlater
          refine List.pairwise_cons.mpr ⟨fun b hb => ?_, h⟩
          rcases List.mem_cons.mp hb with rfl | hb
          · omega
          · have hlt := hhead b hb
            omega
      · next hearly =>
          have hbefore := mt (timeDiff_pos_iff e.time t.time).mpr hearly
          refine List.pairwise_cons.mpr ⟨fun b hb => ?_, ih hrest⟩
          rcases mem_insertTimeEvent.mp hb with rfl | hb
          · omega
          · exact hhead b hb

theorem Ordered.delEvent (h : Ordered l) : Ordered (delEvent a l) := h.filter _

/-! ## The functions on the lists -/

theorem Ordered.apply (h : Ordered ev.timeEventList) : Ordered (ev.apply op).timeEventList := by
  cases op with
  | addTime t f d => exact h.insert
  | addFd fd write f d => exact h
  | addAlways f d => exact h
  | resched e t =>
      change Ordered (ev.reschedTimeEvent e t).timeEventList
      rw [EventLists.reschedTimeEvent]
      split
      · exact h
      · exact h.delEvent.insert
  | remove e => exact h.delEvent

theorem delEvent_of_not_mem (h : a ∉ l.map Event.addr) : delEvent a l = l :=
  List.filter_eq_self.mpr fun x hx => by
    have hne : x.addr ≠ a := fun heq => h (heq ▸ List.mem_map_of_mem hx)
    simpa using hne

/-- Only the list that the event is in is changed. -/
theorem Represents.removeEvent_eq (h : Represents m ev) (he : e ∈ ev.list k) :
    ev.removeEvent e.addr = ev.setList k (Ptrtd.delEvent e.addr (ev.list k)) := by
  have hother : ∀ j, j ≠ k → Ptrtd.delEvent e.addr (ev.list j) = ev.list j := fun j hj =>
    delEvent_of_not_mem fun hmem => by
      obtain ⟨x, hx, haddr⟩ := List.mem_map.mp hmem
      exact hj (h.eq_of_addr hx he haddr).2
  have htime : ListKind.time ≠ k → Ptrtd.delEvent e.addr ev.timeEventList = ev.timeEventList :=
    hother .time
  have hfd : ListKind.fd ≠ k → Ptrtd.delEvent e.addr ev.fdEventList = ev.fdEventList :=
    hother .fd
  have halways : ListKind.always ≠ k →
      Ptrtd.delEvent e.addr ev.alwaysEventList = ev.alwaysEventList := hother .always
  cases k with
  | time => rw [EventLists.removeEvent, hfd (by decide), halways (by decide)]; rfl
  | fd => rw [EventLists.removeEvent, htime (by decide), halways (by decide)]; rfl
  | always => rw [EventLists.removeEvent, htime (by decide), hfd (by decide)]; rfl

/-! ## The registered events -/

/-- The pointers lead to the lists, and the registered events are in them. -/
structure Listed (s : EventState) (ev : EventLists) : Prop where
  represents : Represents s.mem ev
  pending : ∀ k a, a ∈ (ev.list k).map Event.addr ↔ Pending s.log k a
  added : ∀ k a, .added a k ∈ s.log → a < s.mem.next
  removed : ∀ a, .removed a ∈ s.log → a < s.mem.next

theorem Pending.exists_mem (h : Pending s.log k a) (hl : Listed s ev) :
    ∃ e ∈ ev.list k, e.addr = a :=
  List.mem_map.mp ((hl.pending k a).mpr h)

theorem EventState.Empty.listed (h : s.Empty) : Listed s ⟨[], [], [], s.mem.next⟩ := by
  have hlist : ∀ k, (⟨[], [], [], s.mem.next⟩ : EventLists).list k = [] := by
    intro k
    cases k <;> rfl
  refine ⟨⟨fun k => ?_, fun k e he => ?_, fun k e he => ?_, fun k e he => ?_, rfl⟩, fun k a => ?_,
    fun k a ha => ?_, fun a ha => ?_⟩
  · rw [h.1 k, hlist]
    exact isList_nil
  · rw [hlist] at he
    cases he
  · rw [hlist] at he
    cases he
  · rw [hlist] at he
    cases he
  · rw [hlist, Pending, h.2]
    simp
  · rw [h.2] at ha
    cases ha
  · rw [h.2] at ha
    cases ha

/-- A new event is registered. -/
theorem Listed.add {m' : EventMem} {ev' : EventLists} (h : Listed s ev)
    (hrep : Represents m' ev') (hnext : m'.next = s.mem.next + 1) (hmem : ∀ j a,
      a ∈ (ev'.list j).map Event.addr ↔ a = s.mem.next ∧ j = k ∨ a ∈ (ev.list j).map Event.addr) :
    Listed ⟨m', s.log ++ [.added s.mem.next k]⟩ ev' := by
  have hfresh : .removed s.mem.next ∉ s.log := fun hmem => absurd (h.removed _ hmem) (lt_irrefl _)
  refine ⟨hrep, fun j a => ?_, fun j a ha => ?_, fun a ha => ?_⟩
  · rw [hmem, h.pending, Pending, Pending]
    simp only [List.mem_append, List.mem_singleton, EventEntry.added.injEq, reduceCtorEq, or_false]
    constructor
    · rintro (⟨rfl, rfl⟩ | ⟨hadd, hnot⟩)
      · exact ⟨.inr ⟨rfl, rfl⟩, hfresh⟩
      · exact ⟨.inl hadd, hnot⟩
    · rintro ⟨hadd | hself, hnot⟩
      · exact .inr ⟨hadd, hnot⟩
      · exact .inl hself
  · simp only [hnext]
    simp only [List.mem_append, List.mem_singleton, EventEntry.added.injEq] at ha
    rcases ha with ha | ⟨rfl, -⟩
    · exact Nat.lt_succ_of_lt (h.added j a ha)
    · exact Nat.lt_succ_self _
  · simp only [hnext]
    simp only [List.mem_append, List.mem_singleton, reduceCtorEq, or_false] at ha
    exact Nat.lt_succ_of_lt (h.removed a ha)

/-- An event is removed from its list. -/
theorem Listed.remove (h : Listed s ev) (he : e ∈ ev.list k) :
    Listed ⟨s.mem.removeEvent e.addr, s.log ++ [.removed e.addr]⟩ (ev.removeEvent e.addr) := by
  have hrep := h.represents.removeEvent he
  rw [← h.represents.removeEvent_eq he] at hrep
  have hnext : (s.mem.removeEvent e.addr).next = s.mem.next := by
    rw [EventMem.removeEvent, EventMem.delEvent, EventMem.setHead_next]
  refine ⟨hrep, fun j a => ?_, fun j a ha => ?_, fun a ha => ?_⟩
  · have hdel : a ∈ (delEvent e.addr (ev.list j)).map Event.addr ↔
        a ∈ (ev.list j).map Event.addr ∧ a ≠ e.addr := by
      simp only [List.mem_map, mem_delEvent]
      constructor
      · rintro ⟨x, ⟨hx, hne⟩, rfl⟩
        exact ⟨⟨x, hx, rfl⟩, hne⟩
      · rintro ⟨⟨x, hx, rfl⟩, hne⟩
        exact ⟨x, ⟨hx, hne⟩, rfl⟩
    rw [EventLists.removeEvent_list, hdel, h.pending, Pending, Pending]
    simp only [List.mem_append, List.mem_singleton, reduceCtorEq, or_false,
      EventEntry.removed.injEq, not_or, and_assoc]
  · simp only [List.mem_append, List.mem_singleton, reduceCtorEq, or_false] at ha
    simp only [hnext]
    exact h.added j a ha
  · simp only [List.mem_append, List.mem_singleton, EventEntry.removed.injEq] at ha
    simp only [hnext]
    rcases ha with ha | rfl
    · exact h.removed a ha
    · exact h.represents.next ▸ h.represents.lt k e he

/-- A registered time event is scheduled for another time. -/
theorem Listed.resched {m' : EventMem} (h : Listed s ev) (he : e ∈ ev.timeEventList)
    (t : Timeval) (hrep : Represents m' (ev.reschedTimeEvent e.addr t)) :
    Listed ⟨m', s.log⟩ (ev.reschedTimeEvent e.addr t) := by
  have hres := reschedTimeEvent_eq (h.represents.isList .time).nodup he t
  have hnext : m'.next = s.mem.next := by
    rw [hrep.next, hres, EventLists.setList_next, h.represents.next]
  refine ⟨hrep, fun j a => ?_, fun j a ha => hnext ▸ h.added j a ha,
    fun a ha => hnext ▸ h.removed a ha⟩
  rw [hres, ← h.pending]
  by_cases hj : j = .time
  · subst hj
    rw [EventLists.list_setList]
    change _ ↔ a ∈ ev.timeEventList.map Event.addr
    simp only [List.mem_map, mem_insertTimeEvent, mem_delEvent]
    constructor
    · rintro ⟨x, rfl | ⟨hx, -⟩, rfl⟩
      · exact ⟨e, he, rfl⟩
      · exact ⟨x, hx, rfl⟩
    · rintro ⟨x, hx, rfl⟩
      by_cases hself : x.addr = e.addr
      · exact ⟨_, .inl rfl, hself.symm⟩
      · exact ⟨x, .inr ⟨hx, hself⟩, rfl⟩
  · rw [EventLists.list_setList_of_ne hj]

/-- The functions do to the doubly linked lists what they do to the lists of events. -/
theorem Listed.step (h : Listed s ev) (hok : op.Allowed s) :
    ∃ s', eventStep s op = some s' ∧ Listed s' (ev.apply op) := by
  cases op with
  | addTime t f d =>
      obtain ⟨m', hm', hrep⟩ := h.represents.addTimeEvent t f d
      refine ⟨⟨m', s.log ++ [.added s.mem.next .time]⟩, by rw [eventStep, hm']; rfl, ?_⟩
      refine h.add hrep (hrep.next.trans (congrArg (· + 1) h.represents.next.symm)) fun j a => ?_
      cases j with
      | time =>
          rw [h.represents.next]
          simp [EventLists.list, EventLists.apply, addTimeEvent, eq_comm]
      | fd => simp [EventLists.list, EventLists.apply, addTimeEvent]
      | always => simp [EventLists.list, EventLists.apply, addTimeEvent]
  | addFd fd write f d =>
      have hrep := h.represents.addFdEvent fd write f d
      refine ⟨_, rfl, h.add hrep rfl fun j a => ?_⟩
      cases j with
      | time => simp [EventLists.list, EventLists.apply, addFdEvent]
      | fd =>
          rw [h.represents.next]
          simp [EventLists.list, EventLists.apply, addFdEvent, eq_comm]
      | always => simp [EventLists.list, EventLists.apply, addFdEvent]
  | addAlways f d =>
      have hrep := h.represents.addAlwaysEvent f d
      refine ⟨_, rfl, h.add hrep rfl fun j a => ?_⟩
      cases j with
      | time => simp [EventLists.list, EventLists.apply, addAlwaysEvent]
      | fd => simp [EventLists.list, EventLists.apply, addAlwaysEvent]
      | always =>
          rw [h.represents.next]
          simp [EventLists.list, EventLists.apply, addAlwaysEvent, eq_comm]
  | resched a t =>
      obtain ⟨e, he, rfl⟩ := Pending.exists_mem hok h
      obtain ⟨m', hm', hrep⟩ := h.represents.reschedTimeEvent he t
      exact ⟨⟨m', s.log⟩, by rw [eventStep, hm']; rfl, h.resched he t hrep⟩
  | remove a =>
      obtain ⟨k, hreg⟩ := hok
      obtain ⟨e, he, rfl⟩ := hreg.exists_mem h
      exact ⟨_, rfl, h.remove he⟩

/-! ## The time list -/

/-- The time list is well formed, has the registered time events in it, and is sorted but for half
a millisecond. -/
structure SortedTimeList (s : EventState) (l : List ℕ) : Prop where
  isList : IsList s.mem.links s.mem.timeEventList l
  pending : ∀ a, a ∈ l ↔ Pending s.log .time a
  inverse : ∀ a ∈ l, ∀ b ∈ l, s.mem.links.next a = some b ↔ s.mem.links.prev b = some a
  first : ∀ a, l.head? = some a → s.mem.links.prev a = none
  last : ∀ a, l.getLast? = some a → s.mem.links.next a = none
  order : l.Pairwise fun a b => (s.mem.event a).time.micros < (s.mem.event b).time.micros + 500

theorem Listed.sortedTimeList (h : Listed s ev) (hord : Ordered ev.timeEventList) :
    SortedTimeList s (ev.timeEventList.map Event.addr) := by
  have hlist : IsList s.mem.links s.mem.timeEventList (ev.timeEventList.map Event.addr) :=
    h.represents.isList .time
  refine ⟨hlist, h.pending .time, fun a ha b hb => hlist.inverse ha hb, hlist.ends.1,
    hlist.ends.2, List.pairwise_map.mpr ?_⟩
  refine hord.imp_of_mem fun {x y} hx hy hxy => ?_
  rw [h.represents.event .time x hx, h.represents.event .time y hy]
  exact hxy

/-- Runs of the functions keep the memory in step with the lists. -/
theorem Listed.run {s₀ : EventState} {ev₀ : EventLists}
    (h : Run eventStep (fun s op => op.Allowed s) s₀ s) (hlisted : Listed s₀ ev₀)
    (hord : Ordered ev₀.timeEventList) : ∃ ev, Listed s ev ∧ Ordered ev.timeEventList := by
  apply h.invariant
  · exact ⟨ev₀, hlisted, hord⟩
  · rintro s op s' ⟨ev, hl, ho⟩ hok hstep
    obtain ⟨s₁, hs₁, hl'⟩ := hl.step hok
    rw [hs₁] at hstep
    obtain rfl := Option.some.inj hstep
    exact ⟨_, hl', ho.apply⟩

/-- Whatever sequence of the functions is called on registered events, with whatever times, the
time list stays sorted, and each call comes to its end. -/
theorem time_list_sorted {s₀ s : EventState} (hstart : s₀.Empty)
    (hrun : Run eventStep (fun s op => op.Allowed s) s₀ s) :
    (∃ l, SortedTimeList s l) ∧ ∀ op : EventOp, op.Allowed s → ∃ s', eventStep s op = some s' := by
  obtain ⟨ev, hlisted, hord⟩ := Listed.run hrun hstart.listed List.Pairwise.nil
  refine ⟨⟨_, hlisted.sortedTimeList hord⟩, fun op hok => ?_⟩
  obtain ⟨s', hs', -⟩ := hlisted.step hok
  exact ⟨s', hs'⟩

/-- Nothing is registered and nothing is linked. -/
def EventState.init : EventState :=
  ⟨{ links := ⟨fun _ => none, fun _ => none⟩
     event := fun a => ⟨a, .doTcbWrite, .iface, .always⟩
     remove := fun _ => false
     timeEventList := none
     fdEventList := none
     alwaysEventList := none
     next := 0 }, []⟩

/-- The first of three events is scheduled behind the others, and the second is removed. -/
theorem time_list_sorted_resched : ∃ s, (∃ l, SortedTimeList s l) ∧
    Pending s.log .time 0 ∧ ¬Pending s.log .time 1 ∧ Pending s.log .time 2 ∧
      s.mem.timeEventList = some 2 ∧ s.mem.links.next 2 = some 0 := by
  have hexec : ((exec eventStep (fun s op => op.Allowed s) EventState.init
      [.addTime ⟨10, 0⟩ .tcpTimeout (.tcb 0), .addTime ⟨10, 400⟩ .tcpTimeout (.tcb 1),
        .addTime ⟨9, 999900⟩ .removeUdpMap (.udpMap 2), .resched 0 ⟨11, 0⟩, .remove 1]).any
      fun s => Pending s.log .time 0 ∧ ¬Pending s.log .time 1 ∧ Pending s.log .time 2 ∧
        s.mem.timeEventList = some 2 ∧ s.mem.links.next 2 = some 0) = true := by
    decide
  obtain ⟨s, hrun, hs⟩ := exists_run_of_exec hexec
  have hempty : EventState.init.Empty := ⟨fun k => by cases k <;> rfl, rfl⟩
  exact ⟨s, (time_list_sorted hempty hrun).1, of_decide_eq_true hs⟩

end Ptrtd
