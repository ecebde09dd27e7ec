import Ptrtd.Library.Ownership
import Ptrtd.Verification.Event.Lists

/-! # Who owns an event

An event belongs to the block, the map or the interface that its `data` points to. The functions
of `event.c`, called for the events of one owner, keep the events of all others. -/

namespace Ptrtd

variable {own own' : DataRef → Bool} {ev ev' ev'' : EventLists} {k j : ListKind} {p : ℕ} {e : Event}

/-- What belongs to the block and the map of a connection. -/
def tcpOwns (self : ℕ) (d : DataRef) : Bool := d = .tcb self || d = .tcpMap self

/-- What belongs to the UDP maps. -/
def udpOwns : DataRef → Bool
  | .udpMap _ => true
  | _ => false

/-- The address has been used, if at all, for an event of the owner. -/
abbrev EventLists.Mine (own : DataRef → Bool) (ev : EventLists) (k : ListKind) (p : ℕ) : Prop :=
  Ownership.Mine Event.addr Event.data own ev.next (ev.list k) p

/-- An owner has changed the lists. -/
structure EventLists.Changed (own : DataRef → Bool) (ev ev' : EventLists) : Prop where
  next : ev.next ≤ ev'.next
  lists : ∀ k, Ownership.Changed Event.addr Event.data own ev.next (ev.list k) (ev'.list k)
  addressed : ev.Addressed → ev'.Addressed

theorem EventLists.Mine.changed (h : ev.Mine own' k p) (hchanged : ev.Changed own ev') :
    ev'.Mine own' k p :=
  Ownership.Mine.changed h (hchanged.lists k) hchanged.next

/-- An event that is registered is known to its owner. -/
theorem EventLists.Addressed.mine (h : ev.Addressed) (he : e ∈ ev.list k)
    (hown : own e.data = true) : ev.Mine own k e.addr := by
  obtain ⟨hnodup, hlt⟩ := h k
  refine ⟨hlt e he, fun x hx haddr => ?_⟩
  rw [List.inj_on_of_nodup_map hnodup hx he haddr]
  exact hown

theorem insertTimeEvent_eq (e : Event) (l : List Event) :
    ∃ l₁ l₂, l = l₁ ++ l₂ ∧ insertTimeEvent e l = l₁ ++ e :: l₂ := by
  induction l with
  | nil => exact ⟨[], [], rfl, rfl⟩
  | cons t rest ih =>
      rw [insertTimeEvent]
      split
      · exact ⟨[], t :: rest, rfl, rfl⟩
      · obtain ⟨l₁, l₂, hl, heq⟩ := ih
        exact ⟨t :: l₁, l₂, by rw [hl]; rfl, by rw [heq]; rfl⟩

namespace EventLists.Changed

theorem refl (own : DataRef → Bool) (ev : EventLists) : ev.Changed own ev :=
  ⟨le_rfl, fun _ => .refl .., id⟩

theorem trans (h : ev.Changed own ev') (h' : ev'.Changed own ev'') : ev.Changed own ev'' :=
  ⟨h.next.trans h'.next, fun k => (h.lists k).trans (h'.lists k) h.next,
    fun haddr => h'.addressed (h.addressed haddr)⟩

/-- A new event is registered. -/
theorem add (l₁ : List Event) {l₂ : List Event} (hl : ev.list k = l₁ ++ l₂)
    (hown : own e.data = true) (haddr : e.addr = ev.next) (hlist : ev'.list k = l₁ ++ e :: l₂)
    (hother : ∀ j ≠ k, ev'.list j = ev.list j) (hnext : ev'.next = ev.next + 1) :
    ev.Changed own ev' := by
  refine ⟨by omega, fun j => ?_, fun h => ?_⟩
  · by_cases hj : j = k
    · subst hj
      rw [hlist]
      exact .insert hl hown (Nat.le_of_eq haddr.symm)
    · rw [hother j hj]
      exact .refl ..
  · refine h.add ?_ haddr hother hnext
    rw [hlist, hl]
    exact List.perm_middle

theorem addTimeEvent {t : Timeval} {f : Callback} {d : DataRef} (hown : own d = true) :
    ev.Changed own (addTimeEvent ev t f d) := by
  obtain ⟨l₁, l₂, hl, heq⟩ := insertTimeEvent_eq ⟨ev.next, f, d, .time t⟩ ev.timeEventList
  exact add (k := .time) l₁ hl hown rfl heq
    (fun j hj => by cases j <;> first | rfl | contradiction) rfl

theorem addFdEvent {fd : ℤ} {write : Bool} {f : Callback} {d : DataRef} (hown : own d = true) :
    ev.Changed own (addFdEvent ev fd write f d) :=
  add (k := .fd) (e := ⟨ev.next, f, d, .fd fd write⟩) [] rfl hown rfl rfl
    (fun j hj => by cases j <;> first | rfl | contradiction) rfl

theorem addAlwaysEvent {f : Callback} {d : DataRef} (hown : own d = true) :
    ev.Changed own (addAlwaysEvent ev f d) :=
  add (k := .always) (e := ⟨ev.next, f, d, .always⟩) [] rfl hown rfl rfl
    (fun j hj => by cases j <;> first | rfl | contradiction) rfl

/-- An event of the owner, or none, is unlinked. -/
theorem remove (hmine : ev.Mine own k p) (hlist : ev'.list k = delEvent p (ev.list k))
    (hother : ∀ j ≠ k, ev'.list j = ev.list j) (hnext : ev'.next = ev.next) :
    ev.Changed own ev' := by
  have hlists : ∀ j, (ev'.list j).Sublist (ev.list j) := fun j => by
    by_cases hj : j = k
    · subst hj
      rw [hlist]
      exact List.filter_sublist
    · rw [hother j hj]
  refine ⟨hnext.ge, fun j => ?_, fun h => h.sublist hlists hnext⟩
  by_cases hj : j = k
  · subst hj
    rw [hlist]
    exact .erase hmine
  · rw [hother j hj]
    exact .refl ..

theorem removeTimeEvent (h : ev.Mine own .time p) : ev.Changed own (removeTimeEvent ev p) :=
  remove h rfl (fun j hj => by cases j <;> first | rfl | contradiction) rfl

theorem removeFdEvent (h : ev.Mine own .fd p) : ev.Changed own (removeFdEvent ev p) :=
  remove h rfl (fun j hj => by cases j <;> first | rfl | contradiction) rfl

theorem removeAlwaysEvent (h : ev.Mine own .always p) : ev.Changed own (removeAlwaysEvent ev p) :=
  remove h rfl (fun j hj => by cases j <;> first | rfl | contradiction) rfl

/-- An event of the owner is scheduled for another time. -/
theorem reschedTimeEvent (h : ev.Addressed) (he : e ∈ ev.timeEventList)
    (hown : own e.data = true) (t : Timeval) :
    ev.Changed own (ev.reschedTimeEvent e.addr t) := by
  have hmine : ev.Mine own .time e.addr := h.mine (k := .time) he hown
  have hnodup : (ev.timeEventList.map Event.addr).Nodup := (h .time).1
  have haddressed := h.resched he t
  rw [reschedTimeEvent_eq hnodup he] at haddressed ⊢
  refine ⟨by rw [setList_next], fun j => ?_, fun _ => haddressed⟩
  by_cases hj : j = .time
  · subst hj
    obtain ⟨l₁, l₂, hl, heq⟩ :=
      insertTimeEvent_eq { e with kind := .time t } (delEvent e.addr ev.timeEventList)
    rw [list_setList, heq]
    exact .move he hmine hl rfl rfl
  · rw [list_setList_of_ne hj]
    exact .refl ..

end EventLists.Changed

end Ptrtd
