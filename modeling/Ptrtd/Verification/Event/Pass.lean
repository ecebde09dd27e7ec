import Ptrtd.Verification.Event.Correctness

/-! # A pass over a list whose events come and go

A callback may take any event but its own out of the list that `event_loop` is going through, and
put new ones in front of it. What the loop has still to visit is always the end of the list. -/

namespace Ptrtd

open LinkedList

variable {s s' s₁ s₂ : EventState} {ev : EventLists} {k j : ListKind} {e : Event}
  {front rest rest' rest₁ rest₂ : List Event} {t t' t₁ t₂ u : List EventEntry} {op : EventOp}
  {ready : Event → Bool} {b : Behaviour} {a : ℕ} {r : ℕ → Bool} {l l' : List ℕ}

/-! ## What a pass does -/

/-- The events whose callbacks are called, in this order. -/
def calls (t : List EventEntry) : List ℕ :=
  t.filterMap fun
    | .called e => some e
    | _ => none

@[simp] theorem calls_nil : calls [] = [] := rfl

@[simp] theorem calls_called : calls (.called a :: t) = a :: calls t := rfl

@[simp] theorem calls_removed : calls (.removed a :: t) = calls t := rfl

@[simp] theorem calls_added : calls (.added a k :: t) = calls t := rfl

@[simp] theorem calls_append : calls (t ++ u) = calls t ++ calls u := List.filterMap_append

/-- The event is removed before its turn: until then, only callbacks of events before it in the
list are called. -/
def RemovedInTime (l : List ℕ) (t : List EventEntry) (a : ℕ) : Prop :=
  ∃ t₁ t₂, t = t₁ ++ .removed a :: t₂ ∧ ∀ b ∈ calls t₁, [b, a].Sublist l

/-- What happens in a pass over the list `l`. Callbacks are called in the order of the list, for
events that are ready. Each such event is called unless it is removed before its turn, and none is
called after it has been removed. -/
structure PassSpec (r : ℕ → Bool) (l : List ℕ) (t : List EventEntry) : Prop where
  order : (calls t).Sublist l
  ready : ∀ a ∈ calls t, r a = true
  each : ∀ a ∈ l, r a = true → a ∈ calls t ∨ RemovedInTime l t a
  live : t.Pairwise fun x y => ∀ a, x = .removed a → y ≠ .called a

theorem PassSpec.nil : PassSpec r [] [] := by
  refine ⟨List.Sublist.refl [], ?_, ?_, List.Pairwise.nil⟩
  · simp
  · simp

theorem RemovedInTime.mono (h : RemovedInTime l t a) (hl : l.Sublist l') :
    RemovedInTime l' t a := by
  obtain ⟨t₁, t₂, ht, hcalls⟩ := h
  exact ⟨t₁, t₂, ht, fun b hb => (hcalls b hb).trans hl⟩

/-- An event is passed over. -/
theorem PassSpec.skip (h : PassSpec r l t) (hready : r a = false) : PassSpec r (a :: l) t := by
  refine ⟨h.order.cons a, h.ready, fun b hb hr => ?_, h.live⟩
  rcases List.mem_cons.mp hb with rfl | hb
  · rw [hready] at hr
    cases hr
  · exact (h.each b hb hr).imp_right fun hrem => hrem.mono (List.sublist_cons_self a l)

/-- The callback of an event is called, and some of the events behind it are removed meanwhile. -/
theorem PassSpec.call (h : PassSpec r l' t) (hready : r a = true) (hsub : l'.Sublist l)
    (hquiet : calls u = []) (hgone : ∀ b ∈ l, b ∉ l' → .removed b ∈ u)
    (hleft : ∀ b ∈ l', .removed b ∉ u) : PassSpec r (a :: l) (.called a :: (u ++ t)) := by
  have hcalls : calls (.called a :: (u ++ t)) = a :: calls t := by simp [hquiet]
  refine ⟨?_, ?_, fun b hb hr => ?_, ?_⟩
  · rw [hcalls]
    exact (h.order.trans hsub).cons_cons a
  · rw [hcalls]
    intro b hb
    rcases List.mem_cons.mp hb with rfl | hb
    · exact hready
    · exact h.ready b hb
  · rw [hcalls]
    rcases List.mem_cons.mp hb with rfl | hb
    · exact .inl List.mem_cons_self
    · have hbefore : [a, b].Sublist (a :: l) := (List.singleton_sublist.mpr hb).cons_cons a
      by_cases hleft : b ∈ l'
      · rcases h.each b hleft hr with hcall | ⟨t₁, t₂, rfl, hfirst⟩
        · exact .inl (List.mem_cons_of_mem a hcall)
        · refine .inr ⟨.called a :: (u ++ t₁), t₂, by simp, fun c hc => ?_⟩
          rw [calls_called, calls_append, hquiet] at hc
          rcases List.mem_cons.mp hc with rfl | hc
          · exact hbefore
          · exact ((hfirst c hc).trans hsub).cons a
      · obtain ⟨u₁, u₂, rfl⟩ := List.append_of_mem (hgone b hb hleft)
        have hnone : calls u₁ = [] := by
          rw [calls_append] at hquiet
          exact (List.append_eq_nil_iff.mp hquiet).1
        refine .inr ⟨.called a :: u₁, u₂ ++ t, by simp, fun c hc => ?_⟩
        rw [calls_called, hnone] at hc
        rw [List.mem_singleton.mp hc]
        exact hbefore
  · have hnone : ∀ b, .called b ∉ u := by
      intro b hb
      have hmem : b ∈ calls u := List.mem_filterMap.mpr ⟨_, hb, rfl⟩
      rw [hquiet] at hmem
      cases hmem
    refine List.pairwise_cons.mpr ⟨fun y _ b hb => absurd hb (by simp), ?_⟩
    refine List.pairwise_append.mpr ⟨?_, h.live, ?_⟩
    · refine List.Pairwise.imp_of_mem (R := fun _ _ => True) (fun {x y} _ hy _ b _ hcall => ?_)
        (List.pairwise_of_forall fun _ _ => trivial)
      exact hnone b (hcall ▸ hy)
    · rintro x hx y hy b rfl rfl
      have hmem : b ∈ calls t := List.mem_filterMap.mpr ⟨_, hy, rfl⟩
      exact hleft b (h.order.subset hmem) hx

/-! ## What a callback does -/

/-- What a callback leaves of the list behind its own event, and what happens meanwhile. -/
structure Left (k : ListKind) (e : Event) (rest rest' : List Event) (s s' : EventState)
    (u : List EventEntry) : Prop where
  listed : ∃ ev front, Listed s' ev ∧ ev.list k = front ++ e :: rest'
  sublist : rest'.Sublist rest
  log : s'.log = s.log ++ u
  quiet : calls u = []
  gone : ∀ x ∈ rest, x ∉ rest' → .removed x.addr ∈ u
  added : ∀ a j, .added a j ∈ u → s.mem.next ≤ a
  next : s.mem.next ≤ s'.mem.next

theorem Left.refl (h : Listed s ev) (hlist : ev.list k = front ++ e :: rest) :
    Left k e rest rest s s [] :=
  ⟨⟨ev, front, h, hlist⟩, List.Sublist.refl rest, by simp, rfl, fun _ hx hnot => absurd hx hnot,
    fun _ _ hmem => absurd hmem List.not_mem_nil, le_rfl⟩

theorem Left.trans (h : Left k e rest rest₁ s s₁ t₁) (h' : Left k e rest₁ rest₂ s₁ s₂ t₂) :
    Left k e rest rest₂ s s₂ (t₁ ++ t₂) := by
  refine ⟨h'.listed, h'.sublist.trans h.sublist, ?_, ?_, fun x hx hnot => ?_, fun a j hmem => ?_,
    h.next.trans h'.next⟩
  · rw [h'.log, h.log, List.append_assoc]
  · rw [calls_append, h.quiet, h'.quiet]
    rfl
  · by_cases hx₁ : x ∈ rest₁
    · exact List.mem_append_right t₁ (h'.gone x hx₁ hnot)
    · exact List.mem_append_left t₂ (h.gone x hx hx₁)
  · rcases List.mem_append.mp hmem with hmem | hmem
    · exact h.added a j hmem
    · exact h.next.trans (h'.added a j hmem)

theorem delEvent_append (l₁ l₂ : List Event) :
    delEvent a (l₁ ++ l₂) = delEvent a l₁ ++ delEvent a l₂ := List.filter_append ..

theorem delEvent_cons_of_ne (h : e.addr ≠ a) (l : List Event) :
    delEvent a (e :: l) = e :: delEvent a l := List.filter_cons_of_pos (by simpa using h)

/-- What does not remove an event leaves the list as it is, or puts a new event in front. -/
theorem EventLists.apply_list (hk : k ≠ .time) (hop : ∀ a, op ≠ .remove a) :
    (ev.apply op).list k = ev.list k ∨ ∃ x, (ev.apply op).list k = x :: ev.list k := by
  cases op with
  | addTime t f d =>
      cases k with
      | time => exact absurd rfl hk
      | fd => exact .inl rfl
      | always => exact .inl rfl
  | addFd fd write f d =>
      cases k with
      | time => exact absurd rfl hk
      | fd => exact .inr ⟨_, rfl⟩
      | always => exact .inl rfl
  | addAlways f d =>
      cases k with
      | time => exact absurd rfl hk
      | fd => exact .inl rfl
      | always => exact .inr ⟨_, rfl⟩
  | resched a t =>
      rw [EventLists.apply, EventLists.reschedTimeEvent]
      split
      · exact .inl rfl
      · cases k with
        | time => exact absurd rfl hk
        | fd => exact .inl rfl
        | always => exact .inl rfl
  | remove a => exact absurd rfl (hop a)

theorem EventLists.next_le_apply : ev.next ≤ (ev.apply op).next := by
  cases op with
  | addTime t f d => exact Nat.le_succ ev.next
  | addFd fd write f d => exact Nat.le_succ ev.next
  | addAlways f d => exact Nat.le_succ ev.next
  | resched a t =>
      rw [EventLists.apply, EventLists.reschedTimeEvent]
      split <;> exact le_rfl
  | remove a => exact le_rfl

/-- Nothing is removed. -/
theorem Left.kept {ev' : EventLists} (h : Listed s' ev') (hlist : ev.list k = front ++ e :: rest)
    (hkept : ev'.list k = ev.list k ∨ ∃ x, ev'.list k = x :: ev.list k)
    (hnext : s.mem.next ≤ s'.mem.next) (hlog : s'.log = s.log ++ u) (hquiet : calls u = [])
    (hadded : ∀ a j, .added a j ∈ u → a = s.mem.next) : Left k e rest rest s s' u := by
  refine ⟨?_, List.Sublist.refl rest, hlog, hquiet, fun x hx hnot => absurd hx hnot,
    fun a j hmem => (hadded a j hmem).ge, hnext⟩
  rcases hkept with heq | ⟨x, heq⟩
  · exact ⟨ev', front, h, heq.trans hlist⟩
  · exact ⟨ev', x :: front, h, by rw [heq, hlist]; rfl⟩

/-- One call in a callback. -/
theorem Listed.left_of_mayDo (h : Listed s ev) (hk : k ≠ .time)
    (hlist : ev.list k = front ++ e :: rest) (hmay : MayDo e.addr s op) :
    ∃ s' rest' u, eventStep s op = some s' ∧ Left k e rest rest' s s' u := by
  obtain ⟨s', hstep, hl⟩ := h.step hmay.1
  have hnext : s.mem.next ≤ s'.mem.next := by
    rw [h.represents.next, hl.represents.next]
    exact EventLists.next_le_apply
  have hadded : ∀ j a i, EventEntry.added a i ∈ [.added s.mem.next j] → a = s.mem.next :=
    fun j a i hmem => (EventEntry.added.inj (List.mem_singleton.mp hmem)).1
  cases op with
  | addTime t f d =>
      obtain ⟨m', -, hs'⟩ := Option.map_eq_some_iff.mp hstep
      refine ⟨s', rest, [.added s.mem.next .time], hstep, ?_⟩
      exact .kept hl hlist (EventLists.apply_list hk nofun) hnext (by rw [← hs']) rfl (hadded _)
  | addFd fd write f d =>
      refine ⟨s', rest, [.added s.mem.next .fd], hstep, ?_⟩
      exact .kept hl hlist (EventLists.apply_list hk nofun) hnext
        (by rw [← Option.some.inj hstep]) rfl (hadded _)
  | addAlways f d =>
      refine ⟨s', rest, [.added s.mem.next .always], hstep, ?_⟩
      exact .kept hl hlist (EventLists.apply_list hk nofun) hnext
        (by rw [← Option.some.inj hstep]) rfl (hadded _)
  | resched a t =>
      obtain ⟨m', -, hs'⟩ := Option.map_eq_some_iff.mp hstep
      refine ⟨s', rest, [], hstep, ?_⟩
      exact .kept hl hlist (EventLists.apply_list hk nofun) hnext (by rw [← hs']; simp) rfl
        fun _ _ hmem => absurd hmem List.not_mem_nil
  | remove a =>
      have hne : e.addr ≠ a := fun heq => hmay.2 (congrArg EventOp.remove heq.symm)
      have hdel : (ev.apply (.remove a)).list k =
          delEvent a front ++ e :: delEvent a rest := by
        rw [EventLists.apply, EventLists.removeEvent_list, hlist, delEvent_append,
          delEvent_cons_of_ne hne]
      refine ⟨s', delEvent a rest, [.removed a], hstep, ⟨_, _, hl, hdel⟩, List.filter_sublist,
        by rw [← Option.some.inj hstep], rfl, fun x hx hnot => ?_,
        fun _ _ hmem => absurd hmem (by simp), hnext⟩
      have haddr : x.addr = a := by
        by_contra hother
        exact hnot (mem_delEvent.mpr ⟨hx, hother⟩)
      rw [haddr]
      exact List.mem_singleton_self _

/-- All that a callback calls. -/
theorem Listed.left_of_mayDoAll {ops : List EventOp} (h : Listed s ev) (hk : k ≠ .time)
    (hlist : ev.list k = front ++ e :: rest) (hmay : MayDoAll e.addr s ops) :
    ∃ s' rest' u, ops.foldlM eventStep s = some s' ∧ Left k e rest rest' s s' u := by
  induction ops generalizing s ev front rest with
  | nil => exact ⟨s, rest, [], rfl, Left.refl h hlist⟩
  | cons op ops ih =>
      obtain ⟨s₁, rest₁, u₁, hstep, hleft⟩ := h.left_of_mayDo hk hlist hmay.1
      obtain ⟨ev₁, front₁, hl₁, hlist₁⟩ := hleft.listed
      obtain ⟨s₂, rest₂, u₂, hops, hleft'⟩ := ih hl₁ hlist₁ (hmay.2 s₁ hstep)
      refine ⟨s₂, rest₂, u₁ ++ u₂, ?_, hleft.trans hleft'⟩
      rw [List.foldlM_cons, hstep]
      exact hops

/-! ## The loop -/

/-- The call of a callback is put on record. -/
theorem Listed.call (h : Listed s ev) (a : ℕ) :
    Listed { s with log := s.log ++ [.called a] } ev := by
  refine ⟨h.represents, fun k b => ?_, fun k b hb => ?_, fun b hb => ?_⟩
  · rw [h.pending, Pending, Pending]
    simp
  · exact h.added k b (by simpa using hb)
  · exact h.removed b (by simpa using hb)

/-- The link of an event leads to what is left of the list. -/
theorem Represents.links_next {m : EventMem} (h : Represents m ev)
    (hlist : ev.list k = front ++ e :: rest) :
    m.links.next e.addr = rest.head?.map Event.addr := by
  have hseg := (h.isList k).seg
  rw [hlist, List.map_append, List.map_cons] at hseg
  rw [← List.head?_map]
  exact hseg.links.2

theorem Represents.delEvent_eq {m : EventMem} (h : Represents m ev)
    (hlist : ev.list k = front ++ e :: rest) :
    Ptrtd.delEvent e.addr (ev.list k) = front ++ rest := by
  have hnodup := (h.isList k).nodup
  rw [hlist, List.map_append, List.map_cons] at hnodup
  have hnot := (List.nodup_cons.mp (List.nodup_middle.mp hnodup)).1
  rw [← List.map_append] at hnot
  have hself : Ptrtd.delEvent e.addr (e :: rest) = Ptrtd.delEvent e.addr rest :=
    List.filter_cons_of_neg (by simp)
  rw [hlist, delEvent_append, hself, ← delEvent_append]
  exact delEvent_of_not_mem hnot

/-- The loop has gone over the list `l` and come to its end. -/
structure Passed (r : ℕ → Bool) (l : List ℕ) (s s' : EventState) (t : List EventEntry) : Prop where
  listed : ∃ ev, Listed s' ev
  log : s'.log = s.log ++ t
  spec : PassSpec r l t
  added : ∀ a j, .added a j ∈ t → s.mem.next ≤ a

theorem Passed.nil (h : Listed s ev) : Passed r [] s s [] :=
  ⟨⟨ev, h⟩, by simp, .nil, fun _ _ hmem => absurd hmem List.not_mem_nil⟩

theorem Passed.skip (h : Passed r l s s' t) (hready : r a = false) : Passed r (a :: l) s s' t :=
  ⟨h.listed, h.log, h.spec.skip hready, h.added⟩

/-- A callback is called, and then the rest is gone over, whether or not its event stays: `v` is
what the loop itself puts on record in between. -/
theorem Left.passed {ev₂ : EventLists} {v : List EventEntry}
    (hleft : Left k e rest rest' { s with log := s.log ++ [.called e.addr] } s₁ u)
    (hl : Listed s₂ ev₂) (hlist : ev₂.list k = front ++ rest') (hlog : s₂.log = s₁.log ++ v)
    (hnext : s₂.mem.next = s₁.mem.next) (hquiet : calls v = []) (hadd : ∀ a j, .added a j ∉ v)
    (hready : r e.addr = true) (h : Passed r (rest'.map Event.addr) s₂ s' t) :
    Passed r ((e :: rest).map Event.addr) s s' (.called e.addr :: ((u ++ v) ++ t)) := by
  refine ⟨h.listed, ?_, ?_, fun a j hmem => ?_⟩
  · rw [h.log, hlog, hleft.log]
    simp
  · refine h.spec.call hready (hleft.sublist.map Event.addr) ?_ (fun a ha hnot => ?_)
      fun a ha hrem => ?_
    · rw [calls_append, hleft.quiet, hquiet]
      rfl
    · obtain ⟨x, hx, rfl⟩ := List.mem_map.mp ha
      have hgone : x ∉ rest' := fun hmem => hnot (List.mem_map_of_mem hmem)
      exact List.mem_append_left v (hleft.gone x hx hgone)
    · -- an event that is still in the list has not been removed
      have hpend : Pending s₂.log k a := by
        rw [← hl.pending, hlist, List.map_append]
        exact List.mem_append_right _ ha
      refine hpend.2 ?_
      rw [hlog, hleft.log, List.append_assoc]
      exact List.mem_append_right _ hrem
  · have hmem : .added a j ∈ u ∨ .added a j ∈ t := by
      simpa [hadd a j] using hmem
    rcases hmem with hmem | hmem
    · exact hleft.added a j hmem
    · calc s.mem.next ≤ s₁.mem.next := hleft.next
        _ = s₂.mem.next := hnext.symm
        _ ≤ a := h.added a j hmem

/-- The loop from the event on that the rest of the list begins with. It comes to its end within as
many turns as there are events in the rest. -/
theorem eventPass_spec (hk : k ≠ .time) (hb : b.Obeys) {fuel : ℕ} (h : Listed s ev)
    (hlist : ev.list k = front ++ rest) (hfuel : rest.length ≤ fuel)
    (hr : ∀ x ∈ rest, r x.addr = ready x) :
    ∃ s' t, eventPass ready b fuel (rest.head?.map Event.addr) s = some s' ∧
      Passed r (rest.map Event.addr) s s' t := by
  induction fuel generalizing s ev front rest with
  | zero =>
      obtain rfl : rest = [] := List.length_eq_zero_iff.mp (Nat.le_zero.mp hfuel)
      exact ⟨s, [], rfl, .nil h⟩
  | succ fuel ih =>
      cases rest with
      | nil => exact ⟨s, [], rfl, .nil h⟩
      | cons e rest =>
          have hevent : s.mem.event e.addr = e := h.represents.event k e (by simp [hlist])
          have hre : r e.addr = ready e := hr e List.mem_cons_self
          have hrest : ∀ x ∈ rest, r x.addr = ready x := fun x hx =>
            hr x (List.mem_cons_of_mem e hx)
          have hlen : rest.length ≤ fuel := Nat.le_of_succ_le_succ hfuel
          rw [List.head?_cons, Option.map_some, eventPass, hevent]
          by_cases hready : ready e = true
          · rw [if_pos hready]
            dsimp only
            obtain ⟨s₁, hs₁⟩ : ∃ s₁ : EventState,
              s₁ = { s with log := s.log ++ [.called e.addr] } := ⟨_, rfl⟩
            have hcall : Listed s₁ ev := hs₁ ▸ h.call e.addr
            rw [← hs₁]
            obtain ⟨s₂, rest', u, hops, hleft⟩ := hcall.left_of_mayDoAll hk hlist (hb s₁ e.addr)
            obtain ⟨ev₂, front₂, hl₂, hlist₂⟩ := hleft.listed
            have hlen' : rest'.length ≤ fuel := hleft.sublist.length_le.trans hlen
            have hr' : ∀ x ∈ rest', r x.addr = ready x := fun x hx =>
              hrest x (hleft.sublist.subset hx)
            rw [hops, Option.bind_some, hl₂.represents.links_next hlist₂]
            rw [hs₁] at hleft
            by_cases hagain : (b s₁ e.addr).2 = true
            · rw [if_pos hagain]
              have hlist₃ : ev₂.list k = (front₂ ++ [e]) ++ rest' := by simp [hlist₂]
              obtain ⟨s', t, hpass, hpassed⟩ := ih hl₂ hlist₃ hlen' hr'
              exact ⟨s', _, hpass, hleft.passed hl₂ hlist₃ (List.append_nil _).symm rfl rfl
                (fun _ _ hmem => absurd hmem List.not_mem_nil) (hre.trans hready) hpassed⟩
            · rw [if_neg hagain]
              have he : e ∈ ev₂.list k := by simp [hlist₂]
              have hlist₃ : (ev₂.removeEvent e.addr).list k = front₂ ++ rest' := by
                rw [EventLists.removeEvent_list]
                exact hl₂.represents.delEvent_eq hlist₂
              have hnext : (s₂.mem.removeEvent e.addr).next = s₂.mem.next := by
                rw [EventMem.removeEvent, EventMem.delEvent, EventMem.setHead_next]
              obtain ⟨s', t, hpass, hpassed⟩ := ih (hl₂.remove he) hlist₃ hlen' hr'
              exact ⟨s', _, hpass, hleft.passed (hl₂.remove he) hlist₃ rfl hnext rfl (by simp)
                (hre.trans hready) hpassed⟩
          · rw [if_neg hready, h.represents.links_next hlist]
            have hlist' : ev.list k = (front ++ [e]) ++ rest := by simp [hlist]
            obtain ⟨s', t, hpass, hpassed⟩ := ih h hlist' hlen hrest
            exact ⟨s', t, hpass, hpassed.skip (hre.trans (Bool.eq_false_iff.mpr hready))⟩

theorem LoopPass.kind_ne (p : LoopPass) : p.kind ≠ .time := by cases p <;> simp [LoopPass.kind]

/-- A pass over the events that are in the list when it begins. -/
theorem Listed.pass (h : Listed s ev) (p : LoopPass) (hb : b.Obeys) :
    ∃ s' t, p.run b s = some s' ∧
      Passed (fun a => p.ready (s.mem.event a)) ((ev.list p.kind).map Event.addr) s s' t := by
  have hhead : s.mem.head p.kind = (ev.list p.kind).head?.map Event.addr := by
    rw [(h.represents.isList p.kind).head, List.head?_map]
  have hlist : ev.list p.kind = [] ++ ev.list p.kind := rfl
  rw [LoopPass.run, hhead]
  refine eventPass_spec p.kind_ne hb h hlist (h.represents.length_le p.kind) ?_
  intro x hx
  rw [h.represents.event p.kind x hx]

theorem EventState.Reached.listed (h : s.Reached) : ∃ ev, Listed s ev := by
  induction h with
  | start hempty => exact ⟨_, hempty.listed⟩
  | op _ hok hstep ih =>
      obtain ⟨ev, hl⟩ := ih
      obtain ⟨s', hs', hl'⟩ := hl.step hok
      rw [hstep] at hs'
      exact ⟨_, Option.some.inj hs' ▸ hl'⟩
  | pass _ hb hrun ih =>
      obtain ⟨ev, hl⟩ := ih
      obtain ⟨s', t, hs', hpassed⟩ := hl.pass _ hb
      rw [hrun] at hs'
      exact Option.some.inj hs' ▸ hpassed.listed

/-- Whatever the callbacks do within the rules, a pass comes to its end. It calls the events of the
list that are ready in their order, each at most once, none after it has been removed, and leaves
none out but those removed before their turn. The list has the registered events in it, before and
after the pass. -/
theorem each_called_once (p : LoopPass) (hs : s.Reached) (hb : b.Obeys) :
    ∃ l s' t l', IsList s.mem.links (s.mem.head p.kind) l ∧
      (∀ a, a ∈ l ↔ Pending s.log p.kind a) ∧
      p.run b s = some s' ∧ s'.log = s.log ++ t ∧
      PassSpec (fun a => p.ready (s.mem.event a)) l t ∧ (calls t).Nodup ∧
      (∀ a j, .added a j ∈ t → a ∉ calls t) ∧
      IsList s'.mem.links (s'.mem.head p.kind) l' ∧
      ∀ a, a ∈ l' ↔ Pending s'.log p.kind a := by
  obtain ⟨ev, hl⟩ := hs.listed
  obtain ⟨s', t, hrun, ⟨⟨ev', hl'⟩, hlog, hspec, hadded⟩⟩ := hl.pass p hb
  have hlist := hl.represents.isList p.kind
  refine ⟨_, s', t, _, hlist, hl.pending p.kind, hrun, hlog, hspec, hlist.nodup.sublist hspec.order,
    fun a j hadd hcall => ?_, hl'.represents.isList p.kind, hl'.pending p.kind⟩
  obtain ⟨x, hx, rfl⟩ := List.mem_map.mp (hspec.order.subset hcall)
  have hlt := hl.represents.lt p.kind x hx
  have hle := hadded x.addr j hadd
  rw [hl.represents.next] at hle
  omega

theorem EventState.Reached.of_run {s₀ : EventState} (hstart : s₀.Empty)
    (h : Transition.Run eventStep (fun s op => op.Allowed s) s₀ s) : s.Reached := by
  induction h with
  | refl => exact .start hstart
  | tail _ hok hstep ih => exact .op ih hok hstep

/-- The callback of the first of three events removes the second and adds a new one, and then asks
not to be called again. -/
def removesNext : Behaviour := fun s e =>
  if e = 2 ∧ (EventOp.remove 1).Allowed s then
    ([.remove 1, .addFd 9 false .handleUdpRead .iface], false)
  else ([], true)

theorem removesNext_obeys : removesNext.Obeys := by
  intro s e
  rw [removesNext]
  split
  · next hrem =>
      obtain ⟨rfl, hallowed⟩ := hrem
      exact ⟨⟨hallowed, by decide⟩, fun _ _ => ⟨⟨trivial, by decide⟩, fun _ _ => trivial⟩⟩
  · trivial

theorem each_called_once_removed : ∃ s l s' t l',
    let p := LoopPass.fd (fun _ => true) fun _ => false
    (IsList s.mem.links (s.mem.head p.kind) l ∧ (∀ a, a ∈ l ↔ Pending s.log p.kind a) ∧
      p.run removesNext s = some s' ∧ s'.log = s.log ++ t ∧
      PassSpec (fun a => p.ready (s.mem.event a)) l t ∧ (calls t).Nodup ∧
      (∀ a j, .added a j ∈ t → a ∉ calls t) ∧ IsList s'.mem.links (s'.mem.head p.kind) l' ∧
      ∀ a, a ∈ l' ↔ Pending s'.log p.kind a) ∧
    t = [.called 2, .removed 1, .added 3 .fd, .removed 2, .called 0] := by
  have hexec : ((Transition.exec eventStep (fun s op => op.Allowed s) EventState.init
      [.addFd 5 false .handleUdpRead (.udpMap 0), .addFd 6 false .handleUdpRead (.udpMap 1),
        .addFd 7 false .handleUdpRead (.udpMap 2)]).any fun s =>
      ((LoopPass.fd (fun _ => true) fun _ => false).run removesNext s).any fun s' =>
        s'.log = s.log ++ [.called 2, .removed 1, .added 3 .fd, .removed 2, .called 0]) = true := by
    decide
  obtain ⟨s, hrun, hs⟩ := Transition.exists_run_of_exec hexec
  have hreached := EventState.Reached.of_run ⟨fun k => by cases k <;> rfl, rfl⟩ hrun
  obtain ⟨l, s', t, l', hspec⟩ := each_called_once (.fd (fun _ => true) fun _ => false) hreached
    removesNext_obeys
  refine ⟨s, l, s', t, l', hspec, ?_⟩
  obtain ⟨s₁, hs₁, hlog⟩ := (Option.any_eq_true _ _).mp hs
  obtain rfl := Option.some.inj (hs₁.symm.trans hspec.2.2.1)
  exact List.append_cancel_left (hspec.2.2.2.1.symm.trans (of_decide_eq_true hlog))

end Ptrtd
