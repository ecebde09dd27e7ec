import Ptrtd.Verification.Event.Ownership
import Ptrtd.Verification.Udp.Maps

/-! # What the UDP maps leave alone

The maps register and unlink events of maps only, and close no socket but their own. -/

namespace Ptrtd.Wire

open Registry

variable {s s' : UdpMem} {l : List ℕ} {um e : ℕ} {fd : ℤ} {now : Timeval} {i : UdpMemInput}
  {own : DataRef → Bool}

theorem isUdp_eq (e : Event) : isUdp e = udpOwns e.data := by
  rw [isUdp]
  cases e.data <;> rfl

/-- What the maps keep: the events of others, and the sockets of others. -/
structure UdpKept (s s' : UdpMem) : Prop where
  ev : s.ev.Changed udpOwns s'.ev
  sockets : ∀ fd, s.opened fd = true → owner fd s.log = none →
    s'.opened fd = true ∧ owner fd s'.log = none

theorem UdpKept.refl (s : UdpMem) : UdpKept s s :=
  ⟨.refl .., fun _ hopen howner => ⟨hopen, howner⟩⟩

theorem UdpKept.trans {t : UdpMem} (h : UdpKept s s') (h' : UdpKept s' t) : UdpKept s t :=
  ⟨h.ev.trans h'.ev, fun fd hopen howner =>
    h'.sockets fd (h.sockets fd hopen howner).1 (h.sockets fd hopen howner).2⟩

theorem UdpMem.createMap_kept (raddr : Table.Addr) (rport : ℕ) (hfd : s.opened fd = false) :
    UdpKept s (s.createMap raddr rport um fd now) := by
  refine ⟨?_, fun fd' hopen howner => ?_⟩
  · have hadd : s.ev.Changed udpOwns (addFdEvent s.ev fd false .handleUdpRead (.udpMap um)) :=
      .addFdEvent rfl
    exact hadd.trans (.addTimeEvent rfl)
  · have hne : fd ≠ fd' := by
      rintro rfl
      rw [hopen] at hfd
      cases hfd
    refine ⟨?_, ?_⟩
    · exact (Function.update_of_ne (Ne.symm hne) true s.opened).trans hopen
    · exact (if_neg hne).trans howner

/-- The event of a map in a list is the one it points to. -/
theorem Registers.exists_mem {maps : ℕ → Prop} {p : ℕ → ℕ} {shape : ℕ → Event → Prop}
    {evs : List Event} (h : Registers maps p shape evs) (hum : maps um) :
    ∃ e ∈ evs, e.addr = p um ∧ e.data = .udpMap um := by
  obtain ⟨e, hlist, haddr, hdata, -⟩ := h.exists_eq hum
  have hmem : e ∈ evs.filter (refersTo um) := hlist ▸ List.mem_singleton_self e
  exact ⟨e, (List.mem_filter.mp hmem).1, haddr, hdata⟩

theorem Maps.refresh_kept (h : Maps s l) (hum : um ∈ l) (now : Timeval) :
    UdpKept s (s.refresh um now) := by
  obtain ⟨e, he, haddr, hdata⟩ := h.events.stale.exists_mem hum
  refine ⟨?_, fun _ hopen howner => ⟨hopen, howner⟩⟩
  rw [UdpMem.refresh, ← haddr]
  exact .reschedTimeEvent h.events.addressed he (by rw [hdata]; rfl) _

theorem Maps.handleUdp_kept (h : Maps s l) (hum : um ∉ s.allocated) (hfd : s.opened fd = false)
    {r : Recv} {now' : Timeval} (hs : s.handleUdp r um fd now now' = some s') : UdpKept s s' := by
  rw [UdpMem.handleUdp] at hs
  split at hs
  · obtain ⟨s₁, um₁, l₁, hget, hmaps, hmem, -⟩ := h.getMap hum hfd r.src (get16 r.d 40) now
    rw [UdpMem.incoming, hget] at hs
    obtain rfl := Option.some.inj hs
    have hkept : UdpKept s s₁ := by
      obtain ⟨found, -, hfound⟩ := Option.map_eq_some_iff.mp hget
      cases found with
      | some found =>
          obtain ⟨rfl, -⟩ := Prod.mk.inj hfound
          exact .refl s
      | none =>
          obtain ⟨rfl, -⟩ := Prod.mk.inj hfound
          exact s.createMap_kept _ _ hfd
    have hsent := (hmaps.sent (s₁.sent4 ++ [⟨(s₁.cell um₁).map.fd,
      Circular.load r.d 48 (r.len - 48), r.len - 48, embedded (getAddr r.d 24), get16 r.d 42⟩])
      s₁.sent6).refresh_kept hmem now'
    exact hkept.trans ⟨hsent.ev, hsent.sockets⟩
  · obtain rfl := Option.some.inj hs
    exact .refl s

theorem Maps.removeUdpMap_kept (h : Maps s l) (hum : um ∈ l) :
    UdpKept s (s.removeUdpMap um) := by
  obtain ⟨x, hx, haddr, hdata⟩ := h.events.read.exists_mem hum
  refine ⟨?_, fun fd hopen howner => ?_⟩
  · have hmine : s.ev.Mine udpOwns .fd x.addr :=
      h.events.addressed.mine (k := .fd) hx (by rw [hdata]; rfl)
    rw [haddr] at hmine
    exact .removeFdEvent hmine
  · have hne : (s.cell um).map.fd ≠ fd := by
      rintro rfl
      rw [h.owned um hum] at howner
      cases howner
    refine ⟨?_, ?_⟩
    · exact (Function.update_of_ne (Ne.symm hne) false s.opened).trans hopen
    · exact (if_neg hne).trans howner

/-- The inputs of the maps, apart from what the rest of the daemon does. -/
def UdpMemInput.isOwn : UdpMemInput → Bool
  | .others _ _ => false
  | _ => true

/-- Whatever happens to the maps, they leave the events and the sockets of all others alone. -/
theorem Maps.step_kept (h : Maps s l) (hown : i.isOwn = true) (hstep : udpMemStep s i = some s') :
    UdpKept s s' := by
  cases i with
  | packet r um fd now now' =>
      rw [udpMemStep] at hstep
      split at hstep
      · next hfresh => exact h.handleUdp_kept hfresh.1 hfresh.2 hstep
      · cases hstep
  | readable e data src sport pfx now =>
      obtain ⟨um, hmap, rfl⟩ := Option.map_eq_some_iff.mp hstep
      obtain ⟨x, hx, -, -, hdata⟩ := eventMap_spec hmap
      have hum : um ∈ l := (h.events.read.only x hx um hdata).1
      have hkept := (h.sent s.sent4 (s.sent6 ++ [udpSend data (embed pfx src) sport
        (s.cell um).map.raddr (s.cell um).map.rport])).refresh_kept hum now
      exact ⟨hkept.ev, hkept.sockets⟩
  | stale e =>
      obtain ⟨um, hmap, rfl⟩ := Option.map_eq_some_iff.mp hstep
      obtain ⟨x, hx, rfl, -, hdata⟩ := eventMap_spec hmap
      have hum : um ∈ l := (h.events.stale.only x hx um hdata).1
      have hkept := h.removeUdpMap_kept hum
      have hmine : s.ev.Mine udpOwns .time x.addr :=
        h.events.addressed.mine (k := .time) hx (by rw [hdata]; rfl)
      exact ⟨hkept.ev.trans (.removeTimeEvent (hmine.changed hkept.ev)), hkept.sockets⟩
  | others ev opened => cases hown

/-- A socket that was made for a client and not closed since is open. -/
def Opened (s : UdpMem) : Prop := ∀ fd, owner fd s.log ≠ none → s.opened fd = true

theorem Opened.step (h : Opened s) (hmaps : Maps s l) (hstep : udpMemStep s i = some s') :
    Opened s' := by
  cases i with
  | packet r um fd now now' =>
      rw [udpMemStep] at hstep
      split at hstep
      · next hfresh =>
          rw [UdpMem.handleUdp] at hstep
          split at hstep
          · obtain ⟨s₁, um₁, l₁, hget, -⟩ :=
              hmaps.getMap hfresh.1 hfresh.2 r.src (get16 r.d 40) now
            rw [UdpMem.incoming, hget] at hstep
            obtain rfl := Option.some.inj hstep
            obtain ⟨found, -, hfound⟩ := Option.map_eq_some_iff.mp hget
            cases found with
            | some found =>
                obtain ⟨rfl, -⟩ := Prod.mk.inj hfound
                exact h
            | none =>
                obtain ⟨rfl, -⟩ := Prod.mk.inj hfound
                intro fd' howner
                change Function.update s.opened fd true fd' = true
                by_cases hfd : fd' = fd
                · rw [hfd, Function.update_self]
                · rw [Function.update_of_ne hfd]
                  refine h fd' fun hnone => howner ?_
                  exact (if_neg (Ne.symm hfd)).trans hnone
          · obtain rfl := Option.some.inj hstep
            exact h
      · cases hstep
  | readable e data src sport pfx now =>
      obtain ⟨um, -, rfl⟩ := Option.map_eq_some_iff.mp hstep
      exact h
  | stale e =>
      obtain ⟨um, -, rfl⟩ := Option.map_eq_some_iff.mp hstep
      intro fd howner
      change Function.update s.opened (s.cell um).map.fd false fd = true
      by_cases hfd : (s.cell um).map.fd = fd
      · exact absurd (if_pos hfd) howner
      · rw [Function.update_of_ne (Ne.symm hfd)]
        refine h fd fun hnone => howner ?_
        exact (if_neg hfd).trans hnone
  | others ev opened =>
      rw [udpMemStep] at hstep
      split at hstep
      · next hothers =>
          obtain rfl := Option.some.inj hstep
          intro fd howner
          obtain ⟨x, hx, rfl⟩ := exists_entry howner
          exact (hothers.2.2.2 x hx howner).trans (h _ howner)
      · cases hstep

end Ptrtd.Wire
