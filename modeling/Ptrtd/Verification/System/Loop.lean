import Ptrtd.Model.SystemLoop
import Ptrtd.Verification.System.Progress
import Ptrtd.Verification.Timer.Waiting

/-! # The daemon under `event_loop`

What `event_loop` does to the daemon is, for each connection, what it does to this connection
among others. The order in which it runs the events is therefore the one in which the properties
of a connection under `event_loop` were proved. -/

namespace Ptrtd.Wire

open Table (TcbNode)

variable {rb : Table.Rebalance} {iface : Iface} {ok : Conn → Input → Prop} {s s' : System}
  {c c' : Conn} {a : ℕ} {i : SystemInput} {e : Event} {k : ListKind} {front rest : List Event}
  {l l' : SystemLoop} {now : Timeval}

/-! ## A step, as a connection sees it -/

theorem System.get_resume {t : TcbNode} {d : Daemon} (hput : s.daemon.put rb t c = some d) :
    (s.resume t.addr d).get t.addr = some c := by
  obtain ⟨tcbs, rfl, -⟩ := put_eq hput
  rw [System.get, System.resume]
  dsimp only
  rw [Function.update_self]
  rfl

theorem Untouched.others (h : Untouched s s' a) (hc : s'.get a = some c) (hlive : c.live = true) :
    ∃ x, s.get a = some x ∧ x.live = true ∧ Ptrtd.step x (.others s'.udp.ev) = some c := by
  obtain ⟨x, hx, rfl⟩ := System.get_eq_some hc
  have hget : s.get a = some { x with ev := s.udp.ev } := by
    rw [System.get, ← h.conn, hx]
    rfl
  have hlive : x.live = true := hlive
  refine ⟨_, hget, hlive, ?_⟩
  rw [Ptrtd.step.eq_def]
  dsimp only
  rw [if_pos hlive, if_pos (h.events _ hget)]

/-- How a connection has come about in a step of the daemon: by an input of its own, by a change
elsewhere, or by a SYN. -/
inductive Seen (ok : Conn → Input → Prop) (s : System) (i : SystemInput) (a : ℕ) (c : Conn) :
    Prop where
  | own {x : Conn} {j : Input} : s.get a = some x → x.live = true → s.concerns i = some (a, j) →
      ok x j → Ptrtd.step x j = some c → Seen ok s i a c
  | others {x : Conn} {ev : EventLists} : s.get a = some x → x.live = true →
      ok x (.others ev) → Ptrtd.step x (.others ev) = some c → Seen ok s i a c
  | new {e : ℕ} {io : SystemIo} : i = .fd e io → Start .tcpMapCb c → Seen ok s i a c

theorem Whole.seen_of_untouched (hok : s.OnConns ok i) (h : Untouched s s' a)
    (hc : s'.get a = some c) (hlive : c.live = true) : Seen ok s i a c := by
  obtain ⟨x, hx, hxlive, hstep⟩ := h.others hc hlive
  refine .others hx hxlive ?_ hstep
  exact hok.2 a x hx hxlive x.ev _

theorem Whole.seen (h : Whole rb ok s) (hlaw : rb.Lawful) (hok : s.OnConns ok i)
    (hstep : s.step rb iface i = some s') (hc : s'.get a = some c) (hlive : c.live = true) :
    Seen ok s i a c := by
  cases h.went hstep with
  | neighbors nd => exact Whole.seen_of_untouched hok (h.untouched_of_neighbors nd) hc hlive
  | maps hown hudp => exact Whole.seen_of_untouched hok (h.untouched_of_maps hown hudp) hc hlive
  | @conn t x x' j d hconcerns ht hlisten hx hxlive hown hnext hput =>
      by_cases ha : a = t.addr
      · subst ha
        obtain rfl := Option.some.inj (hc.symm.trans (System.get_resume hput))
        exact .own hx hxlive hconcerns (hok.1 _ _ _ hconcerns hx) hnext
      · exact Whole.seen_of_untouched hok
          (h.untouched_of_conn hlaw ht hlisten hx hown hnext hput ha) hc hlive
  | @syn r t x j d res e um fd now now' hi hconcerns hfresh hfind hlisten hflags hsyn hput =>
      by_cases ha : a = s.tcbs.next
      · subst ha
        obtain ⟨tcbs, rfl, -⟩ := put_eq hput
        have hget := hc
        rw [System.get, System.resume] at hget
        dsimp only [Table.tcbNode] at hget
        rw [Function.update_self] at hget
        obtain rfl : x = c := Option.some.inj hget
        exact .new hi ⟨s.tcbs.next, s.isn, s.udp.ev, r.segment, res, h.freshAddr, hsyn⟩
      · obtain ⟨-, hev, -, hsocket⟩ := h.kept_of_syn hfresh hsyn
        obtain ⟨tcbs, rfl, htable⟩ := h.table_of_syn hlaw hfind hlisten hflags hput
        exact Whole.seen_of_untouched hok (h.untouched_of_resume hev hsocket htable.kept ha) hc
          hlive

/-- Only the always events run `do_tcb_write`. -/
theorem isAlways_of_concerns {j : Input} (h : s.concerns i = some (a, j))
    (hi : ∀ e now, i ≠ .always e now) : j.isAlways = false := by
  cases i with
  | time e =>
      obtain ⟨x, -, h⟩ := Option.bind_eq_some_iff.mp h
      split at h
      · cases h
        rfl
      · cases h
  | fd e io =>
      obtain ⟨x, -, h⟩ := Option.bind_eq_some_iff.mp h
      split at h
      · cases h
        rfl
      · split at h
        · cases h
          rfl
        · cases h
      · cases h
  | always e now => exact absurd rfl (hi e now)

/-! ## The passes -/

/-- What `event_loop` does. -/
inductive LoopWent (rb : Table.Rebalance) (iface : Iface) (ok : System → SystemInput → Prop)
    (l : SystemLoop) : SystemLoop → Prop where
  | due {e : Event} {s : System} : l.phase = .select → ok l.sys (.time e.addr) →
      l.sys.step rb iface (.time e.addr) = some s → LoopWent rb iface ok l (.enterAlways s)
  | ready {rfds wfds : ℤ → Bool} : l.phase = .select →
      LoopWent rb iface ok l ⟨l.sys, .fds rfds wfds l.sys.udp.ev.fdEventList⟩
  | idle : l.phase = .select → LoopWent rb iface ok l (.enterAlways l.sys)
  | run {rfds wfds : ℤ → Bool} {e : Event} {rest : List Event} {io : SystemIo} {s : System} :
      l.phase = .fds rfds wfds (e :: rest) → ok l.sys (.fd e.addr io) →
      l.sys.step rb iface (.fd e.addr io) = some s →
      LoopWent rb iface ok l ⟨s, .fds rfds wfds (s.still .fd rest)⟩
  | skip {rfds wfds : ℤ → Bool} {e : Event} {rest : List Event} :
      l.phase = .fds rfds wfds (e :: rest) → LoopWent rb iface ok l ⟨l.sys, .fds rfds wfds rest⟩
  | turn {rfds wfds : ℤ → Bool} : l.phase = .fds rfds wfds [] →
      LoopWent rb iface ok l (.enterAlways l.sys)
  | visit {e : Event} {rest : List Event} {now : Timeval} {s : System} :
      l.phase = .always (e :: rest) → ok l.sys (.always e.addr now) →
      l.sys.step rb iface (.always e.addr now) = some s →
      LoopWent rb iface ok l ⟨s, .always (s.still .always rest)⟩
  | again : l.phase = .always [] → LoopWent rb iface ok l ⟨l.sys, .select⟩

theorem loopWent_of_step {ok : System → SystemInput → Prop} {j : SystemLoopInput}
    (hok : l.OnSystem ok j) (h : l.step rb iface j = some l') : LoopWent rb iface ok l l' := by
  obtain ⟨s, phase⟩ := l
  rw [SystemLoop.step.eq_def] at h
  split at h
  · next now sel rfds wfds hp =>
      split at h
      · next e he =>
          obtain ⟨s', hstep, rfl⟩ := Option.map_eq_some_iff.mp h
          refine .due hp (hok _ ?_) hstep
          obtain rfl : phase = .select := hp
          simp only [SystemLoop.input, he, Option.map_some]
      · split at h
        · obtain rfl := Option.some.inj h
          exact .ready hp
        · obtain rfl := Option.some.inj h
          exact .idle hp
  · next rfds wfds e rest io hp =>
      split at h
      · next hready =>
          obtain ⟨s', hstep, rfl⟩ := Option.map_eq_some_iff.mp h
          refine .run hp (hok _ ?_) hstep
          obtain rfl : phase = .fds rfds wfds (e :: rest) := hp
          simp only [SystemLoop.input, if_pos hready]
      · cases h
  · next hp =>
      split at h
      · cases h
      · obtain rfl := Option.some.inj h
        exact .skip hp
  · next hp =>
      obtain rfl := Option.some.inj h
      exact .turn hp
  · next e rest now hp =>
      obtain ⟨s', hstep, rfl⟩ := Option.map_eq_some_iff.mp h
      refine .visit hp (hok _ ?_) hstep
      obtain rfl : phase = .always (e :: rest) := hp
      rfl
  · next hp =>
      obtain rfl := Option.some.inj h
      exact .again hp
  · cases h

/-- What comes last in a list, by the addresses. -/
theorem filter_behind (hnodup : ((front ++ rest).map Event.addr).Nodup) :
    (front ++ rest).filter (fun x => x.addr ∈ rest.map Event.addr) = rest := by
  rw [List.map_append, List.nodup_append] at hnodup
  obtain ⟨-, -, hne⟩ := hnodup
  rw [List.filter_append]
  have hfront : front.filter (fun x => x.addr ∈ rest.map Event.addr) = [] := by
    refine List.filter_eq_nil_iff.mpr fun x hx hin => ?_
    exact hne x.addr (List.mem_map_of_mem hx) x.addr (of_decide_eq_true hin) rfl
  have hrest : rest.filter (fun x => x.addr ∈ rest.map Event.addr) = rest :=
    List.filter_eq_self.mpr fun x hx => decide_eq_true (List.mem_map_of_mem hx)
  rw [hfront, hrest, List.nil_append]

/-- The write event of a connection is run. Of the always events, it may unlink itself. -/
theorem Whole.visit (h : Whole rb ok s) (he : e ∈ s.udp.ev.alwaysEventList)
    (hstep : s.step rb iface (.always e.addr now) = some s') : ∃ t x x' d, t ∈ s.tcbs.live ∧
      e.data = .tcb t.addr ∧ t.listening = false ∧ s.get t.addr = some x ∧ x.live = true ∧
        Ptrtd.step x (.alwaysEvent e.addr now) = some x' ∧ s.daemon.put rb t x' = some d ∧
          s' = s.resume t.addr d ∧
            (s'.udp.ev.alwaysEventList = s.udp.ev.alwaysEventList ∨
              s'.udp.ev.alwaysEventList = delEvent e.addr s.udp.ev.alwaysEventList) := by
  have hnodup : (s.udp.ev.alwaysEventList.map Event.addr).Nodup := (h.addressed .always).1
  rw [System.step, registered_of_mem hnodup he, Option.bind_some] at hstep
  split at hstep
  · next b hdata =>
      obtain ⟨t, x, x', d, ht, rfl, hlisten, hx, hlive, hnext, hput, rfl⟩ := h.onConn_cases hstep
      refine ⟨t, x, x', d, ht, hdata, hlisten, hx, hlive, hnext, hput, rfl, ?_⟩
      have hev : (s.resume t.addr d).udp.ev = x'.ev := by
        obtain ⟨tcbs, rfl, -⟩ := put_eq hput
        rfl
      obtain ⟨y, -, rfl⟩ := System.get_eq_some hx
      obtain ⟨-, hexact⟩ := step_exact hnext
      rw [hev]
      cases hexact with
      | alwaysEvent hrun =>
          obtain ⟨z, -, -, -, b, again, hw, rfl⟩ := runAlwaysEvent_cases hrun
          obtain ⟨-, hlist⟩ := hw.alwaysEventList
          cases again with
          | true => exact .inl hlist
          | false =>
              right
              rw [← show b.ev.alwaysEventList = s.udp.ev.alwaysEventList from hlist]
              rfl
  · cases hstep

/-- The always events behind the one that is run stay where they are. -/
theorem Whole.still_of_visit (h : Whole rb ok s)
    (hlist : s.udp.ev.alwaysEventList = front ++ e :: rest)
    (hafter : s'.udp.ev.alwaysEventList = s.udp.ev.alwaysEventList ∨
      s'.udp.ev.alwaysEventList = delEvent e.addr s.udp.ev.alwaysEventList) :
    s'.still .always rest = rest ∧ rest <:+ s'.udp.ev.alwaysEventList := by
  have hnodup : ((front ++ e :: rest).map Event.addr).Nodup := hlist ▸ (h.addressed .always).1
  have hsuffix : ∃ front', s'.udp.ev.alwaysEventList = front' ++ rest ∧
      ((front' ++ rest).map Event.addr).Nodup := by
    rcases hafter with hsame | hgone
    · refine ⟨front ++ [e], ?_, ?_⟩
      · rw [hsame, hlist, List.append_assoc]
        rfl
      · rw [List.append_assoc]
        exact hnodup
    · have hne : ∀ x ∈ front ++ rest, x.addr ≠ e.addr := by
        have hperm := hnodup
        rw [List.map_append, List.map_cons, List.nodup_middle, ← List.map_append] at hperm
        intro x hx heq
        exact (List.nodup_cons.mp hperm).1 (heq ▸ List.mem_map_of_mem hx)
      refine ⟨front, ?_, ?_⟩
      · rw [hgone, hlist, delEvent, List.filter_append, List.filter_cons_of_neg (by simp),
          ← List.filter_append]
        exact List.filter_eq_self.mpr fun x hx => by simpa using hne x hx
      · refine hnodup.sublist (List.Sublist.map _ ?_)
        exact (List.sublist_cons_self e rest).append_left front
  obtain ⟨front', hlist', hnodup'⟩ := hsuffix
  refine ⟨?_, front', hlist'.symm⟩
  have hstill : s'.still .always rest =
      s'.udp.ev.alwaysEventList.filter fun x => x.addr ∈ rest.map Event.addr := rfl
  rw [hstill, hlist']
  exact filter_behind hnodup'

/-! ## The connections under `event_loop` -/

/-- Where `event_loop` is, as a connection sees it. -/
def SystemPhase.forConn : SystemPhase → LoopPhase
  | .select => .select
  | .fds _ _ _ => .events
  | .always rest => .always rest

/-- The connections are all where `event_loop` is. -/
def System.AllLooped (ok : Conn → Input → Prop) (s : System) (p : LoopPhase) : Prop :=
  ∀ a c, s.get a = some c → c.live = true → Looped ok ⟨c, p⟩

/-- What a pass has still to visit is registered. -/
def SystemLoop.Behind (l : SystemLoop) : Prop :=
  match l.phase with
  | .select => True
  | .fds _ _ rest => rest ⊆ l.sys.udp.ev.fdEventList
  | .always rest => rest <:+ l.sys.udp.ev.alwaysEventList

/-- What holds of the daemon under `event_loop`. -/
structure WholeLoop (rb : Table.Rebalance) (ok : Conn → Input → Prop) (l : SystemLoop) : Prop where
  whole : Whole rb ok l.sys
  behind : l.Behind
  looped : l.sys.AllLooped ok l.phase.forConn

theorem Whole.allLooped_events (h : Whole rb ok s) (hlaw : rb.Lawful) (hok : s.OnConns ok i)
    (hlooped : s.AllLooped ok .events) (hi : ∀ e now, i ≠ .always e now)
    (hstep : s.step rb iface i = some s') : s'.AllLooped ok .events := by
  intro a c hc hlive
  cases h.seen hlaw hok hstep hc hlive with
  | own hx hxlive hconcerns hj hnext =>
      exact (hlooped a _ hx hxlive).event (isAlways_of_concerns hconcerns hi) hj hnext
  | others hx hxlive hj hnext => exact (hlooped a _ hx hxlive).event rfl hj hnext
  | new _ hstart => exact .of_start hstart

theorem System.AllLooped.turn (h : s.AllLooped ok .events) :
    s.AllLooped ok (.always s.udp.ev.alwaysEventList) := by
  intro a c hc hlive
  obtain ⟨x, -, rfl⟩ := System.get_eq_some hc
  exact (h a _ hc hlive).turn

/-- One always event: its connection is visited, and passed by all others. -/
theorem Whole.allLooped_visit (h : Whole rb ok s) (hlaw : rb.Lawful)
    (hok : s.OnConns ok (.always e.addr now)) (hlooped : s.AllLooped ok (.always (e :: rest)))
    (he : e ∈ s.udp.ev.alwaysEventList)
    (hstep : s.step rb iface (.always e.addr now) = some s') :
    s'.AllLooped ok (.always rest) := by
  have hnodup : (s.udp.ev.alwaysEventList.map Event.addr).Nodup := (h.addressed .always).1
  obtain ⟨t, x, x', d, ht, hdata, hlisten, hx, hxlive, hnext, hput, rfl, -⟩ := h.visit he hstep
  have hconcerns : s.concerns (.always e.addr now) =
      some (t.addr, .alwaysEvent e.addr now) := by
    rw [System.concerns, registered_of_mem hnodup he, Option.bind_some, hdata]
  have hself : ∀ {b y}, s.get b = some y → y.self = b := by
    intro b y hy
    obtain ⟨z, hz, rfl⟩ := System.get_eq_some hy
    exact (h.self b z hz).1
  intro a c hc hlive
  by_cases ha : a = t.addr
  · subst ha
    obtain rfl := Option.some.inj (hc.symm.trans (System.get_resume hput))
    refine (hlooped _ x hx hxlive).visit (owns_of_tcb ?_) (hok.1 _ _ _ hconcerns hx) hnext
    rw [hdata, hself hx]
  · have huntouched := h.untouched_of_conn hlaw ht hlisten hx rfl hnext hput ha
    obtain ⟨y, hy, hylive, hothers⟩ := huntouched.others hc hlive
    refine (hlooped a y hy hylive).pass ?_ (hok.2 a y hy hylive y.ev _) hothers
    rw [Conn.owns, hdata, hself hy]
    simpa using fun heq => ha heq.symm

theorem WholeLoop.went (h : WholeLoop rb ok l) (hlaw : rb.Lawful)
    (hstep : LoopWent rb iface (System.OnConns ok) l l') : WholeLoop rb ok l' := by
  obtain ⟨hwhole, hbehind, hlooped⟩ := h
  cases hstep with
  | due hp hok hstep =>
      rw [hp] at hlooped
      have hevents : l.sys.AllLooped ok .events := fun a c hc hlive =>
        (hlooped a c hc hlive).selected
      exact ⟨hwhole.step hlaw hok hstep, List.suffix_refl _,
        (hwhole.allLooped_events hlaw hok hevents (by rintro _ _ ⟨⟩) hstep).turn⟩
  | ready hp =>
      rw [hp] at hlooped
      exact ⟨hwhole, List.Subset.refl _, fun a c hc hlive => (hlooped a c hc hlive).selected⟩
  | idle hp =>
      rw [hp] at hlooped
      have hevents : l.sys.AllLooped ok .events := fun a c hc hlive =>
        (hlooped a c hc hlive).selected
      exact ⟨hwhole, List.suffix_refl _, hevents.turn⟩
  | run hp hok hstep =>
      rw [hp] at hlooped
      exact ⟨hwhole.step hlaw hok hstep, fun x hx => (List.mem_filter.mp hx).1,
        hwhole.allLooped_events hlaw hok hlooped (by rintro _ _ ⟨⟩) hstep⟩
  | skip hp =>
      rw [hp] at hlooped
      rw [SystemLoop.Behind, hp] at hbehind
      exact ⟨hwhole, fun x hx => hbehind (List.mem_cons_of_mem _ hx), hlooped⟩
  | turn hp =>
      rw [hp] at hlooped
      exact ⟨hwhole, List.suffix_refl _, System.AllLooped.turn hlooped⟩
  | visit hp hok hstep =>
      rw [hp] at hlooped
      rw [SystemLoop.Behind, hp] at hbehind
      obtain ⟨front, hlist⟩ := hbehind
      have he := hlist ▸ List.mem_append_right front List.mem_cons_self
      obtain ⟨-, -, -, -, -, -, -, -, -, -, -, -, hafter⟩ := hwhole.visit he hstep
      obtain ⟨hstill, hsuffix⟩ := hwhole.still_of_visit hlist.symm hafter
      rw [hstill]
      exact ⟨hwhole.step hlaw hok hstep, hsuffix,
        hwhole.allLooped_visit hlaw hok hlooped he hstep⟩
  | again hp =>
      rw [hp] at hlooped
      exact ⟨hwhole, trivial, fun a c hc hlive => (hlooped a c hc hlive).again⟩

theorem SystemLoop.Reached.wholeLoop
    (h : SystemLoop.Reached rb iface (System.OnConns ok) l) (hlaw : rb.Lawful) :
    WholeLoop rb ok l := by
  obtain ⟨s₀, hstart, hrun⟩ := h
  apply hrun.invariant
  · refine ⟨hstart.whole hlaw, trivial, fun a c hc => ?_⟩
    obtain ⟨x, hx, -⟩ := System.get_eq_some hc
    rw [hstart.conn] at hx
    cases hx
  · exact fun l i l' hinv hok hstep => hinv.went hlaw (loopWent_of_step hok hstep)

/-- The daemon under `event_loop` is reached by its steps. -/
theorem SystemLoop.Reached.sys {ok : System → SystemInput → Prop}
    (h : SystemLoop.Reached rb iface ok l) : System.Reached rb iface ok l.sys := by
  obtain ⟨s₀, hstart, hrun⟩ := h
  induction hrun with
  | refl => exact ⟨s₀, hstart, .refl⟩
  | tail _ hok hstep ih =>
      obtain ⟨s₁, hstart', hrun'⟩ := ih
      cases loopWent_of_step hok hstep with
      | due _ hj hnext | run _ hj hnext | visit _ hj hnext =>
          exact ⟨s₁, hstart', hrun'.tail hj hnext⟩
      | ready | idle | skip | turn | again => exact ⟨s₁, hstart', hrun'⟩

theorem SystemLoop.Reached.mono {ok ok' : System → SystemInput → Prop}
    (h : SystemLoop.Reached rb iface ok l) (himp : ∀ s i, ok s i → ok' s i) :
    SystemLoop.Reached rb iface ok' l := by
  obtain ⟨s₀, hstart, hrun⟩ := h
  exact ⟨s₀, hstart, hrun.mono fun _ _ hok j hj => himp _ _ (hok j hj)⟩

/-! ## Executions -/

/-- The peers and the sockets behave as in `Sane`, and `do_tcb_write` does not find a connection
stale. -/
def System.Steady (s : System) (i : SystemInput) : Prop := s.Sane i ∧ s.OnConns NotStale i

theorem System.Steady.onConns (h : s.Steady i) :
    s.OnConns (fun c j => Cooperative c j ∧ NotStale c j) i :=
  ⟨fun a c j hj hc => ⟨h.1.1.1 a c j hj hc, h.2.1 a c j hj hc⟩,
    fun a c hc hlive ev ev' => ⟨h.1.1.2 a c hc hlive ev ev', h.2.2 a c hc hlive ev ev'⟩⟩

instance : (i : SystemInput) → Decidable (SparesListener i)
  | .fd _ (.frame r _ _ _ _ _) => inferInstanceAs (Decidable (¬Table.WildcardSyn r.arrival))
  | .fd _ (.tcp _) | .fd _ (.datagram _ _ _ _ _) | .time _ | .always _ _ => isTrue trivial

/-- The sequence numbers of the connections that have been made have not wrapped. -/
def System.inSpace (s : System) : Bool :=
  decide (∀ a < s.tcbs.next, (s.get a).all (fun c => InSpace c) = true)

/-- `Steady`, as it is computed. -/
def System.check (s : System) (i : SystemInput) : Bool :=
  s.inSpace && decide (SparesListener i) &&
    (s.concerns i).all fun p => (s.get p.1).all fun c => Cooperative c p.2 ∧ NotStale c p.2

theorem Whole.inSpace (h : Whole rb ok s) (hspace : s.inSpace = true) (hc : s.get a = some c) :
    InSpace c := by
  obtain ⟨x, hx, rfl⟩ := System.get_eq_some hc
  have hall := of_decide_eq_true hspace a (h.self a x hx).2
  rw [hc] at hall
  exact of_decide_eq_true hall

theorem Whole.steady (h : Whole rb ok s) (hcheck : s.check i = true) : s.Steady i := by
  rw [System.check, Bool.and_eq_true, Bool.and_eq_true] at hcheck
  obtain ⟨⟨hspace, hspares⟩, hconcerns⟩ := hcheck
  have hown : ∀ a c j, s.concerns i = some (a, j) → s.get a = some c →
      Cooperative c j ∧ NotStale c j := by
    intro a c j hj hc
    rw [hj, Option.all_some, hc, Option.all_some] at hconcerns
    exact of_decide_eq_true hconcerns
  refine ⟨⟨⟨fun a c j hj hc => (hown a c j hj hc).1, fun a c hc _ ev ev' => ?_⟩,
    of_decide_eq_true hspares⟩, fun a c j hj hc => (hown a c j hj hc).2, fun _ _ _ _ _ _ => trivial⟩
  have hin : InSpace c := h.inSpace hspace hc
  exact ⟨hin, trivial⟩

/-- Execute steps of `event_loop` from the start of the daemon. -/
def systemExec (is : List SystemLoopInput) : Option SystemLoop :=
  Transition.exec (SystemLoop.step .plain tapIface)
    (fun l i => (l.input i).all l.sys.check = true) ⟨System.init, .select⟩ is

theorem reached_of_systemExec {is : List SystemLoopInput} (h : systemExec is = some l) :
    SystemLoop.Reached .plain tapIface System.Steady l := by
  have hrun := Transition.run_of_exec h
  clear h
  induction hrun with
  | refl => exact ⟨_, System.start_init, .refl⟩
  | tail _ hok hstep ih =>
      have hwhole := ((ih.mono fun _ _ hj => hj.onConns).wholeLoop
        Table.Rebalance.lawful_plain).whole
      obtain ⟨s₀, hstart, hrun⟩ := ih
      refine ⟨s₀, hstart, hrun.tail (fun j hj => hwhole.steady ?_) hstep⟩
      rw [hj, Option.all_some] at hok
      exact hok

/-- An ACK of the router to the host behind the prefix, which leaves the window open. -/
def ackPacket (ack : Uchar) : Recv where
  bytes := [0x60, 0, 0, 0, 0, 20, 6, 64] ++ otherlladdr.bytes ++ translated.bytes ++
    [4, 0, 0, 80, 0, 0, 0, 1, 0, 1, 0, ack, 0x50, 0x10, 0x20, 0, 0, 0, 0, 0]
  cap := 60
  fits := le_rfl

/-- `select` finds one descriptor ready for reading. -/
def readable (fd : ℤ) : SystemLoopInput := .wait ⟨0, 0⟩ 1 (fun x => x = fd) fun _ => false

/-- The packet is at the interface. -/
def arrives (r : Recv) (res : ConnectResult) : SystemLoopInput :=
  .run (.frame r 0 9 ⟨0, 0⟩ ⟨0, 0⟩ res)

/-- The data are at the socket of the connection. -/
def sends (data : List Uchar) : SystemLoopInput := .run (.tcp (.read (.data data)))

/-- A connection is made, and the host sends a byte and then more than a segment. -/
def longAnswer : List SystemLoopInput :=
  [readable 3, arrives synPacket (.connected 5), .next, .visit ⟨0, 0⟩, .next,
    readable 3, arrives (ackPacket 1) .noSocket, .next, .next,
    readable 5, sends [7], .next, .next, .visit ⟨0, 0⟩, .next,
    readable 3, .next, arrives (ackPacket 2) .noSocket, .next, .next,
    readable 5, sends (List.replicate 1300 8), .next, .next, .visit ⟨0, 0⟩, .next]

theorem exists_longAnswer : ∃ l, SystemLoop.Reached .plain tapIface System.Steady l ∧
    l.phase = .select ∧ l.sys.udp.ev.alwaysEventList ≠ [] ∧
      (l.sys.get 1).any Conn.live = true ∧ ∀ a c, l.sys.conn a = some c → InSpace c := by
  have hexec : (systemExec longAnswer).any (fun l => l.phase.forConn = .select ∧
      l.sys.udp.ev.alwaysEventList ≠ [] ∧ (l.sys.get 1).any Conn.live = true ∧
        l.sys.inSpace = true) = true := by
    decide +kernel
  obtain ⟨l, hl, hall⟩ := (Option.any_eq_true _ _).mp hexec
  obtain ⟨hphase, hwrite, hlive, hspace⟩ := of_decide_eq_true hall
  have hreach := reached_of_systemExec hl
  refine ⟨l, hreach, ?_, hwrite, hlive, fun a c hc => ?_⟩
  · cases hp : l.phase with
    | select => rfl
    | fds | always =>
        rw [hp] at hphase
        cases hphase
  · have hwhole := ((hreach.mono fun _ _ hok => hok.onConns).wholeLoop
      Table.Rebalance.lawful_plain).whole
    have hget : l.sys.get a = some { c with ev := l.sys.udp.ev } := by
      rw [System.get, hc]
      rfl
    have hin : InSpace { c with ev := l.sys.udp.ev } := hwhole.inSpace hspace hget
    exact hin

/-! ## One connection under `event_loop` -/

/-- Whatever `event_loop` runs, and in whatever order descriptors become ready, each connection of
the daemon is where it gets to under an `event_loop` that only runs it among others. -/
theorem looped_alone (hlaw : rb.Lawful)
    (hl : SystemLoop.Reached rb iface (System.OnConns Cooperative) l) (hc : l.sys.get a = some c)
    (hlive : c.live = true) : Looped Cooperative ⟨c, l.phase.forConn⟩ :=
  (hl.wholeLoop hlaw).looped a c hc hlive

theorem looped_alone_long : ∃ l c, SystemLoop.Reached .plain tapIface System.Steady l ∧
    l.sys.get 1 = some c ∧ c.live = true ∧ Looped Cooperative ⟨c, .select⟩ := by
  obtain ⟨l, hl, hphase, -, hlive, -⟩ := exists_longAnswer
  obtain ⟨c, hc, hlive⟩ := (Option.any_eq_true _ _).mp hlive
  have hlooped := looped_alone Table.Rebalance.lawful_plain
    (hl.mono fun _ _ hok => hok.1.1) hc hlive
  rw [hphase] at hlooped
  exact ⟨l, c, hl, hc, hlive, hlooped⟩

/-! ## Waiting -/

theorem loopWait_of_pending {ev : EventLists} (htime : ev.timeEventList ≠ [])
    (halways : ev.alwaysEventList ≠ []) :
    loopWait ev now = .dont ∨ loopWait ev now = .upTo ⟨0, 0⟩ := by
  obtain ⟨x, rest, hlist⟩ := List.exists_cons_of_ne_nil htime
  rw [loopWait, hlist]
  dsimp only
  rw [if_pos halways]
  split
  · exact .inr rfl
  · exact .inl rfl

/-- When `event_loop` is about to wait, every connection whose write event is still registered has
its timer pending, so that `select` returns at once. -/
theorem loop_polls (hlaw : rb.Lawful) (hl : SystemLoop.Reached rb iface System.Steady l)
    (hspace : ∀ a c, l.sys.conn a = some c → c.live = true → InSpace c)
    (hphase : l.phase = .select) :
    (∀ e ∈ l.sys.udp.ev.alwaysEventList, ∃ a c, e.data = .tcb a ∧ l.sys.get a = some c ∧
      c.live = true ∧ Covered c) ∧
      (l.sys.udp.ev.alwaysEventList ≠ [] → ∀ now,
        loopWait l.sys.udp.ev now = .dont ∨ loopWait l.sys.udp.ev now = .upTo ⟨0, 0⟩) := by
  have hwhole := ((hl.mono fun _ _ hok => hok.1.1).wholeLoop hlaw).whole
  have hlooped := ((hl.mono fun _ _ hok => hok.onConns).wholeLoop hlaw).looped
  rw [hphase] at hlooped
  have harmed : ∀ e ∈ l.sys.udp.ev.alwaysEventList, ∃ a c, e.data = .tcb a ∧
      l.sys.get a = some c ∧ c.live = true ∧ Covered c := by
    intro e he
    have hb := hwhole.backed hspace .always e he
    rw [System.Backed] at hb
    cases hdata : e.data with
    | tcb a =>
        rw [hdata] at hb
        obtain ⟨c, hc, hlive, -⟩ := hb
        have hget : l.sys.get a = some { c with ev := l.sys.udp.ev } := by
          rw [System.get, hc]
          rfl
        have hserved := serves_of_looped ((hlooped a _ hget hlive).mono fun _ _ hok => hok.2)
        have hown : Conn.owns { c with ev := l.sys.udp.ev } e = true := by
          refine owns_of_tcb ?_
          rw [hdata, (hwhole.self a c hc).1]
        have hleft : Armed { c with ev := l.sys.udp.ev } :=
          (hserved e he hown).resolve_left (by rintro ⟨⟩)
        exact ⟨a, _, rfl, hget, hlive, hleft.covered⟩
    | tcpMap a =>
        rw [hdata] at hb
        cases hb.1
    | udpMap um =>
        rw [hdata] at hb
        obtain ⟨-, -, -, ⟨hk, -⟩ | ⟨hk, -⟩⟩ := hb <;> cases hk
    | iface =>
        rw [hdata] at hb
        cases hb.1
  refine ⟨harmed, fun hne now => loopWait_of_pending ?_ hne⟩
  obtain ⟨e, he⟩ := List.exists_mem_of_ne_nil _ hne
  obtain ⟨a, c, -, hc, -, x, hx, -⟩ := harmed e he
  obtain ⟨y, -, rfl⟩ := System.get_eq_some hc
  exact List.ne_nil_of_mem hx

theorem loop_polls_long : ∃ l, SystemLoop.Reached .plain tapIface System.Steady l ∧
    l.phase = .select ∧ l.sys.udp.ev.alwaysEventList ≠ [] ∧ ∀ now,
      loopWait l.sys.udp.ev now = .dont ∨ loopWait l.sys.udp.ev now = .upTo ⟨0, 0⟩ := by
  obtain ⟨l, hl, hphase, hwrite, -, hspace⟩ := exists_longAnswer
  obtain ⟨-, hpolls⟩ := loop_polls Table.Rebalance.lawful_plain hl
    (fun a c hc _ => hspace a c hc) hphase
  exact ⟨l, hl, hphase, hwrite, hpolls hwrite⟩

/-! ## Progress -/

end Ptrtd.Wire
