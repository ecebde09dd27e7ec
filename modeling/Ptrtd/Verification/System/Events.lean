import Ptrtd.Verification.Relay.Ownership
import Ptrtd.Verification.Relay.Sockets

/-! # What stands behind an event of a connection

An event that runs calls a function with a pointer. The block or the map it points to must still
be there, and must know the event. -/

namespace Ptrtd

open Registry

variable {c : Conn} {e : Event}

/-- The peer acknowledges only what was sent, and no socket callback is blocked. -/
def Cooperative (c : Conn) (i : Input) : Prop := SentOnly c i ∧ Unblocked c i

instance (c : Conn) (i : Input) : Decidable (Cooperative c i) :=
  inferInstanceAs (Decidable (_ ∧ _))

/-- The events of a connection call functions of the block or the map that they point to, and are
the ones it has stored. Socket events wait on the socket of the map. -/
structure Backs (c : Conn) : Prop where
  time : ∀ e ∈ c.ev.timeEventList, c.owns e = true → c.live = true ∧ e.data = .tcb c.self ∧
    c.tcb.eTimeout = some e.addr ∧ (e.func = .tcpTimeout ∨ e.func = .tcpRemove)
  fd : ∀ e ∈ c.ev.fdEventList, c.owns e = true → c.live = true ∧ e.data = .tcpMap c.self ∧
    ∃ m, c.map = some m ∧
      (m.eFdRead = some e.addr ∧ e.kind = .fd m.fd false ∧ e.func = .handleFdCanRead ∨
        m.eFdWrite = some e.addr ∧ e.kind = .fd m.fd true ∧
          (e.func = .handleFdCanWrite ∨ e.func = .handleFdDidConnect))
  always : ∀ e ∈ c.ev.alwaysEventList, c.owns e = true → c.live = true ∧ e.data = .tcb c.self ∧
    c.tcb.eTcbSend = some e.addr ∧ e.func = .doTcbWrite

/-- What others do changes nothing in it. -/
theorem Backs.others {ev : EventLists} (h : Backs c) (hev : othersChanged c ev) :
    Backs { c with ev := ev } := by
  have hmem : ∀ {l l' : List Event}, l'.filter c.owns = l.filter c.owns → ∀ {e}, e ∈ l' →
      c.owns e = true → e ∈ l := by
    intro l l' hsame e he hown
    have hin : e ∈ l'.filter c.owns := List.mem_filter.mpr ⟨he, hown⟩
    rw [hsame] at hin
    exact (List.mem_filter.mp hin).1
  obtain ⟨-, htime, hfd, halways⟩ := hev
  exact ⟨fun e he hown => h.time e (hmem htime he hown) hown,
    fun e he hown => h.fd e (hmem hfd he hown) hown,
    fun e he hown => h.always e (hmem halways he hown) hown⟩

/-- The function that a timer of a live block calls. -/
theorem Rested.func (h : Rested c) (htimer : TimerOk False c) (hlive : c.live = true)
    (he : e ∈ c.timers) : e.func = .tcpTimeout ∨ e.func = .tcpRemove := by
  have hnone : Unarmed c → e.func = .tcpTimeout ∨ e.func = .tcpRemove := fun hun => by
    rw [hun.timers] at he
    cases he
  rcases h.known with hs | hs | hs | hs
  · exact hnone (htimer.syn hlive hs)
  · exact hnone (h.fin hs)
  · obtain ⟨x, hlist, -, hfunc, -⟩ := h.wait hs
    rw [hlist] at he
    rw [List.mem_singleton.mp he]
    exact .inr hfunc
  · rcases htimer.guarded hlive hs with ⟨hun, -⟩ | ⟨x, hlist, -, hfunc, -⟩
    · exact hnone hun
    · rw [hlist] at he
      rw [List.mem_singleton.mp he]
      exact .inl hfunc

/-- The timers and the buffers of a connection, in every run with ACK numbers that were sent. -/
theorem timers_of_sentOnly {ok : Conn → Input → Prop} (hok : ∀ c i, ok c i → SentOnly c i)
    (h : Reached ok c) :
    TimerOk False c ∧ Located c ∧ (c.live = true → InSpace c → Rested c) ∧ Cleared c := by
  have hinv : Queued c ∧ AcceptOnce c ∧ TimerOk False c ∧ Located c ∧
      (c.live = true → InSpace c → Rested c) ∧ Cleared c := by
    apply h.run_invariant
    · exact fun _ _ hs => ⟨.of_start hs, .of_start hs, .of_start hs, .of_start hs,
        fun hlive _ => .of_start hs hlive, .of_start hs⟩
    · intro c i c' hwf ⟨hqueue, honce, htimer, hloc, hrest, hclear⟩ hi hstep
      have hsent := hok c i hi
      obtain ⟨hlive, hstepped⟩ := step_cases hstep
      have hrested := hrest hlive hsent.inSpace
      obtain ⟨b, w, u, n, hw, hkept⟩ := hloc hlive
      refine ⟨hqueue.step hstep, honce.step hwf hstep,
        htimer.stepped hwf hlive False.elim hstepped,
        hloc.stepped hwf hqueue honce htimer hsent hlive hstepped, fun hlive' hspace' => ?_,
        .step hrested htimer hqueue hlive hstep⟩
      exact hrested.stepped hwf htimer hw hkept hsent.inSpace hlive hstepped hlive' hspace'
  exact hinv.2.2

theorem Backs.of_reached (h : Reached Cooperative c) (hspace : c.live = true → InSpace c) :
    Backs c := by
  obtain ⟨htimer, -, hrest, hclear⟩ := timers_of_sentOnly (fun _ _ hok => hok.1) h
  have hreg := Registered.of_unblocked (fun _ _ hok => hok.2) h
  have hqueue := Queued.of_reached h
  have hattached := Attached.of_reached h
  obtain ⟨fd, hsocket⟩ := HasSocket.exists_of_reached h
  refine ⟨fun e he hown => ?_, fun e he hown => ?_, fun e he hown => ?_⟩
  · have hmem : e ∈ c.timers := List.mem_filter.mpr ⟨he, hown⟩
    have hlive : c.live = true := by
      by_contra hdead
      rw [hclear (Bool.eq_false_iff.mpr hdead)] at hmem
      cases hmem
    have hrested := hrest hlive (hspace hlive)
    obtain ⟨hpoints, hdata⟩ := hrested.points htimer hlive
    exact ⟨hlive, hdata e hmem, hpoints.eq_some he hown, hrested.func htimer hlive hmem⟩
  · have hread : c.readPtr = some e.addr → ∃ m, c.map = some m ∧ m.eFdRead = some e.addr :=
      fun hptr => Option.bind_eq_some_iff.mp hptr
    have hwrite : c.writePtr = some e.addr → ∃ m, c.map = some m ∧ m.eFdWrite = some e.addr :=
      fun hptr => Option.bind_eq_some_iff.mp hptr
    have hlive : ∀ m, c.map = some m → c.live = true := fun m hm =>
      (hattached.mp (by rw [hm]; rfl)).1
    obtain ⟨hr, hw⟩ := hreg.pointed he hown
    obtain ⟨w, hkind⟩ := hsocket.events e he hown
    obtain ⟨hdata, ⟨hfunc, fd', hfd⟩ | ⟨hfunc, fd', hfd⟩⟩ := hreg.shape e he hown
    · obtain ⟨m, hm, hptr⟩ := hread (hr hfunc)
      refine ⟨hlive m hm, hdata, m, hm, .inl ⟨hptr, ?_, hfunc⟩⟩
      rw [hkind] at hfd ⊢
      cases hfd
      rw [hsocket.map m hm]
    · have hne : e.func ≠ .handleFdCanRead := by
        rcases hfunc with hf | ⟨hf, -⟩ <;> rw [hf] <;> decide
      obtain ⟨m, hm, hptr⟩ := hwrite (hw hne)
      refine ⟨hlive m hm, hdata, m, hm, .inr ⟨hptr, ?_, ?_⟩⟩
      · rw [hkind] at hfd ⊢
        cases hfd
        rw [hsocket.map m hm]
      · rcases hfunc with hf | ⟨hf, -⟩
        · exact .inr hf
        · exact .inl hf
  · have hpoints := hqueue.points
    have hevent := hqueue.event e he hown
    have hlive : c.live = true := by
      by_contra hdead
      rw [if_neg hdead] at hpoints
      exact absurd hown (List.filter_eq_nil_iff.mp (points_none.mp hpoints) e he)
    rw [if_pos hlive] at hpoints
    refine ⟨hlive, ?_, hpoints.eq_some he hown, ?_⟩
    · rw [hevent]
      rfl
    · rw [hevent]
      rfl

end Ptrtd
