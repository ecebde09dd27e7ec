import Ptrtd.Library.IntExpr
import Ptrtd.Model.EventLoop
import Ptrtd.Verification.Session.Steps

/-! # When time events run

`event_loop` runs its first time event when `select` has timed out. The timeout is that event's
remaining time, unless an always event is pending. -/

namespace Ptrtd

variable {ev : EventLists} {now after : Timeval} {sel : ℤ} {e : Event}

/-- A point in time, or a duration, in microseconds. -/
def Timeval.micros (t : Timeval) : ℤ := t.sec * 1000000 + t.usec

/-- `select` returns zero only when its timeout is over, and the clock never goes back. -/
structure SelectSpec (w : LoopWait) (now : Timeval) (sel : ℤ) (after : Timeval) : Prop where
  mono : now.micros ≤ after.micros
  timeout : sel = 0 → ∀ t, w = .upTo t → now.micros + t.micros ≤ after.micros

/-- The time event that the iteration runs is due, but for the rounding. -/
def FiresInTime (ev : EventLists) (now : Timeval) (sel : ℤ) (after : Timeval) : Prop :=
  ∀ e, loopTimeEvent ev now sel = some e → e.time.micros ≤ after.micros + 2000

/-- The first time event is due, or no always event is pending and the remaining time fits
into an `int`. -/
def Punctual (ev : EventLists) (now : Timeval) : Prop :=
  ∀ e, ev.timeEventList.head? = some e → e.time.micros ≤ now.micros + 2000 ∨
    ev.alwaysEventList = [] ∧ e.time.micros < now.micros + 2147483648500

/-! ## Milliseconds -/

theorem intOfLong_eq {x : ℤ} (h : -2 ^ 31 ≤ x) (h' : x < 2 ^ 31) : intOfLong x = x := by
  rw [intOfLong, BitVec.toInt_ofInt, Int.bmod_def]
  split <;> omega

theorem intOfLong_lt (x : ℤ) : -2 ^ 31 ≤ intOfLong x ∧ intOfLong x < 2 ^ 31 := by
  have hlt := (BitVec.ofInt 32 x).toInt_lt
  have hle := (BitVec.ofInt 32 x).le_toInt
  exact ⟨hle, hlt⟩

theorem timeAgo_eq (now t : Timeval) :
    timeAgo now t = (now.micros - t.micros + 500).tdiv 1000 := by
  rw [timeAgo, timeDiff, Timeval.micros, Timeval.micros]
  congr 1
  ring

/-- Division that rounds towards zero. -/
theorem tdiv_of_nonneg {x : ℤ} (h : 0 ≤ x) : x.tdiv 1000 = x / 1000 :=
  Int.tdiv_eq_ediv_of_nonneg h

/-- The timeout in microseconds. -/
theorem micros_of_millis {d : ℤ} (h : 0 ≤ d) :
    (⟨d.tdiv 1000, d.tmod 1000 * 1000⟩ : Timeval).micros = d * 1000 := by
  have hmod : d.tmod 1000 = d % 1000 := Int.tmod_eq_emod_of_nonneg h
  simp only [Timeval.micros, hmod, tdiv_of_nonneg h]
  omega

/-- The time that remains until an event, as an integer. -/
def millisLeft (now : Timeval) (e : Event) : ℤ := -(now.micros - e.time.micros + 500).tdiv 1000

theorem timeLeft_eq (h : -2 ^ 31 < millisLeft now e) (h' : millisLeft now e < 2 ^ 31) :
    timeLeft now e = millisLeft now e := by
  rw [timeLeft, timeAgo_eq]
  rw [millisLeft] at h h' ⊢
  have hinner : intOfLong ((now.micros - e.time.micros + 500).tdiv 1000) =
      (now.micros - e.time.micros + 500).tdiv 1000 := intOfLong_eq (by omega) (by omega)
  rw [hinner]
  exact intOfLong_eq (by omega) (by omega)

/-- An event that is not due has at least a millisecond left. -/
theorem millisLeft_bounds (h : now.micros + 1500 ≤ e.time.micros) :
    e.time.micros - 1500 < now.micros + millisLeft now e * 1000 ∧
      now.micros + millisLeft now e * 1000 ≤ e.time.micros - 500 ∧ 0 < millisLeft now e := by
  rw [millisLeft, IntExpr.tdiv_of_nonpos (by omega)]
  omega

/-- Conversion changes a number by a multiple of `2 ^ 32`. -/
theorem intOfLong_shift (x : ℤ) : ∃ m, intOfLong x = x - 2 ^ 32 * m := by
  rw [intOfLong, BitVec.toInt_ofInt, Int.bmod_def]
  split
  · exact ⟨x / 2 ^ 32, by omega⟩
  · exact ⟨x / 2 ^ 32 + 1, by omega⟩

theorem timeLeft_shift (now : Timeval) (e : Event) :
    ∃ m, timeLeft now e = millisLeft now e - 2 ^ 32 * m := by
  rw [timeLeft, timeAgo_eq, millisLeft]
  obtain ⟨m, hm⟩ := intOfLong_shift ((now.micros - e.time.micros + 500).tdiv 1000)
  obtain ⟨k, hk⟩ := intOfLong_shift (-intOfLong ((now.micros - e.time.micros + 500).tdiv 1000))
  exact ⟨k - m, by rw [hk, hm]; ring⟩

/-- A timeout that does not fit into an `int` comes out too short. -/
theorem timeLeft_le (h : 2 ^ 31 ≤ millisLeft now e) :
    timeLeft now e ≤ millisLeft now e - 2 ^ 32 := by
  obtain ⟨m, hm⟩ := timeLeft_shift now e
  have hlt : timeLeft now e < 2 ^ 31 := (intOfLong_lt _).2
  omega

/-! ## The iteration -/

theorem Punctual.firesInTime (h : Punctual ev now)
    (hsel : SelectSpec (loopWait ev now) now sel after) : FiresInTime ev now sel after := by
  intro e hfire
  have hmono := hsel.mono
  rw [loopTimeEvent] at hfire
  cases hlist : ev.timeEventList with
  | nil =>
      rw [hlist] at hfire
      cases hfire
  | cons x rest =>
      rw [hlist] at hfire
      dsimp only at hfire
      split at hfire
      · next hret =>
          obtain rfl := Option.some.inj hfire
          rcases h x (by rw [hlist]; rfl) with hdue | ⟨halways, hfits⟩
          · omega
          · by_cases hdue : x.time.micros ≤ now.micros + 2000
            · omega
            · have hfar : now.micros + 1500 ≤ x.time.micros := by omega
              obtain ⟨hnear, hbefore, hpos⟩ := millisLeft_bounds hfar
              have hleft : timeLeft now x = millisLeft now x := timeLeft_eq (by omega) (by omega)
              have hwait : loopWait ev now =
                  .upTo ⟨(millisLeft now x).tdiv 1000, (millisLeft now x).tmod 1000 * 1000⟩ := by
                rw [loopWait, hlist]
                dsimp only
                rw [hleft, if_pos hpos, if_neg (by simp [halways])]
              rw [loopRet, hwait] at hret
              have hover := hsel.timeout hret _ hwait
              rw [micros_of_millis (by omega)] at hover
              omega
      · cases hfire

/-- Whatever `select` returns, the iteration runs no time event early, if and only if the first
one is due or its whole remaining time is waited for. -/
theorem firesInTime_iff_punctual (ev : EventLists) (now : Timeval) :
    (∀ sel after, SelectSpec (loopWait ev now) now sel after → FiresInTime ev now sel after) ↔
      Punctual ev now := by
  refine ⟨fun h e hhead => ?_, fun h sel after hsel => h.firesInTime hsel⟩
  by_cases hdue : e.time.micros ≤ now.micros + 2000
  · exact .inl hdue
  · refine .inr ?_
    obtain ⟨rest, hlist⟩ : ∃ rest, ev.timeEventList = e :: rest :=
      List.head?_eq_some_iff.mp hhead
    -- `select` times out as early as it may
    have hearly : ∀ t : Timeval, 0 ≤ t.micros → (∀ u, loopWait ev now = .upTo u → u = t) →
        e.time.micros ≤ now.micros + t.micros + 2000 := by
      intro t hpos hwait
      have hadd : (⟨now.sec + t.sec, now.usec + t.usec⟩ : Timeval).micros =
          now.micros + t.micros := by
        simp only [Timeval.micros]
        ring
      have hsel : SelectSpec (loopWait ev now) now 0 ⟨now.sec + t.sec, now.usec + t.usec⟩ := by
        refine ⟨by omega, fun _ u hu => ?_⟩
        rw [hwait u hu, hadd]
      have hret : loopRet ev now 0 = 0 := by
        rw [loopRet]
        split <;> rfl
      have hfire : loopTimeEvent ev now 0 = some e := by
        rw [loopTimeEvent, hlist]
        dsimp only
        rw [if_pos hret]
      rw [← hadd]
      exact h 0 _ hsel e hfire
    have hwait : loopWait ev now = if timeLeft now e > 0 then
        .upTo ⟨(if ev.alwaysEventList ≠ [] then 0 else timeLeft now e).tdiv 1000,
          (if ev.alwaysEventList ≠ [] then 0 else timeLeft now e).tmod 1000 * 1000⟩
        else .dont := by
      rw [loopWait, hlist]
    by_cases hpos : timeLeft now e > 0
    · rw [if_pos hpos] at hwait
      by_cases halways : ev.alwaysEventList = []
      · refine ⟨halways, ?_⟩
        by_contra hfar
        have hlate : now.micros + 1500 ≤ e.time.micros := by omega
        obtain ⟨hnear, hbefore, -⟩ := millisLeft_bounds hlate
        have hle : timeLeft now e ≤ millisLeft now e - 2 ^ 32 := timeLeft_le (by omega)
        have ht := hearly ⟨(timeLeft now e).tdiv 1000, (timeLeft now e).tmod 1000 * 1000⟩
          (by rw [micros_of_millis (by omega)]; omega) fun u hu => by
            rw [hwait, if_neg (by simp [halways])] at hu
            exact (LoopWait.upTo.inj hu).symm
        rw [micros_of_millis (by omega)] at ht
        omega
      · have ht := hearly ⟨0, 0⟩ (by decide) fun u hu => by
          rw [hwait, if_pos halways] at hu
          exact (LoopWait.upTo.inj hu).symm
        have hzero : (⟨0, 0⟩ : Timeval).micros = 0 := rfl
        omega
    · rw [if_neg hpos] at hwait
      have ht := hearly ⟨0, 0⟩ (by decide) fun u hu => by rw [hwait] at hu; cases hu
      have hzero : (⟨0, 0⟩ : Timeval).micros = 0 := rfl
      omega

/-- The retransmission timer of a connection runs 500 ms early while another connection has more
to send. -/
theorem fires_early : ∃ c e, Reached Transition.Always c ∧
    SelectSpec (loopWait c.ev ⟨10, 0⟩) ⟨10, 0⟩ 0 ⟨10, 0⟩ ∧
      loopTimeEvent c.ev ⟨10, 0⟩ 0 = some e ∧ e.func = .tcpTimeout ∧ e.data = .tcb c.self ∧
        e.time = ⟨10, 500000⟩ ∧ ¬FiresInTime c.ev ⟨10, 0⟩ 0 ⟨10, 0⟩ := by
  have hexec : (execFrom Transition.Always .tcpMapCb 0 (clientSyn 8192) (.connected 5)
      (handshake ++ [.fdEvent 1 (.read (.data [7])), .alwaysEvent 2 ⟨10, 0⟩,
        .others ⟨[⟨3, .tcpTimeout, .tcb 0, .time ⟨10, 500000⟩⟩],
          [⟨1, .handleFdCanRead, .tcpMap 0, .fd 5 false⟩], [⟨4, .doTcbWrite, .tcb 9, .always⟩],
          5⟩])).any
      (fun c => loopWait c.ev ⟨10, 0⟩ = .upTo ⟨0, 0⟩ ∧
        (loopTimeEvent c.ev ⟨10, 0⟩ 0).any fun e =>
          e.func = .tcpTimeout ∧ e.data = .tcb c.self ∧ e.time = ⟨10, 500000⟩) = true := by
    decide +kernel
  obtain ⟨c, hreach, hc⟩ := reached_of_exec hexec
  obtain ⟨hwait, hany⟩ := of_decide_eq_true hc
  obtain ⟨e, hfire, he⟩ := (Option.any_eq_true _ _).mp hany
  obtain ⟨hfunc, hdata, htime⟩ := of_decide_eq_true he
  refine ⟨c, e, hreach, ⟨le_rfl, fun _ t ht => ?_⟩, hfire, hfunc, hdata, htime, fun h => ?_⟩
  · rw [hwait] at ht
    rw [← LoopWait.upTo.inj ht]
    decide
  · have hlate := h e hfire
    rw [htime] at hlate
    exact absurd hlate (by decide)

end Ptrtd
