import Ptrtd.Verification.Send.Outlet

/-! # The send buffer and the sequence numbers

Positions count from `iss` and do not wrap: the SYN is at 0, the bytes written from 1 on,
and the FIN after the last of them. `outbuf` holds the bytes from a position that is not
beyond `snd_una`, so that going back never asks for a byte that has been freed. -/

namespace Ptrtd

namespace Outlet

variable {o o' : Outlet} {u n k : ℕ} {ack : Uint} {s : Segment}

/-- `outbuf` holds the last `used` bytes written, and `w_seq` stands after them. -/
structure Buffered (o : Outlet) : Prop where
  ok : o.outbuf.Ok
  size : o.outbuf.size = 16384
  wSeq : SeqNum.At o.iss o.outbuf.wSeq (1 + o.written.length)
  content : o.outbuf.content = o.written.drop (o.written.length - o.outbuf.used)

theorem Buffered.used_le (h : o.Buffered) : o.outbuf.used ≤ o.written.length := by
  have hlen := congrArg List.length h.content
  rw [Buffer.content_length h.ok, List.length_drop] at hlen
  omega

theorem Buffered.used_le_size (h : o.Buffered) : o.outbuf.used ≤ 16384 := h.size ▸ h.ok.used_le

theorem Buffered.of_eq (h : o.Buffered) (hiss : o'.iss = o.iss) (hbuf : o'.outbuf = o.outbuf)
    (hwritten : o'.written = o.written) : o'.Buffered := by
  obtain ⟨hok, hsize, hseq, hcontent⟩ := h
  rw [← hbuf] at hok hsize hseq hcontent
  rw [← hwritten] at hseq hcontent
  rw [← hiss] at hseq
  exact ⟨hok, hsize, hseq, hcontent⟩

/-- Writing appends to the buffer as much as to the stream. -/
theorem Buffered.write {d : List Uchar} {r : Ringbuf} (h : o.Buffered)
    (hw : rbWrite o.outbuf d = some (r, n)) :
    Buffered { o with outbuf := r, written := o.written ++ d.take n } ∧
      r.used = o.outbuf.used + n ∧ (d.take n).length = n := by
  obtain ⟨r', n', hw', hspec⟩ := Buffer.rbWrite_spec h.ok d
  obtain ⟨rfl, rfl⟩ := Prod.mk.inj (Option.some.inj (hw.symm.trans hw'))
  have hlen : (d.take n).length = n := by
    have := hspec.stored
    rw [List.length_take]
    omega
  have hle := h.used_le
  refine ⟨⟨hspec.ok, hspec.size.trans h.size, ?_, ?_⟩, hspec.used, hlen⟩
  · dsimp only
    rw [hspec.wSeq, List.length_append, hlen, ← Nat.add_assoc]
    exact h.wSeq.add n
  · dsimp only
    rw [hspec.content, h.content, hspec.used, List.length_append, hlen,
      List.drop_append_of_le_length (by omega)]
    congr 2
    omega

/-- Freeing the buffer up to a position that it still holds. -/
theorem Buffered.advance (h : o.Buffered) (hk : SeqNum.At o.iss ack k)
    (hle : k ≤ 1 + o.written.length) (hheld : 1 + o.written.length ≤ k + o.outbuf.used) :
    Buffered { o with outbuf := rbAdvance o.outbuf ack } ∧
      (rbAdvance o.outbuf ack).used = 1 + o.written.length - k := by
  have hsize := h.used_le_size
  have hused := h.used_le
  have hdist : (o.outbuf.wSeq - ack).toInt = (1 + o.written.length - k : ℕ) := by
    rw [h.wSeq.toInt_sub hk (by omega) (by push_cast; omega)]
    omega
  have hspec := Buffer.rbAdvance_spec h.ok hdist (by omega)
  refine ⟨⟨hspec.ok, hspec.size.trans h.size, ?_, ?_⟩, hspec.used⟩
  · exact hspec.wSeq.symm ▸ h.wSeq
  · dsimp only
    rw [hspec.content, h.content, hspec.used, List.drop_drop]
    congr 1
    omega

/-- The distance from `snd_nxt` to the end of the buffer. -/
theorem Buffered.avail (h : o.Buffered) {x : Uint} (hx : SeqNum.At o.iss x n)
    (hheld : 1 + o.written.length ≤ n + o.outbuf.used) (hfar : n < 2 ^ 31 + o.written.length) :
    (o.outbuf.wSeq - x).toInt = (1 + o.written.length : ℤ) - n ∧
      rbAvail o.outbuf x = (1 + o.written.length : ℤ) - n := by
  have hsize := h.used_le_size
  have hdist : (o.outbuf.wSeq - x).toInt = (1 + o.written.length : ℤ) - n := by
    rw [h.wSeq.toInt_sub hx (by push_cast; omega) (by push_cast; omega)]
    push_cast
    rfl
  exact ⟨hdist, Buffer.rbAvail_eq hdist (by omega)⟩

/-! ## The invariant -/

/-- The highest position that may have been sent: the FIN follows the stream once we close. -/
def limit (o : Outlet) : ℕ := o.written.length + (if o.state = .established then 1 else 2)

/-- A connection past the handshake: `snd_una` is at position `u` and `snd_nxt` at `n`. -/
structure Sending (o : Outlet) (u n : ℕ) : Prop where
  buffered : o.Buffered
  una : o.una.toNat = o.iss.toNat + u
  nxt : SeqNum.At o.iss o.nxt n
  le : u ≤ n
  sent : n ≤ o.high
  pos : 1 ≤ u
  held : 1 + o.written.length ≤ u + o.outbuf.used
  high_le : o.high ≤ max u o.limit
  una_le : u ≤ max (2 ^ 31 - 1) (o.written.length + 2)

/-- A connection in `SYN_RECVD`, where `snd_nxt` counts the SYN/ACKs. -/
structure Opening (o : Outlet) (u n : ℕ) : Prop where
  buffered : o.Buffered
  una : o.una.toNat = o.iss.toNat + u
  nxt : SeqNum.At o.iss o.nxt n
  le : u ≤ n
  sent : n = o.high
  written : o.written = []

theorem limit_le (o : Outlet) : o.limit ≤ o.written.length + 2 := by
  rw [limit]
  split <;> omega

theorem limit_of_closing (h : isClosingState o.state = true) :
    o.limit = o.written.length + 2 := by
  rw [limit, if_neg (ne_of_isClosingState h).2.1]

theorem Sending.avail (h : o.Sending u n) :
    (o.outbuf.wSeq - o.nxt).toInt = (1 + o.written.length : ℤ) - n ∧
      rbAvail o.outbuf o.nxt = (1 + o.written.length : ℤ) - n := by
  have hheld := h.held
  have hle := h.le
  have hsent := h.sent
  have hhigh := h.high_le
  have hlimit := o.limit_le
  have huna := h.una_le
  exact h.buffered.avail h.nxt (by omega) (by omega)

/-- The words are equal only if the positions are. -/
theorem Sending.eq_of_una_eq (h : o.Sending u n) (heq : o.una = o.nxt) : n = u := by
  have hun : SeqNum.At o.iss o.nxt u := heq ▸ SeqNum.at_of_toNat_eq h.una
  have hsent := h.sent
  have hhigh := h.high_le
  have hheld := h.held
  have hlimit := o.limit_le
  have hused := h.buffered.used_le_size
  have hle := h.le
  exact h.nxt.inj hun (by omega) (by omega)

/-- What the send side depends on. -/
theorem Sending.of_eq (h : o.Sending u n) (hiss : o'.iss = o.iss) (huna : o'.una = o.una)
    (hnxt : o'.nxt = o.nxt) (hbuf : o'.outbuf = o.outbuf) (hwritten : o'.written = o.written)
    (hhigh : o'.high = o.high) (hlimit : o.limit ≤ o'.limit) : o'.Sending u n := by
  refine ⟨h.buffered.of_eq hiss hbuf hwritten, ?_, ?_, h.le, ?_, h.pos, ?_, ?_, ?_⟩
  · rw [huna, hiss, h.una]
  · rw [hnxt, hiss]
    exact h.nxt
  · rw [hhigh]
    exact h.sent
  · rw [hwritten, hbuf]
    exact h.held
  · rw [hhigh]
    have := h.high_le
    omega
  · rw [hwritten]
    exact h.una_le

theorem limit_mono (hwritten : o'.written = o.written)
    (hstate : o'.state = .established → o.state = .established) : o.limit ≤ o'.limit := by
  rw [limit, limit, hwritten]
  split
  · split <;> omega
  · next hne => rw [if_neg fun hs => hne (hstate hs)]

theorem Opening.of_eq (h : o.Opening u n) (hiss : o'.iss = o.iss) (huna : o'.una = o.una)
    (hnxt : o'.nxt = o.nxt) (hbuf : o'.outbuf = o.outbuf) (hwritten : o'.written = o.written)
    (hhigh : o'.high = o.high) : o'.Opening u n := by
  refine ⟨h.buffered.of_eq hiss hbuf hwritten, ?_, ?_, h.le, h.sent.trans hhigh.symm,
    hwritten.trans h.written⟩
  · rw [huna, hiss, h.una]
  · rw [hnxt, hiss]
    exact h.nxt

/-! ## Steps past the handshake -/

/-- A new ACK number that was sent. The comparisons are unsigned, and `snd_nxt` may have
wrapped; either way it is not left behind `snd_una`. -/
theorem Sending.advance (h : o.Sending u n) (hnew : o.una < ack)
    (hack : ack.toNat ≤ o.iss.toNat + o.high) :
    ∃ n', (o.advance ack).Sending (ack.toNat - o.iss.toNat) n' := by
  obtain ⟨k, hk⟩ : ∃ k, k = ack.toNat - o.iss.toNat := ⟨_, rfl⟩
  rw [← hk]
  have huna := h.una
  rw [BitVec.lt_def] at hnew
  have hword : ack.toNat = o.iss.toNat + k := by omega
  have hat : SeqNum.At o.iss ack k := SeqNum.at_of_toNat_eq hword
  have hpos := h.pos
  have hle := h.le
  have hsent := h.sent
  have hhigh := h.high_le
  have hheld := h.held
  have hunale := h.una_le
  have hlimit := o.limit_le
  have hbuf : (o.advance ack).Buffered ∧
      1 + o.written.length ≤ k + (o.advance ack).outbuf.used := by
    by_cases hest : o.state = .established
    · have hbound : k ≤ 1 + o.written.length := by
        rw [limit, if_pos hest] at hhigh
        omega
      obtain ⟨hfreed, hused⟩ := h.buffered.advance hat hbound (by omega)
      have hout : (o.advance ack).outbuf = rbAdvance o.outbuf ack := if_pos hest
      refine ⟨hfreed.of_eq rfl hout rfl, ?_⟩
      rw [hout, hused]
      omega
    · have hout : (o.advance ack).outbuf = o.outbuf := if_neg hest
      refine ⟨h.buffered.of_eq rfl hout rfl, ?_⟩
      rw [hout]
      omega
  obtain ⟨n', hn', hkn, hnle⟩ : ∃ n', SeqNum.At o.iss (o.advance ack).nxt n' ∧ k ≤ n' ∧
      n' ≤ o.high := by
    by_cases hbeyond : ack > o.nxt
    · exact ⟨k, by simpa [Outlet.advance, hbeyond] using hat, le_rfl, by omega⟩
    · refine ⟨n, by simpa [Outlet.advance, hbeyond] using h.nxt, ?_, hsent⟩
      have hword' := BitVec.le_def.mp (BitVec.not_lt.mp hbeyond)
      have hnxt : o.nxt.toNat ≤ o.iss.toNat + n := by
        have := h.nxt
        rw [SeqNum.At] at this
        rw [this, BitVec.toNat_add, BitVec.toNat_ofNat, Nat.add_mod_mod]
        exact Nat.mod_le _ _
      omega
  have hsame : (o.advance ack).limit = o.limit := rfl
  refine ⟨n', hbuf.1, hword, hn', hkn, hnle, by omega, hbuf.2, ?_, ?_⟩
  · rw [hsame]
    exact hhigh.trans (by omega)
  · change k ≤ max (2 ^ 31 - 1) (o.written.length + 2)
    omega

theorem Sending.timeout (h : o.Sending u n) : Sending { o with nxt := o.una } u u :=
  ⟨h.buffered.of_eq rfl rfl rfl, h.una, SeqNum.at_of_toNat_eq h.una, le_rfl,
    h.le.trans h.sent, h.pos, h.held, h.high_le, h.una_le⟩

theorem Sending.write {d : List Uchar} {r : Ringbuf} {m : ℕ} (h : o.Sending u n)
    (hw : rbWrite o.outbuf d = some (r, m)) :
    Sending { o with outbuf := r, written := o.written ++ d.take m } u n := by
  obtain ⟨hbuf, hused, hlen⟩ := h.buffered.write hw
  have hheld := h.held
  have hhigh := h.high_le
  have huna := h.una_le
  refine ⟨hbuf, h.una, h.nxt, h.le, h.sent, h.pos, ?_, ?_, ?_⟩
  · simp only [List.length_append, hlen, hused]
    omega
  · simp only [limit, List.length_append, hlen] at hhigh ⊢
    omega
  · simp only [List.length_append, hlen]
    omega

/-- A position from 1 on, counted from the first byte of the stream. -/
theorem at_stream {x : Uint} (h : SeqNum.At o.iss x n) (hn : 1 ≤ n) :
    x = o.iss + 1 + BitVec.ofNat 32 (n - 1) := by
  obtain ⟨k, rfl⟩ := Nat.exists_eq_add_of_le hn
  rw [Nat.add_sub_cancel_left]
  exact SeqNum.At.rebase h

/-- The data of a segment is the stream from `snd_nxt` on. -/
theorem Sending.chunk (h : o.Sending u n) {data : List Uchar} (hdata : o.Chunk data) :
    data = (o.written.drop (n - 1)).take data.length ∧
      n + data.length ≤ max n (1 + o.written.length) := by
  rcases hdata with rfl | ⟨hpos, m, hread⟩
  · exact ⟨by simp, by simp⟩
  · obtain ⟨hdist, havail⟩ := h.avail
    have hheld := h.held
    have hle := h.le
    have hpos' := h.pos
    rw [havail] at hpos
    have hback : (o.outbuf.wSeq - o.nxt).toInt = (1 + o.written.length - n : ℕ) := by omega
    rw [Buffer.rbRead_spec h.buffered.ok hback (by omega), h.buffered.content, List.drop_drop]
      at hread
    have hdrop : o.written.length - o.outbuf.used + (o.outbuf.used - (1 + o.written.length - n)) =
        n - 1 := by
      have := h.buffered.used_le
      omega
    rw [hdrop] at hread
    have hd := Option.some.inj hread
    refine ⟨?_, ?_⟩
    · rw [← hd, List.length_take, ← List.take_eq_take_min]
    · rw [← hd, List.length_take, List.length_drop]
      omega

/-- A FIN follows the last byte of the stream. -/
theorem Sending.fin (h : o.Sending u n) {data : List Uchar} (hdata : o.Chunk data)
    (hfin : rbAvail o.outbuf (o.nxt + BitVec.ofNat 32 data.length) = 0) :
    n + data.length = 1 + o.written.length := by
  obtain ⟨-, hlen⟩ := h.chunk hdata
  have hheld := h.held
  have hle := h.le
  have hsent := h.sent
  have hhigh := h.high_le
  have huna := h.una_le
  have hlimit := o.limit_le
  have hend := h.nxt.add data.length
  obtain ⟨-, havail⟩ := h.buffered.avail hend (by omega) (by omega)
  omega

/-- Sending a segment that starts at `snd_nxt`. -/
theorem Sending.emit {len : ℕ} (h : o.Sending u n) (hseq : s.seq = o.nxt) (hspan : s.span = len)
    (hlen : n + len ≤ max n o.limit) :
    Sending { o.emit s with nxt := o.nxt + BitVec.ofNat 32 len } u (n + len) ∧
      (o.emit s).high = max o.high (n + len) := by
  have hend := h.nxt.add len
  have hle := h.le
  have hsent := h.sent
  have hhigh := h.high_le
  have hheld := h.held
  have hused := h.buffered.used_le_size
  have hlimit := o.limit_le
  have hreach : (o.emit s).high = max o.high (n + len) := by
    rw [Outlet.emit, hseq, hspan]
    exact SeqNum.reach_eq_max hend (by push_cast; omega) (by push_cast; omega)
  have hsame : (o.emit s).limit = o.limit := rfl
  refine ⟨⟨h.buffered.of_eq rfl rfl rfl, h.una, hend, by omega, ?_, h.pos, h.held, ?_, h.una_le⟩,
    hreach⟩
  · change n + len ≤ (o.emit s).high
    rw [hreach]
    omega
  · change (o.emit s).high ≤ max u (o.emit s).limit
    rw [hreach, hsame]
    omega

/-! ## Steps in the handshake -/

/-- A new ACK number that was sent, as long as the SYN/ACKs have not used up the space. -/
theorem Opening.advance (h : o.Opening u n) (hsyn : o.state = .synRecvd) (hnew : o.una < ack)
    (hack : ack.toNat ≤ o.iss.toNat + o.high) (hspace : o.iss.toNat + o.high < 2 ^ 32) :
    (o.advance ack).Opening (ack.toNat - o.iss.toNat) n := by
  have huna := h.una
  have hle := h.le
  have hsent := h.sent
  rw [BitVec.lt_def] at hnew
  have hnxt : o.nxt.toNat = o.iss.toNat + n := h.nxt.toNat_eq (by omega)
  have hbeyond : ¬ack > o.nxt := by
    rw [gt_iff_lt, BitVec.lt_def]
    omega
  have hout : (o.advance ack).outbuf = o.outbuf := if_neg (by rw [hsyn]; nofun)
  have hnxt' : (o.advance ack).nxt = o.nxt := if_neg hbeyond
  refine ⟨h.buffered.of_eq rfl hout rfl, ?_, ?_, by omega, hsent, h.written⟩
  · change ack.toNat = o.iss.toNat + (ack.toNat - o.iss.toNat)
    omega
  · rw [hnxt']
    exact h.nxt

/-- Another SYN/ACK takes the next sequence number. -/
theorem Opening.synAck (h : o.Opening u n) (hseq : s.seq = o.nxt) (hspan : s.span = 1) :
    Opening { o.emit s with nxt := o.nxt + 1 } u (n + 1) ∧ (o.emit s).high = o.high + 1 := by
  have hend := h.nxt.succ
  have hle := h.le
  have hsent := h.sent
  have hreach : (o.emit s).high = o.high + 1 := by
    rw [Outlet.emit, hseq, hspan]
    refine (SeqNum.reach_eq_max hend (by push_cast; omega) (by push_cast; omega)).trans ?_
    omega
  refine ⟨⟨h.buffered.of_eq rfl rfl rfl, h.una, hend, by omega, ?_, h.written⟩, hreach⟩
  change n + 1 = (o.emit s).high
  rw [hreach, hsent]

/-- A segment without data or flags that count leaves the positions alone. -/
theorem Opening.emit_empty (h : o.Opening u n) (hseq : s.seq = o.nxt) (hspan : s.span = 0) :
    (o.emit s).high = o.high := by
  have hend := h.nxt.add 0
  have hsent := h.sent
  rw [Outlet.emit, hseq, hspan]
  refine (SeqNum.reach_eq_max hend (by push_cast; omega) (by push_cast; omega)).trans ?_
  omega

/-- The connection is established once every SYN/ACK is acknowledged. -/
theorem Opening.opened (h : o.Opening u n) (heq : o.una = o.nxt) (hpos : 1 ≤ o.high)
    (hspace : o.iss.toNat + o.high < 2 ^ 32) (hsmall : o.high < 2 ^ 31) :
    Sending { o with state := .established } n n := by
  have huna := h.una
  have hsent := h.sent
  have hnxt : o.nxt.toNat = o.iss.toNat + n := h.nxt.toNat_eq (by omega)
  have hun : u = n := by
    rw [heq] at huna
    omega
  subst hun
  refine ⟨h.buffered.of_eq rfl rfl rfl, huna, h.nxt, le_rfl, hsent.le, by omega, ?_, ?_, ?_⟩
  · simp only [h.written, List.length_nil]
    omega
  · exact hsent.ge.trans (le_max_left _ _)
  · dsimp only
    omega

theorem Opening.fresh (isn : Uint) (syn : Segment) : (Outlet.fresh isn syn).Opening 0 0 := by
  have hok : (rbSet (rbNew 16384) (nextIsn isn + 1)).Ok :=
    Buffer.rbSet_ok (Buffer.rbNew_ok (by decide) (by decide)) _
  have hseq : SeqNum.At (nextIsn isn) (nextIsn isn + 1) (1 + 0) := SeqNum.at_zero.add 1
  have huna : (nextIsn isn).toNat = (nextIsn isn).toNat + 0 := (Nat.add_zero _).symm
  exact ⟨⟨hok, rfl, hseq, rfl⟩, huna, SeqNum.at_zero, le_rfl, rfl, rfl⟩

/-! ## The states of an orderly close -/

/-- Past `ESTABLISHED`, where the application writes no more. -/
def Closing (o : Outlet) : Prop := o.state ≠ .synRecvd ∧ o.state ≠ .established

theorem Settled.eq (h : o.Settled s o') : ∃ b st, o' = { o with live := b, state := st } := by
  cases h <;> exact ⟨_, _, rfl⟩

theorem Settled.state (h : o.Settled s o') : (o.state ≠ .synRecvd → o'.state ≠ .synRecvd ∧
    (o'.state = .established → o.state = .established)) ∧ (o.Closing → o'.Closing) := by
  cases h with
  | same => exact ⟨fun hs => ⟨hs, id⟩, id⟩
  | opened _ _ hsyn => exact ⟨fun hs => absurd hsyn hs, fun hs => absurd hsyn hs.1⟩
  | deleted => exact ⟨fun hs => ⟨hs, id⟩, id⟩
  | finAcked => exact ⟨fun _ => ⟨nofun, nofun⟩, fun _ => ⟨nofun, nofun⟩⟩
  | bothClosed => exact ⟨fun _ => ⟨nofun, nofun⟩, fun _ => ⟨nofun, nofun⟩⟩

theorem Moved.eq (h : o.Moved s o') : ∃ st, o' = { o with state := st } := by
  cases h <;> exact ⟨_, rfl⟩

theorem Moved.state (h : o.Moved s o') : (o.state = .synRecvd → o' = o) ∧
    (o.state ≠ .synRecvd → o'.state ≠ .synRecvd ∧
      (o'.state = .established → o.state = .established)) ∧ (o.Closing → o'.Closing) := by
  cases h with
  | same => exact ⟨fun _ => rfl, fun hs => ⟨hs, id⟩, id⟩
  | lastAck _ hst =>
      exact ⟨fun hs => absurd (hst.symm.trans hs) nofun, fun _ => ⟨nofun, nofun⟩,
        fun _ => ⟨nofun, nofun⟩⟩
  | closing _ hst =>
      exact ⟨fun hs => absurd (hst.symm.trans hs) nofun, fun _ => ⟨nofun, nofun⟩,
        fun _ => ⟨nofun, nofun⟩⟩
  | timeWait _ hst =>
      exact ⟨fun hs => absurd (hst.symm.trans hs) nofun, fun _ => ⟨nofun, nofun⟩,
        fun _ => ⟨nofun, nofun⟩⟩

theorem Sending.settled (h : o.Sending u n) (hsyn : o.state ≠ .synRecvd)
    (hs : o.Settled s o') : o'.Sending u n := by
  have hmono : o'.written = o.written → (o'.state = .established → o.state = .established) →
      o.limit ≤ o'.limit := limit_mono
  obtain ⟨hstate, -⟩ := hs.state
  have hest := (hstate hsyn).2
  obtain ⟨b, st, rfl⟩ := hs.eq
  exact h.of_eq rfl rfl rfl rfl rfl rfl (hmono rfl hest)

theorem Sending.moved (h : o.Sending u n) (hsyn : o.state ≠ .synRecvd)
    (hm : o.Moved s o') : o'.Sending u n := by
  have hmono : o'.written = o.written → (o'.state = .established → o.state = .established) →
      o.limit ≤ o'.limit := limit_mono
  obtain ⟨-, hstate, -⟩ := hm.state
  have hest := (hstate hsyn).2
  obtain ⟨st, rfl⟩ := hm.eq
  exact h.of_eq rfl rfl rfl rfl rfl rfl (hmono rfl hest)

/-! ## All steps -/

theorem isFin_of_sendFlags {push fin : Bool} (h : s.flags = sendFlags push fin) :
    s.isFin = fin := by
  cases push <;> cases fin <;> simp [Segment.isFin, sendFlags, h]

theorem span_of_sendFlags {push fin : Bool} (h : s.flags = sendFlags push fin) :
    s.span = s.data.length + (if fin then 1 else 0) := by
  have hsyn : s.isSyn = false := by
    cases push <;> cases fin <;> simp [Segment.isSyn, sendFlags, h]
  simp [Segment.span, hsyn, isFin_of_sendFlags h]

theorem span_of_synAck (hdata : s.data = []) (h : s.flags = 0x12) : s.span = 1 := by
  simp [Segment.span, Segment.isSyn, Segment.isFin, hdata, h]

theorem span_of_reset (hdata : s.data = []) (h : s.flags = 0x14) : s.span = 0 := by
  simp [Segment.span, Segment.isSyn, Segment.isFin, hdata, h]

/-- How far `tcp_send_and_ack` moves `snd_nxt`. -/
theorem advanceNxt_eq (x : Uint) (len : ℕ) (fin : Bool) :
    x + BitVec.ofNat 32 len + (if fin then 1 else 0) =
      x + BitVec.ofNat 32 (len + (if fin then 1 else 0)) := by
  cases fin with
  | false => simp
  | true => simp [BitVec.ofNat_add, BitVec.add_assoc]

theorem Sending.segment (h : o.Sending u n) {fin push : Bool} (hdata : o.Chunk s.data)
    (hseq : s.seq = o.nxt) (hflags : s.flags = sendFlags push fin)
    (hfin : fin = true → rbAvail o.outbuf (o.nxt + BitVec.ofNat 32 s.data.length) = 0 ∧
      isClosingState o.state = true) :
    Sending
        { o.emit s with
          nxt := o.nxt + BitVec.ofNat 32 s.data.length + (if fin then 1 else 0) }
        u (n + (s.data.length + (if fin then 1 else 0))) ∧
      (o.emit s).high = max o.high (n + (s.data.length + (if fin then 1 else 0))) := by
  rw [advanceNxt_eq]
  refine h.emit hseq (span_of_sendFlags hflags) ?_
  obtain ⟨-, hlen⟩ := h.chunk hdata
  cases fin with
  | false =>
      have hlimit : 1 + o.written.length ≤ o.limit := by
        rw [limit]
        split <;> omega
      simp only [Bool.false_eq_true, if_false]
      omega
  | true =>
      obtain ⟨havail, hclosing⟩ := hfin rfl
      have hend := h.fin hdata havail
      have hlimit := limit_of_closing hclosing
      simp only [if_true]
      omega

theorem Sending.abort (h : o.Sending u n) (hseq : s.seq = o.nxt) (hspan : s.span = 0) :
    Sending { o.emit s with live := false } u n := by
  obtain ⟨hemit, hhigh⟩ := h.emit hseq hspan (by omega)
  have hsent := h.sent
  have hnxt : o.nxt + BitVec.ofNat 32 0 = o.nxt := BitVec.add_zero _
  rw [hnxt] at hemit
  exact hemit.of_eq rfl rfl rfl rfl rfl rfl le_rfl

theorem Sending.receive (h : o.Sending u n) (s : Segment) : (o.receive s).Sending u n :=
  h.of_eq rfl rfl rfl rfl rfl rfl le_rfl

theorem Sending.acked (h : o.Sending u n)
    (hack : o.NewAck s → s.ack.toNat ≤ o.iss.toNat + o.high) :
    ∃ u' n', (o.ack s).Sending u' n' := by
  by_cases hnew : o.NewAck s
  · rw [Outlet.ack, if_pos hnew]
    obtain ⟨n', h'⟩ := h.advance hnew.2 (hack hnew)
    exact ⟨_, n', h'⟩
  · rw [Outlet.ack, if_neg hnew]
    exact ⟨u, n, h⟩

theorem ack_state (o : Outlet) (s : Segment) : (o.ack s).state = o.state := by
  rw [Outlet.ack]
  split <;> rfl

theorem Sending.step {i : Input} (h : o.Sending u n) (hsyn : o.state ≠ .synRecvd)
    (hack : ∀ s now, i = .packet s now → s.isRst = false → o.NewAck s →
      s.ack.toNat ≤ o.iss.toNat + o.high)
    (hstep : o.Step i o') : ∃ u' n', o'.Sending u' n' := by
  cases hstep with
  | quiet => exact ⟨u, n, h⟩
  | removed => exact ⟨u, n, h.of_eq rfl rfl rfl rfl rfl rfl le_rfl⟩
  | reset => exact ⟨u, n, h.of_eq rfl rfl rfl rfl rfl rfl le_rfl⟩
  | @packet s now o₁ _ hrst hsettled hmoved =>
      obtain ⟨u', n', h'⟩ := (h.receive s).acked (hack s now rfl hrst)
      have hsyn' : ((o.receive s).ack s).state ≠ .synRecvd := by
        rw [ack_state]
        exact hsyn
      have h₁ := h'.settled hsyn' hsettled
      exact ⟨u', n', h₁.moved (hsettled.state.1 hsyn').1 hmoved⟩
  | timeout => exact ⟨u, u, h.timeout⟩
  | synAck hs => exact absurd hs hsyn
  | segment _ hdata hseq hflags hfin =>
      exact ⟨u, _, (h.segment hdata hseq hflags hfin).1⟩
  | write _ hw => exact ⟨u, n, h.write hw⟩
  | close => exact ⟨u, n, h.of_eq rfl rfl rfl rfl rfl rfl (limit_mono rfl nofun)⟩
  | abort _ hseq hdata hflags => exact ⟨u, n, h.abort hseq (span_of_reset hdata hflags)⟩

/-- A segment in `SYN_RECVD`: the handshake goes on, or it ends with everything acknowledged. -/
theorem Opening.packet {o₁ o₂ : Outlet} (h : o.Opening u n) (hsyn : o.state = .synRecvd)
    (hack : o.NewAck s → s.ack.toNat ≤ o.iss.toNat + o.high)
    (hspace : o.iss.toNat + o.high < 2 ^ 32) (hsettled : ((o.receive s).ack s).Settled s o₁)
    (hmoved : o₁.Moved s o₂) :
    (o₂ = (o.receive s).ack s ∧ o₂.state = .synRecvd ∧ ∃ u', o₂.Opening u' n) ∨
      s.isAck = true ∧ ((o.receive s).ack s).una = ((o.receive s).ack s).nxt ∧
        (∃ u', ((o.receive s).ack s).Opening u' n) ∧
        Moved { (o.receive s).ack s with state := .established } s o₂ := by
  have hstate : ((o.receive s).ack s).state = .synRecvd := (ack_state _ _).trans hsyn
  have hopening : ∃ u', ((o.receive s).ack s).Opening u' n := by
    have hr : (o.receive s).Opening u n := h.of_eq rfl rfl rfl rfl rfl rfl
    by_cases hnew : (o.receive s).NewAck s
    · rw [Outlet.ack, if_pos hnew]
      exact ⟨_, hr.advance hsyn hnew.2 (hack hnew) hspace⟩
    · rw [Outlet.ack, if_neg hnew]
      exact ⟨u, hr⟩
  cases hsettled with
  | same =>
      obtain rfl := hmoved.state.1 hstate
      exact .inl ⟨rfl, hstate, hopening⟩
  | opened hflag heq _ => exact .inr ⟨hflag, heq, hopening, hmoved⟩
  | deleted _ _ hs => exact absurd (hstate.symm.trans hs) nofun
  | finAcked _ _ hs => exact absurd (hstate.symm.trans hs) nofun
  | bothClosed _ _ hs => exact absurd (hstate.symm.trans hs) nofun

/-! ## What is kept -/

theorem ack_eq (o : Outlet) (s : Segment) : ∃ una nxt buf,
    o.ack s = { o with una := una, nxt := nxt, outbuf := buf } := by
  rw [Outlet.ack]
  split <;> exact ⟨_, _, _, rfl⟩

theorem receive_ack (o : Outlet) (s : Segment) : (o.receive s).ack s = (o.ack s).receive s := by
  by_cases hnew : o.NewAck s
  · have hnew' : (o.receive s).NewAck s := hnew
    rw [Outlet.ack, Outlet.ack, if_pos hnew, if_pos hnew']
    rfl
  · have hnew' : ¬(o.receive s).NewAck s := hnew
    rw [Outlet.ack, Outlet.ack, if_neg hnew, if_neg hnew']

/-- After a segment only the state, the positions and the buffer may differ. -/
theorem packet_eq {o₁ o₂ : Outlet} (hsettled : ((o.receive s).ack s).Settled s o₁)
    (hmoved : o₁.Moved s o₂) : ∃ b st una nxt buf,
    o₂ = { o.receive s with live := b, state := st, una := una, nxt := nxt, outbuf := buf } := by
  obtain ⟨una, nxt, buf, hack⟩ := ack_eq (o.receive s) s
  rw [hack] at hsettled
  obtain ⟨b, st, rfl⟩ := hsettled.eq
  obtain ⟨st', rfl⟩ := hmoved.eq
  exact ⟨b, st', una, nxt, buf, rfl⟩

theorem Step.grows {i : Input} (h : o.Step i o') :
    o'.iss = o.iss ∧ ∃ x, o'.written = o.written ++ x := by
  cases h with
  | packet _ hsettled hmoved =>
      obtain ⟨b, st, una, nxt, buf, rfl⟩ := packet_eq hsettled hmoved
      exact ⟨rfl, [], (List.append_nil _).symm⟩
  | write => exact ⟨rfl, _, rfl⟩
  | quiet | removed | reset | timeout | synAck | segment | close | abort =>
      exact ⟨rfl, [], (List.append_nil _).symm⟩

theorem Step.state {i : Input} (h : o.Step i o') (hsyn : o.state ≠ .synRecvd) :
    o'.state ≠ .synRecvd := by
  cases h with
  | packet _ hsettled hmoved =>
      have hs := (hsettled.state.1 (by rw [ack_state]; exact hsyn)).1
      exact (hmoved.state.2.1 hs).1
  | synAck hs => exact absurd hs hsyn
  | close => exact nofun
  | quiet | removed | reset | timeout | segment | write | abort => exact hsyn

theorem Step.closing {i : Input} (h : o.Step i o') (hc : o.Closing) :
    o'.Closing ∧ o'.written = o.written := by
  cases h with
  | packet _ hsettled hmoved =>
      have hclosing := hmoved.state.2.2 (hsettled.state.2 (by
        rw [Closing, ack_state]
        exact hc))
      obtain ⟨b, st, una, nxt, buf, rfl⟩ := packet_eq hsettled hmoved
      exact ⟨hclosing, rfl⟩
  | write hest => exact absurd hest hc.2
  | close hest => exact absurd hest hc.2
  | quiet | removed | reset | timeout | synAck | segment | abort => exact ⟨hc, rfl⟩

/-- What a step has sent: nothing, a segment without data and FIN, or the next segment. -/
theorem Step.sent_cases {i : Input} (h : o.Step i o') :
    o'.sent = o.sent ∨ ∃ s, o'.sent = o.sent ++ [s] ∧
      (s.data = [] ∧ s.isFin = false ∨
        o.state ≠ .synRecvd ∧ o.Chunk s.data ∧ s.seq = o.nxt ∧
          (s.isFin = true → rbAvail o.outbuf (o.nxt + BitVec.ofNat 32 s.data.length) = 0 ∧
            isClosingState o.state = true)) := by
  cases h with
  | packet _ hsettled hmoved =>
      obtain ⟨b, st, una, nxt, buf, rfl⟩ := packet_eq hsettled hmoved
      exact .inl rfl
  | @synAck _ _ s _ _ hdata hflags =>
      exact .inr ⟨s, rfl, .inl ⟨hdata, by simp [Segment.isFin, hflags]⟩⟩
  | @segment _ _ s _ _ hsyn hdata hseq hflags hfin =>
      refine .inr ⟨s, rfl, .inr ⟨hsyn, hdata, hseq, fun hs => hfin ?_⟩⟩
      rw [← hs, isFin_of_sendFlags hflags]
  | @abort _ s _ _ hdata hflags =>
      exact .inr ⟨s, rfl, .inl ⟨hdata, by simp [Segment.isFin, hflags]⟩⟩
  | quiet | removed | reset | timeout | write | close => exact .inl rfl

end Outlet

end Ptrtd
