import Ptrtd.Library.SeqNum
import Ptrtd.Model.Buffer
import Mathlib.Tactic.Linarith

/-! # The ring buffer is a queue of bytes

`content` reads the bytes a buffer holds, oldest first. On a well-formed buffer the
operations of `buffer.c` append to it, drop from its front, and copy out of it. -/

namespace Ptrtd

/-- A buffer as `rb_new` and the operations leave it. -/
structure Ringbuf.Ok (r : Ringbuf) : Prop where
  size_lt : r.size < 2 ^ 31
  pos_lt : r.wPos < r.size
  used_le : r.used ≤ r.size
  null : r.p = none → r.used = 0

/-- The bytes the buffer holds, oldest first. -/
def Ringbuf.content (r : Ringbuf) : List Uchar :=
  match r.p with
  | none => []
  | some m => Circular.window m r.size r.wPos r.used

namespace Buffer

open Circular

theorem rbNew_ok {s : ℕ} (hpos : 0 < s) (hlt : s < 2 ^ 31) : (rbNew s).Ok :=
  ⟨hlt, hpos, Nat.zero_le s, fun _ => rfl⟩

theorem rbSet_ok {r : Ringbuf} (h : r.Ok) (s : Uint) : (rbSet r s).Ok := ⟨h.1, h.2, h.3, h.4⟩

theorem content_length {r : Ringbuf} (h : r.Ok) : r.content.length = r.used := by
  rw [Ringbuf.content]
  cases hp : r.p with
  | none => simp [h.null hp]
  | some m => simp

theorem content_eq_nil {r : Ringbuf} (h : r.Ok) (hused : r.used = 0) : r.content = [] :=
  List.eq_nil_of_length_eq_zero (by rw [content_length h, hused])

/-! ## Copies within bounds -/

theorem copyIn_eq (m : Mem Uchar) (size pos cnt : ℕ) (data : List Uchar)
    (h : pos + cnt ≤ size) :
    copyIn (some m) size pos data cnt = some (store m pos (data.take cnt)) := by
  simp only [copyIn]
  rw [if_pos (by omega)]
  simp

theorem copyOut_eq {m : Mem Uchar} {size pos cnt : ℕ} (h : pos + cnt ≤ size) :
    copyOut (some m) size pos cnt = some (load m pos cnt) := by
  simp only [copyOut]
  rw [if_pos (by omega)]
  simp

/-! ## Writing -/

/-- What `rb_write` does: it appends the first `n` bytes, `n` being all that fit. -/
structure WriteSpec (r : Ringbuf) (data : List Uchar) (r' : Ringbuf) (n : ℕ) : Prop where
  ok : r'.Ok
  stored : n = min data.length (r.size - r.used)
  content : r'.content = r.content ++ data.take n
  used : r'.used = r.used + n
  wSeq : r'.wSeq = r.wSeq + BitVec.ofNat 32 n
  size : r'.size = r.size

/-- Two consecutive writes, up to the end of the memory and on from its beginning, append
both pieces. -/
theorem window_store_wrap (m : Mem Uchar) (size wPos used : ℕ) (a b : List Uchar)
    (hpos : wPos + a.length = size) (hfree : used + a.length + b.length ≤ size) :
    window (store (store m wPos a) 0 b) size b.length (used + a.length + b.length) =
      window m size wPos used ++ a ++ b := by
  have hfirst := window_store m a size wPos used (by omega)
  rw [hpos, window_end _ (by omega)] at hfirst
  have hsecond := window_store (store m wPos a) b size 0 (used + a.length) (by omega)
  rw [Nat.zero_add] at hsecond
  rw [hsecond, hfirst]

theorem rbAlloc_spec {r : Ringbuf} (h : r.Ok) :
    (rbAlloc r).Ok ∧ (rbAlloc r).content = r.content ∧ (rbAlloc r).used = r.used ∧
      (rbAlloc r).wSeq = r.wSeq ∧ (rbAlloc r).size = r.size ∧ ∃ m, (rbAlloc r).p = some m := by
  rw [rbAlloc]
  cases hp : r.p with
  | none =>
      have hused := h.null hp
      refine ⟨⟨h.size_lt, Nat.zero_lt_of_lt h.pos_lt, Nat.zero_le _, fun _ => rfl⟩, ?_,
        hused.symm, rfl, rfl, _, rfl⟩
      simp [Ringbuf.content, hp]
  | some m => exact ⟨h, rfl, rfl, rfl, rfl, m, hp⟩

theorem rbStore_spec {r : Ringbuf} (h : r.Ok) {m : Mem Uchar} (hp : r.p = some m)
    (data : List Uchar) :
    ∃ r' n, rbStore r data = some (r', n) ∧ WriteSpec r data r' n := by
  have hused := h.used_le
  have hpos := h.pos_lt
  -- `len` bytes are stored in all, `cnt` of them before the end of the block
  obtain ⟨len, hlen⟩ : ∃ len, len = min data.length (r.size - r.used) := ⟨_, rfl⟩
  obtain ⟨cnt, hcnt⟩ : ∃ cnt, cnt = min len (r.size - r.wPos) := ⟨_, rfl⟩
  have hlenZ : min (data.length : ℤ) (rbLeft r) = len := by
    rw [rbLeft]
    omega
  have hcntZ : min (len : ℤ) ((r.size : ℤ) - r.wPos) = cnt := by omega
  have htake : (data.take cnt).length = cnt := by
    rw [List.length_take]
    omega
  have hwin : r.content = window m r.size r.wPos r.used := by simp [Ringbuf.content, hp]
  simp only [rbStore, hlenZ, hcntZ, hp]
  rw [copyIn_eq _ _ _ _ data (by omega)]
  simp only [Option.bind_some, Int.toNat_natCast]
  have hfirst := window_store m (data.take cnt) r.size r.wPos r.used (by omega)
  rw [htake] at hfirst
  by_cases hend : r.wPos + cnt = r.size
  · by_cases hmore : (len : ℤ) - cnt > 0
    · -- the rest goes to the beginning of the block
      have hrest : (len : ℤ) - cnt = (len - cnt : ℕ) := by omega
      have hdrop : ((data.drop cnt).take (len - cnt)).length = len - cnt := by
        rw [List.length_take, List.length_drop]
        omega
      have hcopy := copyIn_eq (store m r.wPos (data.take cnt)) r.size 0 (len - cnt)
        (data.drop cnt) (by omega)
      simp only [Nat.cast_zero] at hcopy
      have hwrap := window_store_wrap m r.size r.wPos r.used (data.take cnt)
        ((data.drop cnt).take (len - cnt)) (by omega) (by omega)
      rw [htake, hdrop] at hwrap
      have htotal : cnt + (len - cnt) = len := by omega
      simp only [hend, if_true]
      rw [if_pos hmore, hrest, hcopy]
      simp only [Option.map_some, Int.toNat_natCast, htotal]
      refine ⟨_, _, rfl, ⟨h.size_lt, ?_, ?_, nofun⟩, by omega, ?_, ?_, rfl, rfl⟩
      · simp only
        omega
      · simp only
        omega
      · simp only [Ringbuf.content, hp]
        rw [hwrap, List.append_assoc, ← List.take_add, htotal]
      · simp only
        omega
    · -- the data ends exactly at the end of the block
      simp only [hend, if_true, hmore, if_false]
      refine ⟨_, _, rfl, ⟨h.size_lt, Nat.zero_lt_of_lt hpos, ?_, nofun⟩, by omega, ?_,
        rfl, rfl, rfl⟩
      · simp only
        omega
      · simp only [Ringbuf.content, hp]
        rw [← window_end _ (by omega), ← hfirst, hend]
  · simp only [hend, if_false]
    refine ⟨_, _, rfl, ⟨h.size_lt, ?_, ?_, nofun⟩, by omega, ?_, rfl, rfl, rfl⟩
    · simp only
      omega
    · simp only
      omega
    · simp only [Ringbuf.content, hp]
      rw [hfirst]

theorem rbWrite_spec {r : Ringbuf} (h : r.Ok) (data : List Uchar) :
    ∃ r' n, rbWrite r data = some (r', n) ∧ WriteSpec r data r' n := by
  by_cases hnil : data.length = 0
  · exact ⟨r, 0, by simp [rbWrite, hnil], h, by omega, by simp, rfl, by simp, rfl⟩
  obtain ⟨hok, hcontent, hused, hseq, hsize, m, hp⟩ := rbAlloc_spec h
  obtain ⟨r', n, hstore, hspec⟩ := rbStore_spec hok hp data
  refine ⟨r', n, by simp [rbWrite, hnil, hstore], hspec.ok, ?_, ?_, ?_, ?_, ?_⟩
  · rw [hspec.stored, hused, hsize]
  · rw [hspec.content, hcontent]
  · rw [hspec.used, hused]
  · rw [hspec.wSeq, hseq]
  · rw [hspec.size, hsize]

/-! ## Freeing -/

/-- What `rb_advance` does when `seq` lies within the buffer: it keeps the last `kept` bytes. -/
structure AdvanceSpec (r : Ringbuf) (kept : ℕ) (r' : Ringbuf) : Prop where
  ok : r'.Ok
  content : r'.content = r.content.drop (r.used - kept)
  used : r'.used = kept
  wSeq : r'.wSeq = r.wSeq
  size : r'.size = r.size

theorem rbAdvance_spec {r : Ringbuf} (h : r.Ok) {s : Uint} {kept : ℕ}
    (hkept : (r.wSeq - s).toInt = kept) (hle : kept ≤ r.used) :
    AdvanceSpec r kept (rbAdvance r s) := by
  have hused := h.used_le
  rcases Nat.eq_zero_or_pos kept with hzero | hpos
  · -- everything is freed, the block included
    have hseq : r.wSeq = s := by
      have : r.wSeq - s = 0 := BitVec.eq_of_toInt_eq (by simp [hkept, hzero])
      exact (BitVec.sub_eq_iff_eq_add.mp this).trans (by simp)
    have hadv : rbAdvance r s = { r with p := none, wPos := 0, used := 0, wSeq := s } := by
      simp [rbAdvance, hkept, hzero]
    have hok : Ringbuf.Ok { r with p := none, wPos := 0, used := 0, wSeq := s } :=
      ⟨h.size_lt, Nat.zero_lt_of_lt h.pos_lt, Nat.zero_le _, fun _ => rfl⟩
    rw [hadv]
    refine ⟨hok, ?_, hzero.symm, hseq.symm, rfl⟩
    rw [content_eq_nil hok rfl, hzero, Nat.sub_zero, List.drop_eq_nil_of_le]
    rw [content_length h]
  · have hadv : rbAdvance r s = { r with used := kept } := by
      have hne : kept ≠ 0 := by omega
      simp [rbAdvance, hkept, hne]
    rw [hadv]
    refine ⟨⟨h.size_lt, h.pos_lt, hle.trans hused, ?_⟩, ?_, rfl, rfl, rfl⟩
    · intro hnull
      have := h.null hnull
      simp only
      omega
    · cases hp : r.p with
      | none =>
          have := h.null hp
          omega
      | some m =>
          simp only [Ringbuf.content, hp]
          exact (window_drop m r.size r.wPos hle).symm

/-! ## Reading -/

theorem rbAvail_eq {r : Ringbuf} {s : Uint} {n : ℤ} (hn : (r.wSeq - s).toInt = n)
    (hle : n ≤ r.used) : rbAvail r s = n := by
  rw [rbAvail, hn]
  exact if_neg (by omega)

/-- The two pieces that `rb_read` copies out of a wrapped buffer. -/
theorem window_take_wrap {m : Mem Uchar} {size wPos back max : ℕ} (h : wPos < back)
    (hsize : back ≤ size) :
    (window m size wPos back).take max =
      load m (size - (back - wPos)) (min (back - wPos) max) ++
        load m 0 (min wPos (max - (back - wPos))) := by
  have hstart : size + wPos - back = size - (back - wPos) := by omega
  rw [window_of_lt m h hsize, List.take_append, load_take, load_take, load_length, hstart]
  congr 2 <;> exact Nat.min_comm _ _

/-- `rb_read` copies out the bytes from a position within the buffer on, at most `max`. -/
theorem rbRead_spec {r : Ringbuf} (h : r.Ok) {s : Uint} {back max : ℕ}
    (hback : (r.wSeq - s).toInt = back) (hle : back ≤ r.used) :
    rbRead r s max = some ((r.content.drop (r.used - back)).take max) := by
  have hused := h.used_le
  have hpos := h.pos_lt
  by_cases htriv : back = 0 ∨ max = 0
  · have hempty : (r.content.drop (r.used - back)).take max = [] := by
      rcases htriv with hz | hz
      · rw [List.drop_eq_nil_of_le (by rw [content_length h]; omega)]
        exact List.take_nil
      · rw [hz, List.take_zero]
    rw [hempty, rbRead, hback]
    exact if_pos (by omega)
  obtain ⟨hback0, hmax0⟩ := not_or.mp htriv
  cases hp : r.p with
  | none =>
      have := h.null hp
      omega
  | some m =>
      have hcontent : r.content.drop (r.used - back) = window m r.size r.wPos back := by
        simp only [Ringbuf.content, hp]
        exact window_drop m r.size r.wPos hle
      have hmaxZ : min (max : ℤ) back = (min max back : ℕ) := by omega
      rw [hcontent, rbRead, hback]
      simp only
      rw [if_neg (by omega), hmaxZ]
      by_cases hwrap : r.wPos < back
      · have hcntZ : min ((back : ℤ) - r.wPos) (min max back : ℕ) =
            (min (back - r.wPos) max : ℕ) := by
          omega
        have hposZ : (r.size : ℤ) - ((back : ℤ) - r.wPos) = (r.size - (back - r.wPos) : ℕ) := by
          omega
        rw [if_pos (by omega), hcntZ, hposZ, hp, copyOut_eq (by omega)]
        rw [window_take_wrap hwrap (by omega)]
        simp only [Option.bind_some]
        by_cases hmore : back - r.wPos < max
        · have hrestZ : ((min max back : ℕ) : ℤ) - (min (back - r.wPos) max : ℕ) =
              (min r.wPos (max - (back - r.wPos)) : ℕ) := by omega
          by_cases hzero : r.wPos = 0
          · rw [if_neg (by omega), hzero, Nat.zero_min, load_zero, List.append_nil]
          · have hfrom : (r.wPos : ℤ) - ((back : ℤ) - (min (back - r.wPos) max : ℕ)) = (0 : ℕ) := by
              omega
            rw [if_pos (by omega), hrestZ, hfrom, copyOut_eq (by omega)]
            rfl
        · have hnone : min r.wPos (max - (back - r.wPos)) = 0 := by omega
          rw [if_neg (by omega), hnone, load_zero, List.append_nil]
      · have hfrom : (r.wPos : ℤ) - back = (r.wPos - back : ℕ) := by omega
        rw [if_neg (by omega), if_pos (by omega), hfrom, hp, copyOut_eq (by omega),
          window_of_le m r.size (by omega), load_take]

theorem copyOut_length {p : Option (Mem Uchar)} {size : ℕ} {pos cnt : ℤ} {d : List Uchar}
    (h : copyOut p size pos cnt = some d) : (d.length : ℤ) = cnt := by
  cases p with
  | none => cases h
  | some m =>
      rw [copyOut] at h
      split at h
      · next hin =>
          cases h
          rw [load_length]
          exact Int.toNat_of_nonneg hin.1
      · cases h

/-- `rb_read` yields at most as many bytes as it is asked for. -/
theorem rbRead_length_le {r : Ringbuf} {seq : Uint} {max : ℤ} {d : List Uchar} (hmax : 0 ≤ max)
    (h : rbRead r seq max = some d) : (d.length : ℤ) ≤ max := by
  rw [rbRead] at h
  dsimp only at h
  split at h
  · cases h
    exact hmax
  · split at h
    · obtain ⟨d₁, h₁, h⟩ := Option.bind_eq_some_iff.mp h
      have hlen₁ := copyOut_length h₁
      split at h
      · obtain ⟨d₂, h₂, rfl⟩ := Option.map_eq_some_iff.mp h
        have hlen₂ := copyOut_length h₂
        rw [List.length_append]
        omega
      · cases h
        omega
    · split at h
      · have hlen := copyOut_length h
        omega
      · cases h
        exact hmax

/-- Bytes that are available are read. -/
theorem rbRead_ne_nil {r : Ringbuf} {seq : Uint} {max : ℤ} {d : List Uchar} (hmax : 0 < max)
    (havail : 0 < rbAvail r seq) (h : rbRead r seq max = some d) : d ≠ [] := by
  intro hnil
  subst hnil
  rw [rbAvail] at havail
  rw [rbRead] at h
  dsimp only at h havail
  split at havail
  · omega
  rw [if_neg (by omega)] at h
  split at h
  · obtain ⟨d₁, h₁, h⟩ := Option.bind_eq_some_iff.mp h
    have hlen₁ := copyOut_length h₁
    split at h
    · obtain ⟨d₂, h₂, heq⟩ := Option.map_eq_some_iff.mp h
      have hlen₂ := copyOut_length h₂
      obtain ⟨rfl, rfl⟩ := List.append_eq_nil_iff.mp heq
      simp only [List.length_nil, Nat.cast_zero] at hlen₁ hlen₂
      omega
    · cases h
      simp only [List.length_nil, Nat.cast_zero] at hlen₁
      omega
  · rw [if_pos (by omega)] at h
    have hlen := copyOut_length h
    simp only [List.length_nil, Nat.cast_zero] at hlen
    omega

end Buffer

/-! ## Buffers positioned in a stream -/

/-- A well-formed buffer whose oldest byte has the sequence number `seq`. -/
structure Ringbuf.From (r : Ringbuf) (seq : Uint) : Prop where
  ok : r.Ok
  wSeq : SeqNum.At seq r.wSeq r.used

namespace Buffer

variable {r r' : Ringbuf} {seq : Uint} {n : ℕ} {data : List Uchar}

theorem from_toInt (h : r.From seq) : (r.wSeq - seq).toInt = r.used := by
  have hused := h.ok.used_le
  have hsize := h.ok.size_lt
  have := h.wSeq.toInt_sub SeqNum.at_zero (by omega) (by push_cast; omega)
  omega

theorem from_avail (h : r.From seq) : rbAvail r seq = r.used := rbAvail_eq (from_toInt h) le_rfl

theorem from_read (h : r.From seq) (max : ℕ) :
    rbRead r seq max = some (r.content.take max) := by
  rw [rbRead_spec h.ok (from_toInt h) le_rfl, Nat.sub_self, List.drop_zero]

theorem from_write (h : r.From seq) (hw : rbWrite r data = some (r', n)) :
    WriteSpec r data r' n ∧ r'.From seq := by
  obtain ⟨r₁, n₁, hw₁, hspec⟩ := rbWrite_spec h.ok data
  obtain ⟨rfl, rfl⟩ := Prod.mk.inj (Option.some.inj (hw.symm.trans hw₁))
  refine ⟨hspec, hspec.ok, ?_⟩
  rw [hspec.wSeq, hspec.used]
  exact h.wSeq.add n

theorem from_advance (h : r.From seq) (hn : n ≤ r.used) :
    AdvanceSpec r (r.used - n) (rbAdvance r (seq + BitVec.ofNat 32 n)) ∧
      (rbAdvance r (seq + BitVec.ofNat 32 n)).From (seq + BitVec.ofNat 32 n) := by
  have hused := h.ok.used_le
  have hsize := h.ok.size_lt
  have hat : SeqNum.At (seq + BitVec.ofNat 32 n) r.wSeq (r.used - n) := by
    apply SeqNum.At.rebase
    rw [Nat.add_sub_cancel' hn]
    exact h.wSeq
  have hdist := hat.toInt_sub SeqNum.at_zero (by omega) (by push_cast; omega)
  rw [Nat.cast_zero, Int.sub_zero] at hdist
  have hspec := rbAdvance_spec h.ok hdist (Nat.sub_le _ _)
  refine ⟨hspec, hspec.ok, ?_⟩
  rw [hspec.wSeq, hspec.used]
  exact hat

end Buffer

end Ptrtd
