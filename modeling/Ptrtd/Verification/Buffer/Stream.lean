import Ptrtd.Library.Run
import Ptrtd.Verification.Buffer.Correctness

/-! # The ring buffer slides over a stream

`Window` is what the buffer is for: a part of an unbounded byte stream, moved along at
both ends. Positions in it are natural numbers. The buffer of `buffer.c`, whose positions are
32-bit words counted from the first sequence number, simulates it step by step. -/

namespace Ptrtd.Buffer

/-! ## The window -/

/-- All the bytes ever taken in, of which those before `freed` have been let go. -/
structure Window where
  size : ℕ
  stream : List Uchar
  freed : ℕ

namespace Window

def held (w : Window) : List Uchar := w.stream.drop w.freed

def left (w : Window) : ℕ := w.size - w.held.length

/-- Take in as many of the bytes as there is room for. -/
def write (w : Window) (data : List Uchar) : Window :=
  { w with stream := w.stream ++ data.take w.left }

/-- Let go of the bytes before position `k`. -/
def advance (w : Window) (k : ℕ) : Window := { w with freed := k }

@[simp] theorem held_length (w : Window) : w.held.length = w.stream.length - w.freed := by
  simp [held]

theorem held_write {w : Window} (h : w.freed ≤ w.stream.length) (data : List Uchar) :
    (w.write data).held = w.held ++ data.take w.left :=
  List.drop_append_of_le_length h

theorem held_drop {w : Window} {k : ℕ} (hk : w.freed ≤ k) :
    w.held.drop (k - w.freed) = w.stream.drop k := by
  rw [held, List.drop_drop, Nat.add_sub_cancel' hk]

end Window

/-! ## The simulation -/

/-- The buffer `r` holds the bytes of the window `w`, and `w_seq` is the end of its stream. -/
structure Slides (s₀ : Uint) (r : Ringbuf) (w : Window) : Prop where
  ok : r.Ok
  size : r.size = w.size
  freed_le : w.freed ≤ w.stream.length
  content : r.content = w.held
  wSeq : SeqNum.At s₀ r.wSeq w.stream.length

section

variable {s₀ s : Uint} {r r' : Ringbuf} {w : Window} {data : List Uchar} {k n : ℕ}

theorem Slides.used (h : Slides s₀ r w) : r.used = w.stream.length - w.freed := by
  rw [← content_length h.ok, h.content, Window.held_length]

theorem Slides.left (h : Slides s₀ r w) : rbLeft r = w.left := by
  have hused := h.used
  have hle := h.ok.used_le
  rw [h.size] at hle
  rw [rbLeft, Window.left, Window.held_length, h.size]
  omega

/-- The distance of a held position from the end of the stream is exact. -/
theorem Slides.distance (h : Slides s₀ r w) (hs : SeqNum.At s₀ s k) (hfreed : w.freed ≤ k)
    (hk : k ≤ w.stream.length) : (r.wSeq - s).toInt = (w.stream.length - k : ℕ) := by
  have hused := h.used
  have hle := h.ok.used_le
  have hsize := h.ok.size_lt
  have hsub := h.wSeq.toInt_sub hs (by omega) (by push_cast; omega)
  rw [hsub]
  omega

theorem Slides.start {size : ℕ} (hpos : 0 < size) (hlt : size < 2 ^ 31) (s₀ : Uint) :
    Slides s₀ (rbSet (rbNew size) s₀) ⟨size, [], 0⟩ := by
  have hok := rbSet_ok (rbNew_ok hpos hlt) s₀
  refine ⟨hok, rfl, le_rfl, ?_, SeqNum.at_zero⟩
  exact content_eq_nil hok rfl

theorem Slides.write (h : Slides s₀ r w) (data : List Uchar) :
    ∃ r', rbWrite r data = some (r', min data.length (rbLeft r).toNat) ∧
      Slides s₀ r' (w.write data) := by
  obtain ⟨r', n, hwrite, hspec⟩ := rbWrite_spec h.ok data
  have hleft := h.left
  have hfit := h.ok.used_le
  have hn : n = min data.length w.left := by
    rw [hspec.stored]
    rw [rbLeft] at hleft
    omega
  refine ⟨r', ?_, hspec.ok, hspec.size.trans h.size, ?_, ?_, ?_⟩
  · rw [hwrite, hleft, Int.toNat_natCast, hn]
  · simp only [Window.write, List.length_append]
    exact h.freed_le.trans (Nat.le_add_right _ _)
  · have htake : data.take n = data.take w.left := by
      rw [hn, List.take_eq_take_iff]
      omega
    rw [hspec.content, h.content, htake, Window.held_write h.freed_le]
  · rw [hspec.wSeq]
    simp only [Window.write, List.length_append, List.length_take]
    rw [hn, Nat.min_comm]
    exact h.wSeq.add _

theorem Slides.advance (h : Slides s₀ r w) (hs : SeqNum.At s₀ s k) (hfreed : w.freed ≤ k)
    (hk : k ≤ w.stream.length) : Slides s₀ (rbAdvance r s) (w.advance k) := by
  have hused := h.used
  have hspec := rbAdvance_spec h.ok (h.distance hs hfreed hk) (by omega)
  refine ⟨hspec.ok, hspec.size.trans h.size, hk, ?_, ?_⟩
  · have hback : r.used - (w.stream.length - k) = k - w.freed := by omega
    rw [hspec.content, h.content, hback, Window.held_drop hfreed]
    rfl
  · rw [hspec.wSeq]
    exact h.wSeq

theorem Slides.avail (h : Slides s₀ r w) (hs : SeqNum.At s₀ s k) (hfreed : w.freed ≤ k)
    (hk : k ≤ w.stream.length) : rbAvail r s = (w.stream.length - k : ℕ) := by
  have hused := h.used
  exact rbAvail_eq (h.distance hs hfreed hk) (by omega)

theorem Slides.read (h : Slides s₀ r w) (hs : SeqNum.At s₀ s k) (hfreed : w.freed ≤ k)
    (hk : k ≤ w.stream.length) (max : ℕ) : rbRead r s max = some ((w.stream.drop k).take max) := by
  have hused := h.used
  have hback : r.used - (w.stream.length - k) = k - w.freed := by omega
  rw [rbRead_spec h.ok (h.distance hs hfreed hk) (by omega), h.content, hback,
    Window.held_drop hfreed]

end

/-! ## Runs -/

inductive Op where
  | write (data : List Uchar)
  | advance (s : Uint)

/-- The sequence number of the oldest byte held. -/
def oldest (r : Ringbuf) : Uint := r.wSeq - BitVec.ofNat 32 r.used

/-- `rb_advance` is called with a sequence number from the oldest one held to `w_seq`, in modular
order. -/
def Within (x : Ringbuf × Window) : Op → Prop
  | .write _ => True
  | .advance s => (s - oldest x.1).toNat ≤ (x.1.wSeq - oldest x.1).toNat

instance (x : Ringbuf × Window) (op : Op) : Decidable (Within x op) := by
  cases op <;> unfold Within <;> infer_instance

/-- The buffer does what the source says; the window counts how far `s` is from the oldest byte
that it holds. -/
def slide (x : Ringbuf × Window) : Op → Option (Ringbuf × Window)
  | .write data => (rbWrite x.1 data).map fun y => (y.1, x.2.write data)
  | .advance s =>
      some (rbAdvance x.1 s, x.2.advance (x.2.freed + (s - oldest x.1).toNat))

variable {s₀ : Uint} {x y : Ringbuf × Window} {op : Op}

theorem Slides.oldest (h : Slides s₀ x.1 x.2) : SeqNum.At s₀ (oldest x.1) x.2.freed := by
  have hlast := h.wSeq
  have hsum : x.2.stream.length = x.2.freed + x.1.used := by
    rw [h.used, Nat.add_sub_cancel' h.freed_le]
  rw [SeqNum.At, hsum, BitVec.ofNat_add, ← BitVec.add_assoc] at hlast
  rw [SeqNum.At, Buffer.oldest, hlast, BitVec.add_sub_cancel]

/-- Sequence numbers between the oldest one and `w_seq` are the positions of the window. -/
theorem Slides.position (h : Slides s₀ x.1 x.2) {s : Uint} (hs : Within x (.advance s)) :
    SeqNum.At s₀ s (x.2.freed + (s - Buffer.oldest x.1).toNat) ∧
      x.2.freed + (s - Buffer.oldest x.1).toNat ≤ x.2.stream.length := by
  have hused := h.used
  have hfreed := h.freed_le
  have hle := h.ok.used_le
  have hsize := h.ok.size_lt
  constructor
  · have hadd := h.oldest.add (s - Buffer.oldest x.1).toNat
    rw [BitVec.ofNat_toNat, BitVec.setWidth_eq, BitVec.add_comm, BitVec.sub_add_cancel] at hadd
    exact hadd
  · have hspan : (x.1.wSeq - Buffer.oldest x.1).toNat = x.1.used := by
      have : x.1.wSeq - Buffer.oldest x.1 = BitVec.ofNat 32 x.1.used := by
        rw [Buffer.oldest]
        ring
      rw [this, BitVec.toNat_ofNat, Nat.mod_eq_of_lt (by omega)]
    rw [Within, hspan] at hs
    omega

theorem Slides.step (h : Slides s₀ x.1 x.2) (hok : Within x op) (hstep : slide x op = some y) :
    Slides s₀ y.1 y.2 := by
  cases op with
  | write data =>
      obtain ⟨r', hwrite, hnext⟩ := h.write data
      simp only [slide, hwrite, Option.map_some, Option.some.injEq] at hstep
      rw [← hstep]
      exact hnext
  | advance s =>
      obtain ⟨hat, hle⟩ := h.position hok
      simp only [slide, Option.some.injEq] at hstep
      rw [← hstep]
      exact h.advance hat (Nat.le_add_right _ _) hle

theorem slide_size (hstep : slide x op = some y) : y.2.size = x.2.size := by
  cases op with
  | write data =>
      obtain ⟨_, -, rfl⟩ := Option.map_eq_some_iff.mp hstep
      rfl
  | advance s =>
      obtain rfl := Option.some.inj hstep
      rfl

/-- The buffer is within its bounds, a write stores the first bytes up to the room left, and what
is available and read from a sequence number in the window is what the stream has there. -/
structure Sliding (size : ℕ) (s₀ : Uint) (x : Ringbuf × Window) : Prop where
  used : x.1.used = x.2.stream.length - x.2.freed
  freed_le : x.2.freed ≤ x.2.stream.length
  used_le : x.1.used ≤ size
  left : rbLeft x.1 = size - x.1.used
  write : ∀ data, ∃ r', rbWrite x.1 data = some (r', min data.length (rbLeft x.1).toNat) ∧
    slide x (.write data) =
      some (r', { x.2 with stream := x.2.stream ++ data.take (rbLeft x.1).toNat })
  read : ∀ (s : Uint) (max : ℕ), Within x (.advance s) → 0 < max →
    ∃ k, SeqNum.At s₀ s k ∧ x.2.freed ≤ k ∧ k ≤ x.2.stream.length ∧
      rbAvail x.1 s = (x.2.stream.length - k : ℕ) ∧
      rbRead x.1 s max = some ((x.2.stream.drop k).take (min max (x.2.stream.length - k)))

theorem Slides.sliding (h : Slides s₀ x.1 x.2) : Sliding x.2.size s₀ x := by
  have hle := h.ok.used_le
  have hleft := h.left
  refine ⟨h.used, h.freed_le, h.size ▸ hle, ?_, ?_, ?_⟩
  · rw [rbLeft, h.size]
  · intro data
    obtain ⟨r', hwrite, -⟩ := h.write data
    refine ⟨r', hwrite, ?_⟩
    rw [slide, hwrite, hleft]
    rfl
  · intro s max hs _
    obtain ⟨hat, hk⟩ := h.position hs
    have hfreed := Nat.le_add_right x.2.freed (s - Buffer.oldest x.1).toNat
    refine ⟨_, hat, hfreed, hk, h.avail hat hfreed hk, ?_⟩
    rw [h.read hat hfreed hk, ← List.length_drop, List.take_eq_take_min]

theorem sliding_of_run {size : ℕ} (hpos : 0 < size) (hlt : size < 2 ^ 31) (s₀ : Uint)
    (hrun : Transition.Run slide Within (rbSet (rbNew size) s₀, ⟨size, [], 0⟩) x) :
    Sliding size s₀ x := by
  have hinv : x.2.size = size ∧ Slides s₀ x.1 x.2 := by
    induction hrun with
    | refl => exact ⟨rfl, Slides.start hpos hlt s₀⟩
    | tail _ hok hstep ih => exact ⟨(slide_size hstep).trans ih.1, ih.2.step hok hstep⟩
  obtain ⟨rfl, hslides⟩ := hinv
  exact hslides.sliding

/-- A run past the end of the block and past the last sequence number: of the second write two
bytes fit. -/
theorem sliding_of_run_wrap :
    ∃ x, Sliding 4 0xfffffffe x ∧ x.2.stream = [1, 2, 3, 4, 5] ∧ x.2.freed = 1 ∧
      x.1.wSeq = 3 ∧ x.1.wPos = 1 := by
  have hexec : (Transition.exec slide Within (rbSet (rbNew 4) 0xfffffffe, ⟨4, [], 0⟩)
      [.write [1, 2, 3], .advance 0xffffffff, .write [4, 5, 6]]).any
      (fun x => x.2.stream = [1, 2, 3, 4, 5] ∧ x.2.freed = 1 ∧ x.1.wSeq = 3 ∧ x.1.wPos = 1) =
        true := by
    decide +kernel
  obtain ⟨x, hrun, hx⟩ := Transition.exists_run_of_exec hexec
  exact ⟨x, sliding_of_run (by decide) (by decide) _ hrun, of_decide_eq_true hx⟩

end Ptrtd.Buffer
