import Ptrtd.Library.OnesComplement
import Ptrtd.Model.Packet
import Mathlib.Tactic.Ring

/-! # What `make_cksum` computes

Its value is the one's-complement sum of the words of the packet from the addresses on, together
with the length and the next header of the IPv6 header. Storing the complement into a zero
checksum field makes a packet verify. -/

namespace Ptrtd.Wire

open Circular (Mem store load)
open OnesComplement (Reduces)

variable {p q : Mem Uchar} {i j n k len : ℕ}

/-! ## Reading back what was stored -/

theorem store_of_lt (l : List Uchar) (h : j < i) : store p i l j = p j := by
  rw [store, dif_neg (by omega)]

theorem store_of_le {l : List Uchar} (h : i + l.length ≤ j) : store p i l j = p j := by
  rw [store, dif_neg (by omega)]

theorem store_at {l : List Uchar} (h : k < l.length) : store p i l (i + k) = l[k] := by
  rw [store, dif_pos ⟨by omega, by omega⟩]
  simp

theorem store_cons (p : Mem Uchar) (i : ℕ) (a : Uchar) (l : List Uchar) :
    store p i (a :: l) = store (store p i [a]) (i + 1) l := by
  funext x
  rcases lt_trichotomy x i with hx | rfl | hx
  · rw [store_of_lt _ hx, store_of_lt _ (by omega), store_of_lt _ hx]
  · rw [store_of_lt l (by omega : x < x + 1)]
    exact (store_at (k := 0) (l := a :: l) (by simp)).trans
      (store_at (k := 0) (l := [a]) (by simp)).symm
  · obtain ⟨k, rfl⟩ := Nat.exists_eq_add_of_lt hx
    by_cases hk : k < l.length
    · have hnext : i + k + 1 = i + 1 + k := by omega
      rw [Nat.add_assoc, store_at (by simpa using hk), ← Nat.add_assoc, hnext, store_at hk]
      rfl
    · rw [store_of_le (by simp only [List.length_cons]; omega), store_of_le (by omega),
        store_of_le (by simp)]

theorem store_self {a : Uchar} (h : p i = a) : store p i [a] = p := by
  funext x
  by_cases hx : x = i
  · rw [hx, h]
    exact store_at (k := 0) (l := [a]) (by simp)
  · rcases Nat.lt_or_gt_of_ne hx with hlt | hgt
    · exact store_of_lt _ hlt
    · exact store_of_le hgt

theorem load_store {l : List Uchar} : load (store p i l) i l.length = l := by
  apply List.ext_getElem
  · simp
  · intro k h₁ h₂
    simp only [load, List.getElem_map, List.getElem_range]
    exact store_at h₂

theorem load_congr (h : ∀ x, i ≤ x → x < i + n → p x = q x) : load p i n = load q i n := by
  apply List.map_congr_left
  intro k hk
  have hk := List.mem_range.mp hk
  exact h (i + k) (by omega) (by omega)

theorem load_store_of_disjoint {l : List Uchar} (h : i + n ≤ j ∨ j + l.length ≤ i) :
    load (store p j l) i n = load p i n := by
  apply load_congr
  intro x hlo hhi
  rcases h with h | h
  · exact store_of_lt l (by omega)
  · exact store_of_le (by omega)

theorem load_cons (p : Mem Uchar) (i n : ℕ) : load p i (n + 1) = p i :: load p (i + 1) n := by
  have hsplit := Circular.load_append p i 1 n
  rw [Nat.add_comm 1 n] at hsplit
  rw [← hsplit]
  rfl

theorem ofInt_toNat (v : ℤ) : (UInt8.ofInt v).toNat = (v % 256).toNat := by
  have hlt := Int.emod_lt_of_pos v (by decide : (0 : ℤ) < 256)
  simp [UInt8.ofInt]
  exact hlt

theorem get16_bytes16 (p : Mem Uchar) (i : ℕ) (v : ℤ) :
    get16 (store p i (bytes16 v)) i = (v % 65536).toNat := by
  have h₀ : store p i (bytes16 v) i = UInt8.ofInt (v / 256) := store_at (k := 0) (by simp [bytes16])
  have h₁ : store p i (bytes16 v) (i + 1) = UInt8.ofInt v := store_at (k := 1) (by simp [bytes16])
  rw [get16, h₀, h₁, ofInt_toNat, ofInt_toNat]
  omega

/-! ## The sum of a range of bytes -/

/-- The sum of the bytes from `i` on, the even ones taken as high bytes. -/
def byteSum (p : Mem Uchar) : ℕ → ℕ → ℕ
  | _, 0 => 0
  | i, n + 1 => weight p i + byteSum p (i + 1) n

theorem byteSum_append (p : Mem Uchar) (i n k : ℕ) :
    byteSum p i (n + k) = byteSum p i n + byteSum p (i + n) k := by
  induction n generalizing i with
  | zero => simp [byteSum]
  | succ n ih =>
      have hassoc : i + 1 + n = i + (n + 1) := by ring
      rw [Nat.add_right_comm, byteSum, ih, byteSum, hassoc, Nat.add_assoc]

theorem byteSum_congr (h : ∀ x, i ≤ x → x < i + n → p x = q x) :
    byteSum p i n = byteSum q i n := by
  induction n generalizing i with
  | zero => rfl
  | succ n ih =>
      have hhead : weight p i = weight q i := by
        rw [weight, weight, h i le_rfl (by omega)]
      rw [byteSum, byteSum, hhead, ih]
      intro x hlo hhi
      exact h x (by omega) (by omega)

theorem weight_le (p : Mem Uchar) (i : ℕ) : weight p i ≤ 255 * 256 := by
  have := (p i).toNat_lt
  rw [weight]
  split <;> omega

theorem byteSum_le (p : Mem Uchar) (i n : ℕ) : byteSum p i n ≤ n * (255 * 256) := by
  induction n generalizing i with
  | zero => exact Nat.zero_le _
  | succ n ih =>
      have hhead := weight_le p i
      have htail := ih (i + 1)
      rw [byteSum]
      omega

/-- Bytes at an even index sum to the words they make up. -/
theorem byteSum_words (p : Mem Uchar) (hi : i % 2 = 0) (n : ℕ) :
    byteSum p i n = (OnesComplement.pairs 256 ((load p i n).map (·.toNat))).sum := by
  have hodd : (i + 1) % 2 = 1 := by omega
  have heven : ¬i % 2 = 1 := by omega
  induction n using Nat.twoStepInduction generalizing i with
  | zero => rfl
  | one => simp [byteSum, load_cons, weight, heven, OnesComplement.pairs]
  | more n ih _ =>
      have hnext := ih (i := i + 2) (by omega) (by omega) (by omega)
      rw [load_cons, load_cons, byteSum, byteSum, hnext]
      simp only [List.map_cons, OnesComplement.pairs, List.sum_cons, weight, heven, hodd, if_true,
        if_false]
      ring

theorem foldl_weight (p : Mem Uchar) (i n c : ℕ) :
    (List.range' i n).foldl (fun c i => c + weight p i) c = c + byteSum p i n := by
  induction n generalizing i c with
  | zero => rfl
  | succ n ih =>
      rw [List.range'_succ, List.foldl_cons, ih, byteSum, Nat.add_assoc]

theorem addBytes_eq (p : Mem Uchar) (len : ℕ) :
    addBytes p len = get16 p 4 + (p 6).toNat + byteSum p 8 (len - 8) :=
  foldl_weight p 8 (len - 8) _

/-- The sum of a packet of at most 32 kB fits an `int`. -/
theorem addBytes_lt (p : Mem Uchar) (hlen : len ≤ 32768) : addBytes p len < 2 ^ 31 := by
  have hsum := byteSum_le p 8 (len - 8)
  have h₄ := (p 4).toNat_lt
  have h₅ := (p (4 + 1)).toNat_lt
  have h₆ := (p 6).toNat_lt
  rw [addBytes_eq, get16]
  omega

/-! ## The value -/

theorem foldCarry_reduces (c : ℕ) : Reduces 16 (foldCarry c) c := by
  fun_induction foldCarry c with
  | case1 c h ih => exact ih.carry
  | case2 c h => exact OnesComplement.reduces_self (by omega)

theorem makeCksum_reduces (p : Mem Uchar) (len : ℕ) :
    Reduces 16 (makeCksum p len) (addBytes p len) :=
  foldCarry_reduces _

theorem makeCksum_lt (p : Mem Uchar) (len : ℕ) : makeCksum p len < 65536 :=
  (makeCksum_reduces p len).lt

theorem complement_eq (x : ℕ) : ~~~(x : ℤ) = -x - 1 := by
  change Int.negSucc x = _
  omega

/-- The sixteen bits that `PUT_16` stores of `~sum`. -/
theorem complement_emod {x : ℕ} (hx : x < 65536) : ((~~~(x : ℤ)) % 65536).toNat = 65535 - x := by
  rw [complement_eq]
  omega

/-- Two bytes stored into a zero field at an even index add the word they make up. -/
theorem addBytes_store {l : List Uchar} (hl : l.length = 2) (hj : 8 ≤ j) (heven : j % 2 = 0)
    (hlen : j + 2 ≤ len) (h₀ : p j = 0) (h₁ : p (j + 1) = 0) :
    addBytes (store p j l) len = addBytes p len + get16 (store p j l) j := by
  obtain ⟨rest, hrest⟩ : ∃ rest, len - 8 = (j - 8) + (2 + rest) := ⟨len - 8 - (j - 8) - 2, by omega⟩
  have hodd : (j + 1) % 2 = 1 := by omega
  have hhigh : ¬j % 2 = 1 := by omega
  have hbefore : byteSum (store p j l) 8 (j - 8) = byteSum p 8 (j - 8) := by
    apply byteSum_congr
    intro x _ hx
    exact store_of_lt l (by omega)
  have hafter : byteSum (store p j l) (j + 2) rest = byteSum p (j + 2) rest := by
    apply byteSum_congr
    intro x hx _
    exact store_of_le (by omega)
  have hfrom : 8 + (j - 8) = j := by omega
  rw [addBytes_eq, addBytes_eq, hrest]
  simp only [byteSum_append, hfrom, hbefore, hafter]
  rw [store_of_lt l (by omega : 6 < j), get16, get16, get16, store_of_lt l (by omega : 4 < j),
    store_of_lt l (by omega : 4 + 1 < j)]
  simp only [byteSum, weight, hodd, hhigh, if_true, if_false, h₀, h₁]
  simp
  ring

/-- Storing the complement of the sum into a zero field makes the packet verify. -/
theorem makeCksum_complement (hj : 8 ≤ j) (heven : j % 2 = 0) (hlen : j + 2 ≤ len) (h₀ : p j = 0)
    (h₁ : p (j + 1) = 0) (hpos : addBytes p len ≠ 0) :
    makeCksum (store p j (bytes16 (~~~(makeCksum p len : ℤ)))) len = 0xffff := by
  have hsum := makeCksum_reduces p len
  have hstore := makeCksum_reduces (store p j (bytes16 (~~~(makeCksum p len : ℤ)))) len
  rw [addBytes_store rfl hj heven hlen h₀ h₁, get16_bytes16,
    complement_emod (makeCksum_lt p len)] at hstore
  exact hstore.unique (hsum.complement hpos)

/-! ## The one's-complement sum of the upper layer -/

/-- The pseudo-header of IPv6: the addresses, the length as four bytes, three zero bytes and the
next header. -/
def pseudoHeader (src dst : List Uchar) (length : ℕ) (next : Uchar) : List ℕ :=
  src.map (·.toNat) ++ dst.map (·.toNat) ++
    [length / 2 ^ 24 % 256, length / 2 ^ 16 % 256, length / 2 ^ 8 % 256, length % 256] ++
    [0, 0, 0, next.toNat]

/-- The one's-complement sum of the pseudo-header, whose length is the one of the IPv6 header, and
the upper-layer bytes of a packet. -/
def upperSum (p : Mem Uchar) (len : ℕ) : ℕ :=
  OnesComplement.sum 16 (OnesComplement.pairs 256
    (pseudoHeader (load p 8 16) (load p 24 16) (get16 p 4) (p 6) ++
      (load p 40 (len - 40)).map (·.toNat)))

theorem get16_lt (p : Mem Uchar) (i : ℕ) : get16 p i < 65536 := by
  have h₀ := (p i).toNat_lt
  have h₁ := (p (i + 1)).toNat_lt
  rw [get16]
  omega

theorem upperSum_lt (p : Mem Uchar) (len : ℕ) :
    ∀ a ∈ pseudoHeader (load p 8 16) (load p 24 16) (get16 p 4) (p 6) ++
      (load p 40 (len - 40)).map (·.toNat), a < 256 := by
  intro a ha
  simp only [pseudoHeader, List.mem_append, List.mem_map, List.mem_cons, List.not_mem_nil,
    or_false] at ha
  rcases ha with (((⟨b, -, rfl⟩ | ⟨b, -, rfl⟩) | h) | h) | ⟨b, -, rfl⟩
  · exact b.toNat_lt
  · exact b.toNat_lt
  · omega
  · have := (p 6).toNat_lt
    omega
  · exact b.toNat_lt

/-- `make_cksum` is the one's-complement sum, whatever the number of bytes. -/
theorem makeCksum_eq_upperSum (p : Mem Uchar) (hlen : 40 ≤ len) :
    makeCksum p len = upperSum p len := by
  have hsrc : Even ((load p 8 16).map (·.toNat)).length := by simp; decide
  have hdst : Even ((load p 24 16).map (·.toNat)).length := by simp; decide
  have hfour (a b c d : ℕ) : Even [a, b, c, d].length := ⟨2, rfl⟩
  have hlength : (OnesComplement.pairs 256
      [get16 p 4 / 2 ^ 24 % 256, get16 p 4 / 2 ^ 16 % 256, get16 p 4 / 2 ^ 8 % 256,
        get16 p 4 % 256]).sum = get16 p 4 := by
    have := get16_lt p 4
    simp only [OnesComplement.pairs, List.sum_cons, List.sum_nil]
    omega
  have hnext : (OnesComplement.pairs 256 [0, 0, 0, (p 6).toNat]).sum = (p 6).toNat := by
    simp [OnesComplement.pairs]
  have hbytes : byteSum p 8 (len - 8) = byteSum p 8 16 + byteSum p 24 16 +
      byteSum p 40 (len - 40) := by
    have hsplit : len - 8 = 16 + 16 + (len - 40) := by omega
    rw [hsplit, byteSum_append, byteSum_append]
  have htotal : addBytes p len = (OnesComplement.pairs 256
      (pseudoHeader (load p 8 16) (load p 24 16) (get16 p 4) (p 6) ++
        (load p 40 (len - 40)).map (·.toNat))).sum := by
    rw [addBytes_eq, hbytes, byteSum_words p (by decide), byteSum_words p (by decide),
      byteSum_words p (by decide), pseudoHeader]
    simp only [List.append_assoc]
    rw [OnesComplement.pairs_append hsrc, OnesComplement.pairs_append hdst,
      OnesComplement.pairs_append (hfour _ _ _ _), OnesComplement.pairs_append (hfour _ _ _ _)]
    simp only [List.sum_append, hlength, hnext]
    ring
  have hsum := makeCksum_reduces p len
  rw [htotal] at hsum
  exact hsum.unique (OnesComplement.reduces_sum (OnesComplement.pairs_lt (upperSum_lt p len)))

end Ptrtd.Wire
