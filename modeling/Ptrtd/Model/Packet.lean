import Ptrtd.Model.Table

/-! # Packets and checksums (`defs.h`, `pbuf.h`, `util.c`)

A packet buffer from its `d` on, as a builder sees it: the number of bytes asked for, the bytes
themselves, and whether every write has stayed below that number. `get_buffer` hands out zeroed
memory. The link header goes in front of `d` and is left out. -/

namespace Ptrtd.Wire

open Circular (Mem store load load_length)

open Table (Addr)

/-- `GET_16`: the bytes do not overlap, so that the source's `|` adds them. -/
def get16 (p : Mem Uchar) (i : ℕ) : ℕ := (p i).toNat * 256 + (p (i + 1)).toNat

/-- `GET_32`, as the word that both an `int` and a `uint` hold. -/
def get32 (p : Mem Uchar) (i : ℕ) : Uint :=
  BitVec.ofNat 32 (get16 p i * 65536 + get16 p (i + 2))

/-- The address that starts at an index. -/
def getAddr (p : Mem Uchar) (i : ℕ) : Addr := ⟨load p i 16, load_length p i 16⟩

/-- The bytes of `PUT_16`. The shift of a negative `int` is arithmetic. -/
def bytes16 (v : ℤ) : List Uchar := [UInt8.ofInt (v / 256), UInt8.ofInt v]

/-- The bytes of `PUT_32`. -/
def bytes32 (v : ℤ) : List Uchar := bytes16 (v / 65536) ++ bytes16 v

/-- `struct pbuf`. -/
structure Pbuf where
  size : ℕ
  d : Mem Uchar
  dlen : ℤ
  /-- whether every write was below `size`, and no `memcpy` had a negative count -/
  ok : Bool

/-- `get_buffer` of an interface. -/
def getBuffer (size : ℕ) : Pbuf := { size, d := fun _ => 0, dlen := 0, ok := true }

namespace Pbuf

def write (p : Pbuf) (i : ℕ) (l : List Uchar) : Pbuf :=
  { p with d := store p.d i l, ok := p.ok && decide (i + l.length ≤ p.size) }

/-- `memcpy (p->d + i, src + j, n)` -/
def memcpy (p : Pbuf) (i : ℕ) (src : Mem Uchar) (j : ℕ) (n : ℤ) : Pbuf :=
  if n < 0 then { p with ok := false } else p.write i (load src j n.toNat)

/-- `memset (p->d, 0, n)` -/
def clear (p : Pbuf) (n : ℕ) : Pbuf := p.write 0 (List.replicate n 0)

def put16 (p : Pbuf) (i : ℕ) (v : ℤ) : Pbuf := p.write i (bytes16 v)

def put32 (p : Pbuf) (i : ℕ) (v : ℤ) : Pbuf := p.write i (bytes32 v)

end Pbuf

/-! ## The checksum -/

/-- What the byte at an index adds to the sum: the even ones are high bytes. -/
def weight (p : Mem Uchar) (i : ℕ) : ℕ := if i % 2 = 1 then (p i).toNat else (p i).toNat * 256

/-- The loop that brings a sum down to 16 bits. -/
def foldCarry (c : ℕ) : ℕ := if c > 0xffff then foldCarry (c / 65536 + c % 65536) else c

/-- The `for` loop of `make_cksum`. Up to 32 kB the sum fits an `int`. -/
def addBytes (p : Mem Uchar) (len : ℕ) : ℕ :=
  (List.range' 8 (len - 8)).foldl (fun c i => c + weight p i) (get16 p 4 + (p 6).toNat)

def makeCksum (p : Mem Uchar) (len : ℕ) : ℕ := foldCarry (addBytes p len)

end Ptrtd.Wire
