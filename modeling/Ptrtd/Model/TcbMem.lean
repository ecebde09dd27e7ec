import Ptrtd.Model.Rbtree
import Ptrtd.Model.Table

/-! # The connection table in memory

`tcblist` with the pointers that `tcb.c` and `rbtree.c` follow and write. A pointer to a block is
the block as the table knows it. Loops go at most as often as there are blocks, and a little more.
-/

namespace Ptrtd.Table

open SearchTree

/-- The nodes in the blocks and `tcblist`, the blocks allocated by `tcb_new` and not freed, and
the next address. -/
structure TcbMem where
  mem : RbMem TcbNode
  live : List TcbNode
  next : ℕ

/-- The loop of `tcb_insert`: the parent and the pointer that the block will hang from. Inside,
`none` if a block compares equal. -/
def insertPlace (m : RbMem TcbNode) (tcb : TcbNode) :
    ℕ → Option TcbNode → RbMem.Link TcbNode → Option (Option (Option TcbNode × RbMem.Link TcbNode))
  | 0, _, _ => none
  | fuel + 1, parent, link =>
      match m.follow link with
      | none => some (some (parent, link))
      | some this =>
          let result := tcbcmp tcb this
          if result < 0 then insertPlace m tcb fuel (some this) (.child .left this)
          else if result > 0 then insertPlace m tcb fuel (some this) (.child .right this)
          else some none

/-- `tcb_insert`; inside, `none` for 0. -/
def insertNode (fuel : ℕ) (tcb : TcbNode) (m : RbMem TcbNode) :
    Option (Option (RbMem TcbNode)) := do
  match ← insertPlace m tcb fuel none .root with
  | none => some none
  | some (parent, link) =>
      let m ← (m.linkNode tcb parent link).insertColor fuel tcb
      some (some m)

/-- The loop of `tcb_find_rb` from `node` on. -/
def findRb (m : RbMem TcbNode) (tcb : TcbNode) : ℕ → Option TcbNode → Option (Option TcbNode)
  | _, none => some none
  | 0, some _ => none
  | fuel + 1, some data =>
      let result := tcbcmp tcb data
      if result < 0 then findRb m tcb fuel (m.child .left data)
      else if result > 0 then findRb m tcb fuel (m.child .right data)
      else some (some data)

namespace TcbMem

/-- A bound on the rounds of every loop. -/
def rounds (s : TcbMem) : ℕ := s.live.length + 2

/-- `tcb_new` -/
def new (s : TcbMem) (laddr : Option Addr) (lport : ℕ) (raddr : Option Addr) (rport : ℕ)
    (listening : Bool) : Option TcbMem := do
  let t := tcbNode s.next listening laddr lport raddr rport
  let mem := s.mem.setNode t .zero
  let inserted ← insertNode s.rounds t mem
  some { mem := inserted.getD mem, live := t :: s.live, next := s.next + 1 }

/-- `tcb_delete` -/
def delete (s : TcbMem) (t : TcbNode) : Option TcbMem := do
  let mem ← s.mem.erase s.rounds t
  some { s with mem, live := s.live.erase t }

/-- `tcb_find`, to a given depth of recursion. -/
def find (s : TcbMem) : ℕ → Option Addr → ℕ → Option Addr → ℕ → Option (Option TcbNode)
  | 0, _, _, _, _ => none
  | depth + 1, laddr, lport, raddr, rport => do
      let needle := tcbNode 0 false laddr lport raddr rport
      match ← findRb s.mem needle s.rounds s.mem.root with
      | some t => some (some t)
      | none =>
          if raddr.isNone then s.find depth laddr lport none 0
          else if laddr.isNone then s.find depth none lport none 0
          else if lport > 0 then s.find depth none 0 none 0
          else some none

/-- `handle_tcp`, as far as the table is concerned. -/
def handleArrival (s : TcbMem) (p : Arrival) : Option TcbMem := do
  match ← s.find 2 (some p.laddr) p.lport.toNat (some p.raddr) p.rport.toNat with
  | none => some s
  | some t =>
      if t.listening ∧ p.tcp.flags = 0x2 then
        s.new (some p.laddr) p.lport.toNat (some p.raddr) p.rport.toNat false
      else some s

/-- `tcp_listen (cb, NULL, 0)`, while no block is allocated and `tcblist` is `NULL`. -/
def tcpListen (node : TcbNode → RbNode TcbNode) : Option TcbMem :=
  TcbMem.new { mem := ⟨node, none⟩, live := [], next := 0 } none 0 none 0 true

/-- A segment arrives, or the block of a connection is deleted. -/
def step (s : TcbMem) : TableInput → Option TcbMem
  | .segment p => s.handleArrival p
  | .delete t => if t ∈ s.live ∧ t.listening = false then s.delete t else none

end TcbMem

end Ptrtd.Table
