import Ptrtd.Library.Run
import Ptrtd.Library.SearchTree
import Ptrtd.Model.Tcb

/-! # The connection table of `tcb.c`

The search tree under `tcblist`, with the blocks that are allocated. A block is known by its
address, a number that is never used twice. Of a block this file has what the table reads: the
four fields of the connection, and whether the state is `TCP_LISTEN`.

What `rbtree.c` does to restore the balance is a parameter. The structure of the tree lies in the
blocks themselves, so that it outlives `tcblist` being set to `NULL`: the tree is then detached,
and erasing one of its nodes may put it back. -/

namespace Ptrtd.Table

open SearchTree

/-- An IPv6 address, `uchar[16]`. -/
structure Addr where
  bytes : List Uchar
  length_eq : bytes.length = 16
  deriving DecidableEq

/-- Sixteen zero bytes. -/
def Addr.zero : Addr := ⟨List.replicate 16 0, rfl⟩

/-- What the connection table knows of a `struct tcb`. -/
structure TcbNode where
  addr : ℕ
  listening : Bool
  laddr : Addr
  lport : ℕ
  raddr : Addr
  rport : ℕ
  deriving DecidableEq

/-- A tree of blocks, `struct rb_root`. -/
abbrev TcbTree := ColoredTree TcbNode

/-- `memcmp` on blocks of one length: the difference of the first bytes that differ. -/
def memcmp : List Uchar → List Uchar → ℤ
  | a :: as, b :: bs => if a = b then memcmp as bs else a.toNat - b.toNat
  | _, _ => 0

/-- `tcbcmp`. The source compares `raddr` a second time where `laddr` would be expected. -/
def tcbcmp (a b : TcbNode) : ℤ :=
  let rc : ℤ := b.rport - a.rport
  if rc = 0 then
    let rc : ℤ := b.lport - a.lport
    if rc = 0 then
      let rc := memcmp a.raddr.bytes b.raddr.bytes
      if rc = 0 then memcmp a.raddr.bytes b.raddr.bytes else rc
    else rc
  else rc

/-- The functions of `rbtree.c`: `rb_insert_color` on a node that has just been linked, `rb_erase`
on a node of the tree under the root, and `rb_erase` on a node of a detached tree while the root
is `NULL`. The last yields what is under the root and what remains detached, or nothing where the
source follows a null pointer. -/
structure Rebalance where
  insertColor : TcbNode → TcbTree → TcbTree
  erase : TcbNode → TcbTree → TcbTree
  eraseDetached : TcbNode → TcbTree → Option (TcbTree × TcbTree)

/-- The table: the tree under `tcblist`, the detached tree, the blocks allocated by `tcb_new` and
not freed, and the next address. -/
structure Tcbs where
  root : TcbTree
  detached : TcbTree
  live : List TcbNode
  next : ℕ

/-- `tcb_insert`; `none` for 0, where the block is not linked. -/
def tcbInsert (rb : Rebalance) (root : TcbTree) (t : TcbNode) : Option (TcbTree) :=
  (link tcbcmp t root).map (rb.insertColor t)

/-- The four fields as `tcb_new` and `tcb_find` fill them in: a null address is zero. -/
def tcbNode (addr : ℕ) (listening : Bool) (laddr : Option Addr) (lport : ℕ) (raddr : Option Addr)
    (rport : ℕ) : TcbNode :=
  { addr, listening, laddr := laddr.getD .zero, lport, raddr := raddr.getD .zero, rport }

/-- `tcb_new`, and the state that its caller sets next. The value of `tcb_insert` is ignored. -/
def tcbNew (rb : Rebalance) (s : Tcbs) (laddr : Option Addr) (lport : ℕ) (raddr : Option Addr)
    (rport : ℕ) (listening : Bool) : Tcbs :=
  let t := tcbNode s.next listening laddr lport raddr rport
  { s with
    root := (tcbInsert rb s.root t).getD s.root
    live := t :: s.live
    next := s.next + 1 }

/-- `rb_erase (&t->node, &tcblist)`: the tree under the root and the detached one afterwards. A
block that is in neither has never been linked. Its pointers are `NULL` and it is red, so that it
passes for a root without children. -/
def rbErase (rb : Rebalance) (s : Tcbs) (t : TcbNode) : Option (TcbTree × TcbTree) :=
  if t ∈ inorder s.root then some (rb.erase t s.root, s.detached)
  else if t ∈ inorder s.detached then rb.eraseDetached t s.detached
  else
    match s.root with
    | .nil => some (.nil, s.detached)
    | root => some (.nil, root)

/-- `tcb_delete` -/
def tcbDelete (rb : Rebalance) (s : Tcbs) (t : TcbNode) : Option Tcbs :=
  (rbErase rb s t).map fun (root, detached) =>
    { s with root, detached, live := s.live.erase t }

/-- `tcb_find`, to a given depth of recursion; `none` when that is not enough. Inside is the
value, `none` for `NULL`. -/
def tcbFind (root : TcbTree) :
    ℕ → Option Addr → ℕ → Option Addr → ℕ → Option (Option TcbNode)
  | 0, _, _, _, _ => none
  | depth + 1, laddr, lport, raddr, rport =>
      let needle := tcbNode 0 false laddr lport raddr rport
      match find (tcbcmp needle) root with
      | some t => some (some t)
      | none =>
          if raddr.isNone then tcbFind root depth laddr lport none 0
          else if laddr.isNone then tcbFind root depth none lport none 0
          else if lport > 0 then tcbFind root depth none 0 none 0
          else some none

/-- A segment with the header fields that choose its connection. -/
structure Arrival where
  laddr : Addr
  lport : BitVec 16
  raddr : Addr
  rport : BitVec 16
  tcp : Segment
  deriving DecidableEq

/-- The lookup of `handle_tcp`. Two calls suffice, or no number does. -/
def Arrival.find (p : Arrival) (root : TcbTree) : Option (Option TcbNode) :=
  tcbFind root 2 (some p.laddr) p.lport.toNat (some p.raddr) p.rport.toNat

/-- `handle_tcp`, as far as the table is concerned: a segment whose only flag is SYN makes a
block when the listener is found. What it does to the connection found, and the deletion this may
end in, are not described here. -/
def handleArrival (rb : Rebalance) (s : Tcbs) (p : Arrival) : Option Tcbs :=
  (p.find s.root).map fun
    | none => s
    | some t =>
        if t.listening ∧ p.tcp.flags = 0x2 then
          tcbNew rb s (some p.laddr) p.lport.toNat (some p.raddr) p.rport.toNat false
        else s

/-- `tcp_listen (cb, NULL, 0)` on the empty table. -/
def tcpListen (rb : Rebalance) : Tcbs :=
  tcbNew rb { root := .nil, detached := .nil, live := [], next := 0 } none 0 none 0 true

inductive TableInput
  | segment (p : Arrival)
  | delete (t : TcbNode)
  deriving DecidableEq

/-- A segment arrives, or the block of a connection is deleted. -/
def tableStep (rb : Rebalance) (s : Tcbs) : TableInput → Option Tcbs
  | .segment p => handleArrival rb s p
  | .delete t => if t ∈ s.live ∧ t.listening = false then tcbDelete rb s t else none

/-- The tables that occur, from the one with only the wildcard listener. -/
def TableReached (rb : Rebalance) (s : Tcbs) : Prop :=
  Transition.Run (tableStep rb) Transition.Always (tcpListen rb) s

end Ptrtd.Table
