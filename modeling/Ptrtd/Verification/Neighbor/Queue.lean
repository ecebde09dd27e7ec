import Ptrtd.Library.Run
import Ptrtd.Verification.Neighbor.Table

/-! # Packets that wait for a neighbor

A packet handed to `send_pkt` goes out at once or waits in the queue of its next hop. When the
hop's address is learned the queue goes out in front of everything that is handed in later. -/

namespace Ptrtd.Wire

open Table (Addr)
open scoped List

/-- The packets sent to a single neighbor so far. -/
def Nd.unicasts (s : Nd) : List Pbuf :=
  s.sent.filterMap fun x => match x.2 with
    | .unicast _ => some x.1
    | _ => none

/-- The packets that wait for a next hop. -/
def Nd.queueFor (s : Nd) (a : Addr) : List Pbuf := (s.findNeighbor a).elim [] (·.queue)

/-- The packets with a given next hop. -/
def toward (a : Addr) (l : List Pbuf) : List Pbuf := l.filter fun p => Nd.nextHop p = a

theorem toward_append (a : Addr) (l l' : List Pbuf) :
    toward a (l ++ l') = toward a l ++ toward a l' :=
  List.filter_append ..

theorem toward_all {a : Addr} {l : List Pbuf} (h : ∀ p ∈ l, Nd.nextHop p = a) :
    toward a l = l :=
  List.filter_eq_self.mpr fun p hp => decide_eq_true (h p hp)

theorem toward_none {a : Addr} {l : List Pbuf} (h : ∀ p ∈ l, Nd.nextHop p ≠ a) :
    toward a l = [] :=
  List.filter_eq_nil_iff.mpr fun p hp => by simpa using h p hp

/-- Everything handed to `send_pkt` has gone out or waits, in the order of its next hop. -/
structure Accounted (s : Nd) (handed : List Pbuf) : Prop where
  distinct : s.Distinct
  once : handed ~ s.unicasts ++ s.nlist.flatMap (·.queue)
  inOrder : ∀ a, toward a handed = toward a s.unicasts ++ s.queueFor a
  drained : ∀ a n, s.findNeighbor a = some n → n.state = .reachable → n.queue = []
  homed : ∀ a n, s.findNeighbor a = some n → ∀ p ∈ n.queue, Nd.nextHop p = a ∧ p.d 24 ≠ 0xff

variable {iface : Iface} {s : Nd} {handed : List Pbuf} {a : Addr} {n : Neighbor} {p : Pbuf}
  {lladdr : Option (List Uchar)}

/-! ## One packet -/

theorem unicasts_transmit (hw : Option (List Uchar)) :
    (s.transmit p (.unicast hw)).unicasts = s.unicasts ++ [p] := by
  simp [Nd.unicasts, Nd.transmit]

theorem unicasts_multicast : (s.transmit p .multicast).unicasts = s.unicasts := by
  simp [Nd.unicasts, Nd.transmit]

theorem Accounted.multicast (h : Accounted s handed) :
    Accounted (s.transmit p .multicast) handed := by
  refine ⟨h.distinct, ?_, ?_, h.drained, h.homed⟩
  · rw [unicasts_multicast]
    exact h.once
  · rw [unicasts_multicast]
    exact h.inOrder

/-- A packet for a neighbor that is reachable: nothing waits in front of it. -/
theorem Accounted.transmit (h : Accounted s handed) (hfind : s.findNeighbor (Nd.nextHop p) = some n)
    (hstate : n.state = .reachable) (hw : Option (List Uchar)) :
    Accounted (s.transmit p (.unicast hw)) (handed ++ [p]) := by
  refine ⟨h.distinct, ?_, ?_, h.drained, h.homed⟩
  · rw [unicasts_transmit]
    calc
      handed ++ [p] ~ s.unicasts ++ s.nlist.flatMap (·.queue) ++ [p] := h.once.append_right [p]
      _ ~ s.unicasts ++ ([p] ++ s.nlist.flatMap (·.queue)) := by
        rw [List.append_assoc]
        exact List.perm_append_comm.append_left _
      _ = s.unicasts ++ [p] ++ s.nlist.flatMap (·.queue) := (List.append_assoc ..).symm
  · intro a
    rw [unicasts_transmit, toward_append, toward_append, h.inOrder a]
    change toward a s.unicasts ++ s.queueFor a ++ toward a [p] =
      toward a s.unicasts ++ toward a [p] ++ s.queueFor a
    by_cases ha : Nd.nextHop p = a
    · have hempty : s.queueFor a = [] := by
        rw [Nd.queueFor, ← ha, hfind]
        exact h.drained _ n hfind hstate
      rw [hempty, List.append_nil, List.append_nil]
    · have hnone : toward a [p] = [] := toward_none (by simpa using ha)
      rw [hnone, List.append_nil, List.append_nil]

/-- A packet for a neighbor that is not reachable waits behind the others. -/
theorem Accounted.queue (h : Accounted s handed) (hfind : s.findNeighbor (Nd.nextHop p) = some n)
    (hstate : n.state ≠ .reachable) (hunicast : p.d 24 ≠ 0xff) :
    Accounted (s.queuePacket (Nd.nextHop p) p) (handed ++ [p]) := by
  have hupdate := fun d => Nd.find_update (s := s) (a := Nd.nextHop p) (d := d)
    (f := fun n => { n with queue := n.queue ++ [p] }) fun _ => rfl
  refine ⟨h.distinct.update fun _ => rfl, ?_, ?_, ?_, ?_⟩
  · have hqueued := Nd.queued_update (f := fun n => { n with queue := n.queue ++ [p] }) hfind
    have hmore : (s.queuePacket (Nd.nextHop p) p).nlist.flatMap (·.queue) ~
        [p] ++ s.nlist.flatMap (·.queue) := by
      rw [List.append_assoc] at hqueued
      exact (List.perm_append_left_iff _).mp hqueued
    calc
      handed ++ [p] ~ s.unicasts ++ s.nlist.flatMap (·.queue) ++ [p] := h.once.append_right [p]
      _ ~ s.unicasts ++ ([p] ++ s.nlist.flatMap (·.queue)) := by
        rw [List.append_assoc]
        exact List.perm_append_comm.append_left _
      _ ~ s.unicasts ++ (s.queuePacket (Nd.nextHop p) p).nlist.flatMap (·.queue) :=
        hmore.symm.append_left _
  · intro a
    rw [toward_append, h.inOrder a, List.append_assoc]
    change toward a s.unicasts ++ (s.queueFor a ++ toward a [p]) =
      toward a s.unicasts ++ (s.queuePacket (Nd.nextHop p) p).queueFor a
    rw [Nd.queueFor, Nd.queueFor, Nd.queuePacket, hupdate a]
    by_cases ha : a = Nd.nextHop p
    · have hself : toward a [p] = [p] := toward_all (by simpa using ha.symm)
      rw [if_pos ha, hself, ha, hfind]
      rfl
    · have hnone : toward a [p] = [] := toward_none (by simpa using fun h => ha h.symm)
      rw [if_neg ha, hnone, List.append_nil]
  · intro a m hm hreach
    rw [Nd.queuePacket, hupdate a] at hm
    split at hm
    · rw [hfind, Option.map_some, Option.some.injEq] at hm
      rw [← hm] at hreach
      exact absurd hreach hstate
    · exact h.drained a m hm hreach
  · intro a m hm q hq
    rw [Nd.queuePacket, hupdate a] at hm
    split at hm
    · next ha =>
        rw [hfind, Option.map_some, Option.some.injEq] at hm
        rw [← hm] at hq
        rcases List.mem_append.mp hq with hold | hnew
        · rw [ha]
          exact h.homed _ n hfind q hold
        · obtain rfl := List.mem_singleton.mp hnew
          exact ⟨ha.symm, hunicast⟩
    · exact h.homed a m hm q hq

/-- A new entry has nothing waiting. -/
theorem Accounted.addNeighbor (h : Accounted s handed) (hnone : s.findNeighbor a = none)
    (lladdr : Option (List Uchar)) : Accounted (s.addNeighbor iface a lladdr) handed := by
  have hnew : ∀ d m, (s.addNeighbor iface a lladdr).findNeighbor d = some m →
      m.queue = [] ∨ s.findNeighbor d = some m := by
    intro d m hm
    by_cases hd : d = a
    · left
      obtain rfl : _ = m := by simpa [Nd.findNeighbor, Nd.addNeighbor, hd] using hm
      rfl
    · exact .inr (by rwa [Nd.find_addNeighbor hd] at hm)
  refine ⟨h.distinct.addNeighbor hnone, h.once, ?_, ?_, ?_⟩
  · intro d
    have hqueue : (s.addNeighbor iface a lladdr).queueFor d = s.queueFor d := by
      by_cases hd : d = a
      · rw [Nd.queueFor, Nd.queueFor, hd, hnone]
        simp [Nd.findNeighbor, Nd.addNeighbor]
      · rw [Nd.queueFor, Nd.queueFor, Nd.find_addNeighbor hd]
    rw [hqueue]
    exact h.inOrder d
  · intro d m hm hreach
    rcases hnew d m hm with hempty | hold
    · exact hempty
    · exact h.drained d m hold hreach
  · intro d m hm q hq
    rcases hnew d m hm with hempty | hold
    · rw [hempty] at hq
      cases hq
    · exact h.homed d m hold q hq

theorem Accounted.sendPkt (h : Accounted s handed) (hlen : 0 < iface.hwaddrLen)
    (hunicast : p.d 24 ≠ 0xff) : Accounted (s.sendPkt iface p) (handed ++ [p]) := by
  rw [Nd.sendPkt, if_neg hunicast, if_pos hlen]
  dsimp only
  split
  · next n hfind =>
      split
      · next hstate => exact h.transmit hfind hstate _
      · next hstate => exact h.queue hfind hstate hunicast
  · next hnone =>
      have hns : Accounted (Nd.icmpSendNs iface s (Nd.nextHop p)) handed := h.multicast
      have hadd : Accounted (Nd.addNeighbor iface (Nd.icmpSendNs iface s (Nd.nextHop p))
          (Nd.nextHop p) none) handed := hns.addNeighbor hnone none
      apply hadd.queue (n := ⟨[], .incomplete, Nd.nextHop p, none⟩) _ (by simp) hunicast
      simp [Nd.findNeighbor, Nd.addNeighbor]
      exact Nat.ne_of_gt hlen

/-! ## A learned neighbor -/

/-- While a neighbor is reachable, packets toward it go out one after the other. -/
theorem foldl_sendPkt (hlen : 0 < iface.hwaddrLen) {l : List Pbuf}
    (hfind : s.findNeighbor a = some n) (hstate : n.state = .reachable)
    (hl : ∀ p ∈ l, Nd.nextHop p = a ∧ p.d 24 ≠ 0xff) :
    l.foldl (Nd.sendPkt iface) s =
      { s with sent := s.sent ++ l.map fun p => (p, .unicast n.linkaddr) } := by
  induction l generalizing s with
  | nil => simp
  | cons p l ih =>
      have hp := hl p List.mem_cons_self
      have hsend : s.sendPkt iface p = s.transmit p (.unicast n.linkaddr) := by
        simp [Nd.sendPkt, hp.2, hlen, hp.1, hfind, hstate]
      rw [List.foldl_cons, hsend, ih (s := s.transmit p (.unicast n.linkaddr)) hfind]
      · simp [Nd.transmit]
      · intro q hq
        exact hl q (List.mem_cons_of_mem p hq)

/-- What `got_neighbor` comes to when there is an entry: its queue is sent and emptied. -/
theorem gotNeighbor_eq (h : Accounted s handed) (hlen : 0 < iface.hwaddrLen)
    (hfind : s.findNeighbor a = some n) :
    s.gotNeighbor iface a lladdr =
      { s.update a fun n =>
          { n with linkaddr := lladdr.or n.linkaddr, state := .reachable, queue := [] } with
        sent := s.sent ++ n.queue.map fun p => (p, .unicast (lladdr.or n.linkaddr)) } := by
  obtain ⟨set, hset⟩ : ∃ set : Neighbor → Neighbor, set = fun n =>
    { n with linkaddr := lladdr.or n.linkaddr, state := .reachable } := ⟨_, rfl⟩
  have haddr : ∀ n, (set n).addr = n.addr := by
    intro n
    rw [hset]
  have hfound : (s.update a set).findNeighbor a = some (set n) := by
    rw [Nd.find_update haddr, if_pos rfl, hfind]
    rfl
  simp only [Nd.gotNeighbor, hfind, ← hset]
  by_cases hempty : n.queue = []
  · have hcongr : s.update a set = s.update a fun n =>
        { n with linkaddr := lladdr.or n.linkaddr, state := .reachable, queue := [] } := by
      apply Nd.update_congr hfind
      rw [hset, ← hempty]
    simp only [hempty, List.isEmpty_nil, if_true, List.map_nil, List.append_nil, hcongr]
    rfl
  · have hstate : (set n).state = .reachable := by rw [hset]
    have hlink : (set n).linkaddr = lladdr.or n.linkaddr := by rw [hset]
    have hupdate := Nd.update_update (s := s) (a := a) (g := fun n => { n with queue := [] }) haddr
    have hne : n.queue.isEmpty = false := by simpa using hempty
    simp only [hne, Bool.false_eq_true, if_false]
    rw [foldl_sendPkt hlen hfound hstate (h.homed a n hfind), hlink]
    simp only [Nd.update, Nd.mk.injEq, and_true] at hupdate ⊢
    rw [hupdate, hset]

/-- The queue of an entry goes out as it stands. -/
theorem Accounted.drain (h : Accounted s handed) (hfind : s.findNeighbor a = some n)
    (hw : Option (List Uchar)) {f : Neighbor → Neighbor} (haddr : ∀ n, (f n).addr = n.addr)
    (hempty : ∀ n, (f n).queue = []) :
    Accounted { s.update a f with sent := s.sent ++ n.queue.map fun p => (p, .unicast hw) }
      handed := by
  have hupdate := fun d => Nd.find_update (s := s) (a := a) (d := d) haddr
  have hsent : ({ s.update a f with
      sent := s.sent ++ n.queue.map fun p => (p, .unicast hw) } : Nd).unicasts =
      s.unicasts ++ n.queue := by
    simp [Nd.unicasts]
  refine ⟨h.distinct.update haddr, ?_, ?_, ?_, ?_⟩
  · have hqueued := Nd.queued_update (f := f) hfind
    rw [hempty, List.nil_append] at hqueued
    rw [hsent, List.append_assoc]
    exact h.once.trans (hqueued.symm.append_left _)
  · intro d
    rw [hsent, toward_append, h.inOrder d, List.append_assoc]
    congr 1
    change (s.findNeighbor d).elim [] (·.queue) =
      toward d n.queue ++ ((s.update a f).findNeighbor d).elim [] (·.queue)
    rw [hupdate d]
    by_cases hd : d = a
    · rw [if_pos hd, hd, hfind, toward_all fun p hp => (h.homed a n hfind p hp).1]
      simp [hempty]
    · have hnone : toward d n.queue = [] := by
        apply toward_none
        intro p hp heq
        exact hd (heq.symm.trans (h.homed a n hfind p hp).1)
      rw [if_neg hd, hnone, List.nil_append]
  · intro d m hm hreach
    change (s.update a f).findNeighbor d = some m at hm
    rw [hupdate d] at hm
    split at hm
    · obtain ⟨x, -, rfl⟩ := Option.map_eq_some_iff.mp hm
      exact hempty x
    · exact h.drained d m hm hreach
  · intro d m hm q hq
    change (s.update a f).findNeighbor d = some m at hm
    rw [hupdate d] at hm
    split at hm
    · obtain ⟨x, -, rfl⟩ := Option.map_eq_some_iff.mp hm
      rw [hempty] at hq
      cases hq
    · exact h.homed d m hm q hq

theorem Accounted.gotNeighbor (h : Accounted s handed) (hlen : 0 < iface.hwaddrLen) :
    Accounted (s.gotNeighbor iface a lladdr) handed := by
  cases hfind : s.findNeighbor a with
  | none =>
      rw [Nd.gotNeighbor, hfind]
      exact h.addNeighbor hfind lladdr
  | some n =>
      rw [gotNeighbor_eq h hlen hfind]
      exact h.drain hfind _ (fun _ => rfl) fun _ => rfl

/-! ## Runs -/

inductive NdInput
  | send (p : Pbuf)
  | got (addr : Addr) (lladdr : Option (List Uchar))

/-- The neighbors, and the packets handed to `send_pkt` so far. -/
def ndStep (iface : Iface) (x : Nd × List Pbuf) : NdInput → Option (Nd × List Pbuf)
  | .send p => some (x.1.sendPkt iface p, x.2 ++ [p])
  | .got addr lladdr => some (x.1.gotNeighbor iface addr lladdr, x.2)

/-- The packets handed to `send_pkt` are unicast. -/
def SendsUnicast (_x : Nd × List Pbuf) : NdInput → Prop
  | .send p => p.d 24 ≠ 0xff
  | .got _ _ => True

instance (x : Nd × List Pbuf) (i : NdInput) : Decidable (SendsUnicast x i) := by
  cases i <;> unfold SendsUnicast <;> infer_instance

theorem accounted_init : Accounted Nd.init [] := by
  refine ⟨List.nodup_nil, List.Perm.refl _, fun a => rfl, ?_, ?_⟩
  · intro a n hn
    cases hn
  · intro a n hn
    cases hn

/-- No packet is lost or duplicated: what was handed in has been sent or is in one queue, the
packets for one next hop leave in order, a reachable neighbor has nothing waiting, and each
neighbor has one entry. -/
theorem accounted_of_run (hlen : 0 < iface.hwaddrLen) {x : Nd × List Pbuf}
    (hrun : Transition.Run (ndStep iface) SendsUnicast (Nd.init, []) x) :
    x.2 ~ x.1.unicasts ++ x.1.nlist.flatMap (·.queue) ∧
      (∀ a, toward a x.2 = toward a x.1.unicasts ++ x.1.queueFor a) ∧
      (∀ n ∈ x.1.nlist, n.state = .reachable → n.queue = []) ∧
      (x.1.nlist.map (·.addr)).Nodup := by
  have hinv : Accounted x.1 x.2 := by
    induction hrun with
    | refl => exact accounted_init
    | @tail t u i _ hok hstep ih =>
        cases i with
        | send p =>
            obtain rfl := Option.some.inj hstep
            exact ih.sendPkt hlen hok
        | got addr lladdr =>
            obtain rfl := Option.some.inj hstep
            exact ih.gotNeighbor hlen
  refine ⟨hinv.once, hinv.inOrder, ?_, hinv.distinct⟩
  intro n hn
  exact hinv.drained _ n (hinv.distinct.find hn)

/-- Two packets wait for the router and leave when its address is learned. -/
theorem accounted_of_run_router : ∃ x : Nd × List Pbuf,
    x.2.length = 2 ∧ x.1.unicasts.length = 2 ∧ x.1.sent.length = 3 ∧
      ∀ a, toward a x.2 = toward a x.1.unicasts ++ x.1.queueFor a := by
  have hlen : 0 < tapIface.hwaddrLen := by decide
  have hexec : (Transition.exec (ndStep tapIface) SendsUnicast (Nd.init, [])
      [.send (getBuffer 48), .send ((getBuffer 48).write 40 [1]),
        .got otherlladdr (some [2, 0, 0, 0, 0, 1])]).any
      (fun x => x.2.length = 2 ∧ x.1.unicasts.length = 2 ∧ x.1.sent.length = 3) = true := by
    decide +kernel
  obtain ⟨x, hrun, hx⟩ := Transition.exists_run_of_exec hexec
  obtain ⟨hhanded, hunicasts, hsent⟩ := of_decide_eq_true hx
  exact ⟨x, hhanded, hunicasts, hsent, (accounted_of_run hlen hrun).2.1⟩

end Ptrtd.Wire
