import Ptrtd.Library.Run
import Ptrtd.Verification.Neighbor.Table
import Ptrtd.Verification.Packet.Builders

/-! # What the neighbor list claims

An entry is reachable because its address has sent its hardware address, and incomplete because
it has been asked for it. An advertisement without the option breaks both: it makes an entry
reachable whatever is known of it, and makes an entry that nobody has been asked about. -/

namespace Ptrtd.Wire

open Circular (load)
open Table (Addr)

/-- A solicitation or an advertisement whose link-layer address option is where the source looks
for it, and lies within the packet. -/
def Recv.HasLladdr (iface : Iface) (r : Recv) : Prop :=
  (r.d 40 = 135 ∧ r.d 64 = 1 ∨ r.d 40 = 136 ∧ r.d 64 = 2) ∧ 66 + iface.hwaddrLen ≤ r.len

/-- The hardware address came in an option from this address. -/
def Learned (iface : Iface) (received : List Recv) (a : Addr) (linkaddr : Option (List Uchar)) :
    Prop :=
  ∃ r ∈ received, r.HasLladdr iface ∧ r.src = a ∧ linkaddr = some (r.lladdr iface)

/-- A neighbor solicitation for this address has been sent. -/
def Solicited (sent : List (Pbuf × LinkDest)) (a : Addr) : Prop :=
  ∃ x ∈ sent, x.1.d 6 = 58 ∧ x.1.d 40 = 135 ∧ getAddr x.1.d 48 = a

/-- The list of neighbors is backed by what has been received and sent. -/
structure Backed (iface : Iface) (received : List Recv) (s : Nd) : Prop where
  distinct : s.Distinct
  reachable : ∀ a n, s.findNeighbor a = some n → n.state = .reachable →
    Learned iface received a n.linkaddr
  incomplete : ∀ a n, s.findNeighbor a = some n → n.state = .incomplete → Solicited s.sent a

variable {iface : Iface} {s : Nd} {received : List Recv} {a : Addr} {n : Neighbor} {p : Pbuf}
  {r : Recv} {lladdr : Option (List Uchar)}

theorem Solicited.mono {sent : List (Pbuf × LinkDest)} (h : Solicited sent a)
    (more : List (Pbuf × LinkDest)) : Solicited (sent ++ more) a := by
  obtain ⟨x, hx, hsolicits⟩ := h
  exact ⟨x, List.mem_append_left more hx, hsolicits⟩

theorem Learned.mono {linkaddr : Option (List Uchar)} (h : Learned iface received a linkaddr)
    (more : List Recv) : Learned iface (received ++ more) a linkaddr := by
  obtain ⟨r, hr, hlearned⟩ := h
  exact ⟨r, List.mem_append_left more hr, hlearned⟩

theorem Backed.receive (h : Backed iface received s) (r : Recv) :
    Backed iface (received ++ [r]) s :=
  ⟨h.distinct, fun a n hn hstate => (h.reachable a n hn hstate).mono [r], h.incomplete⟩

/-! ## Sending -/

theorem Backed.transmit (h : Backed iface received s) (p : Pbuf) (hw : LinkDest) :
    Backed iface received (s.transmit p hw) :=
  ⟨h.distinct, h.reachable, fun a n hn hstate => (h.incomplete a n hn hstate).mono _⟩

theorem Backed.update (h : Backed iface received s) {f : Neighbor → Neighbor}
    (haddr : ∀ n, (f n).addr = n.addr)
    (hreach : ∀ n, s.findNeighbor a = some n → (f n).state = .reachable →
      Learned iface received a (f n).linkaddr)
    (hinc : ∀ n, s.findNeighbor a = some n → (f n).state = .incomplete → Solicited s.sent a) :
    Backed iface received (s.update a f) := by
  refine ⟨h.distinct.update haddr, ?_, ?_⟩
  · intro d m hm hstate
    rcases Nd.find_update_cases haddr hm with ⟨rfl, n, hn, rfl⟩ | hold
    · exact hreach n hn hstate
    · exact h.reachable d m hold hstate
  · intro d m hm hstate
    rcases Nd.find_update_cases haddr hm with ⟨rfl, n, hn, rfl⟩ | hold
    · exact hinc n hn hstate
    · exact h.incomplete d m hold hstate

/-- Changing the queue of an entry does not matter. -/
theorem Backed.requeue (h : Backed iface received s) (g : Neighbor → List Pbuf) :
    Backed iface received (s.update a fun n => { n with queue := g n }) :=
  h.update (fun _ => rfl) (fun n hn => h.reachable a n hn) fun n hn => h.incomplete a n hn

theorem Backed.addNeighbor (h : Backed iface received s) (hlen : 0 < iface.hwaddrLen)
    (hnone : s.findNeighbor a = none)
    (hreach : lladdr.isSome → Learned iface received a lladdr)
    (hinc : lladdr = none → Solicited s.sent a) :
    Backed iface received (s.addNeighbor iface a lladdr) := by
  have hnew : ∀ d m, (s.addNeighbor iface a lladdr).findNeighbor d = some m →
      (d = a ∧ m.linkaddr = lladdr ∧
        m.state = if lladdr.isSome then .reachable else .incomplete) ∨
        s.findNeighbor d = some m := by
    intro d m hm
    by_cases hd : d = a
    · left
      obtain rfl : _ = m := by simpa [Nd.findNeighbor, Nd.addNeighbor, hd] using hm
      simp [hd, Nat.ne_of_gt hlen]
    · exact .inr (by rwa [Nd.find_addNeighbor hd] at hm)
  refine ⟨h.distinct.addNeighbor hnone, ?_, ?_⟩
  · intro d m hm hstate
    rcases hnew d m hm with ⟨rfl, hlink, hm⟩ | hold
    · rw [hlink]
      apply hreach
      by_contra hsome
      rw [if_neg hsome, hstate] at hm
      cases hm
    · exact h.reachable d m hold hstate
  · intro d m hm hstate
    rcases hnew d m hm with ⟨rfl, hlink, hm⟩ | hold
    · apply hinc
      cases lladdr with
      | none => rfl
      | some l =>
          rw [hstate] at hm
          cases hm
    · exact h.incomplete d m hold hstate

/-- A neighbor solicitation names the address it asks about. -/
theorem icmpNs_solicits (iface : Iface) (dest : Addr) :
    (icmpNs iface dest).d 6 = 58 ∧ (icmpNs iface dest).d 40 = 135 ∧
      getAddr (icmpNs iface dest).d 48 = dest := by
  have hbody : ∀ x, 48 ≤ x → x < 64 →
      (icmpNs iface dest).d x = ((getBuffer 128).write 48 dest.bytes).d x := by
    intro x hlo hhi
    rw [icmpNs]
    dsimp only
    rw [finishIcmp_body hlo, putHwaddr]
    split
    · simp only [Pbuf.write_d]
      rw [store_apart, store_apart, store_apart]
      all_goals omega
    · rfl
  refine ⟨finishIcmp_next, finishIcmp_type, ?_⟩
  have hload : load (icmpNs iface dest).d 48 16 =
      load ((getBuffer 128).write 48 dest.bytes).d 48 16 :=
    load_congr hbody
  have hall := load_store (p := (getBuffer 128).d) (i := 48) (l := dest.bytes)
  rw [addr_length] at hall
  simp only [getAddr, hload, Pbuf.write_d, hall]

theorem Backed.sendPkt (h : Backed iface received s) (hlen : 0 < iface.hwaddrLen) (p : Pbuf) :
    Backed iface received (s.sendPkt iface p) := by
  rw [Nd.sendPkt, if_pos hlen]
  split
  · exact h.transmit p _
  · dsimp only
    split
    · split
      · exact h.transmit p _
      · exact h.requeue _
    · next hnone =>
        have hns := h.transmit (icmpNs iface (Nd.nextHop p)) .multicast
        have hadd : Backed iface received (Nd.addNeighbor iface
            (s.transmit (icmpNs iface (Nd.nextHop p)) .multicast) (Nd.nextHop p) none) :=
          hns.addNeighbor hlen hnone nofun
            fun _ => ⟨_, List.mem_append_right _ (List.mem_singleton_self _), icmpNs_solicits ..⟩
        exact hadd.requeue _

/-! ## Receiving -/

theorem Backed.foldl_sendPkt (hlen : 0 < iface.hwaddrLen) (l : List Pbuf)
    (h : Backed iface received s) : Backed iface received (l.foldl (Nd.sendPkt iface) s) := by
  induction l generalizing s with
  | nil => exact h
  | cons p l ih => exact ih (h.sendPkt hlen p)

theorem Backed.gotNeighbor (h : Backed iface received s) (hlen : 0 < iface.hwaddrLen)
    (hknown : (lladdr.isSome ∧ Learned iface received a lladdr) ∨
      lladdr = none ∧ ∃ n, s.findNeighbor a = some n ∧ n.state = .reachable) :
    Backed iface received (s.gotNeighbor iface a lladdr) := by
  rw [Nd.gotNeighbor]
  split
  · next n hfind =>
      have hset : Backed iface received (s.update a fun n =>
          { n with linkaddr := lladdr.or n.linkaddr, state := .reachable }) := by
        refine h.update (fun _ => rfl) ?_ ?_
        · intro m hm _
          rcases hknown with ⟨hsome, hlearned⟩ | ⟨rfl, x, hx, hreach⟩
          · obtain ⟨l, rfl⟩ := Option.isSome_iff_exists.mp hsome
            exact hlearned
          · obtain rfl := Option.some.inj (hm.symm.trans hx)
            exact h.reachable a m hm hreach
        · intro m _ hstate
          cases hstate
      dsimp only
      split
      · exact hset
      · exact (hset.foldl_sendPkt hlen n.queue).requeue _
  · next hnone =>
      rcases hknown with ⟨hsome, hlearned⟩ | ⟨-, x, hx, -⟩
      · refine h.addNeighbor hlen hnone (fun _ => hlearned) ?_
        rintro rfl
        cases hsome
      · rw [hnone] at hx
        cases hx

/-- Every option lies within its packet, and an advertisement without one comes from a neighbor
that is reachable. -/
def Heard (iface : Iface) (s : Nd) (r : Recv) : Prop :=
  (r.d 40 = 135 ∧ r.d 64 = 1 → 66 + iface.hwaddrLen ≤ r.len) ∧
    (r.d 40 = 136 → if r.d 64 = 2 then 66 + iface.hwaddrLen ≤ r.len
      else (s.findNeighbor r.src).any fun n => n.state = .reachable)

instance (iface : Iface) (s : Nd) (r : Recv) : Decidable (Heard iface s r) := by
  unfold Heard
  infer_instance

theorem Backed.handleIcmp (h : Backed iface (received ++ [r]) s) (hlen : 0 < iface.hwaddrLen)
    (hheard : Heard iface s r) : Backed iface (received ++ [r]) (handleIcmp iface s r) := by
  have hmem : r ∈ received ++ [r] := List.mem_append_right _ (List.mem_singleton_self r)
  have hlearned : r.HasLladdr iface →
      Learned iface (received ++ [r]) r.src (some (r.lladdr iface)) :=
    fun hopt => ⟨r, hmem, hopt, rfl, rfl⟩
  rw [Wire.handleIcmp]
  split
  · exact h.sendPkt hlen _
  · split
    · next htype =>
        dsimp only
        have hgot : Backed iface (received ++ [r])
            (if iface.hwaddrLen > 0 ∧ r.d 64 = 1 then s.gotNeighbor iface r.src (r.lladdr iface)
              else s) := by
          split
          · next hopt =>
              apply h.gotNeighbor hlen
              exact .inl ⟨rfl, hlearned ⟨.inl ⟨htype, hopt.2⟩, hheard.1 ⟨htype, hopt.2⟩⟩⟩
          · exact h
        split
        · exact hgot.sendPkt hlen _
        · exact hgot
    · split
      · next htype =>
          have hoption := hheard.2 htype
          split
          · next hopt =>
              rw [if_pos hopt.2] at hoption
              apply h.gotNeighbor hlen
              exact .inl ⟨rfl, hlearned ⟨.inr ⟨htype, hopt.2⟩, hoption⟩⟩
          · next hopt =>
              rw [if_neg fun hkind => hopt ⟨hlen, hkind⟩] at hoption
              obtain ⟨n, hfind, hstate⟩ := (Option.any_eq_true _ _).mp hoption
              apply h.gotNeighbor hlen
              exact .inr ⟨rfl, n, hfind, of_decide_eq_true hstate⟩
      · exact h

/-! ## Runs -/

/-- A packet is handed to `send_pkt`, or an ICMP message arrives. -/
inductive CacheInput
  | send (p : Pbuf)
  | icmp (r : Recv)

/-- The neighbors, and the messages received so far. -/
def cacheStep (iface : Iface) (x : Nd × List Recv) : CacheInput → Option (Nd × List Recv)
  | .send p => some (x.1.sendPkt iface p, x.2)
  | .icmp r => some (handleIcmp iface x.1 r, x.2 ++ [r])

def HeardAll (iface : Iface) (x : Nd × List Recv) : CacheInput → Prop
  | .send _ => True
  | .icmp r => Heard iface x.1 r

instance (iface : Iface) (x : Nd × List Recv) (i : CacheInput) :
    Decidable (HeardAll iface x i) := by
  cases i <;> unfold HeardAll <;> infer_instance

/-- When no advertisement without an option is heard from a neighbor that is not reachable, a
reachable entry has a hardware address that its neighbor sent, and an incomplete one has been
solicited. -/
theorem backed_of_heard (hlen : 0 < iface.hwaddrLen) {x : Nd × List Recv}
    (hrun : Transition.Run (cacheStep iface) (HeardAll iface) (Nd.init, []) x) :
    (∀ n ∈ x.1.nlist, n.state = .reachable → Learned iface x.2 n.addr n.linkaddr) ∧
      ∀ n ∈ x.1.nlist, n.state = .incomplete → Solicited x.1.sent n.addr := by
  have hinit : Backed iface [] Nd.init := by
    refine ⟨List.nodup_nil, ?_, ?_⟩
    · intro a n hn
      cases hn
    · intro a n hn
      cases hn
  have hinv : Backed iface x.2 x.1 := by
    induction hrun with
    | refl => exact hinit
    | @tail t u i _ hok hstep ih =>
        cases i with
        | send p =>
            obtain rfl := Option.some.inj hstep
            exact ih.sendPkt hlen p
        | icmp r =>
            obtain rfl := Option.some.inj hstep
            exact (ih.receive r).handleIcmp hlen hok
  constructor
  · intro n hn
    exact hinv.reachable _ n (hinv.distinct.find hn)
  · intro n hn
    exact hinv.incomplete _ n (hinv.distinct.find hn)

/-- An advertisement from `fe80::1`, with the option that the bytes behind the target make up. -/
def advertisement (option : List Uchar) : Recv where
  bytes := [0x60, 0, 0, 0, 0, 32, 58, 255] ++ otherlladdr.bytes ++ mylladdr.bytes ++
    [136, 0, 0, 0, 0x60, 0, 0, 0] ++ otherlladdr.bytes ++ option
  cap := 64 + option.length
  fits := by
    simp [otherlladdr, mylladdr]
    omega

/-- The router is asked for, and answers with its address. -/
theorem backed_of_heard_router : ∃ x : Nd × List Recv,
    x.1.nlist.any (fun n => n.addr = otherlladdr ∧ n.state = .reachable) = true ∧
      ∀ n ∈ x.1.nlist, n.state = .reachable → Learned tapIface x.2 n.addr n.linkaddr := by
  have hlen : 0 < tapIface.hwaddrLen := by decide
  have hexec : (Transition.exec (cacheStep tapIface) (HeardAll tapIface) (Nd.init, [])
      [.send (getBuffer 48), .icmp (advertisement [2, 1, 2, 0, 0, 0, 0, 1])]).any
      (fun x => x.1.nlist.any fun n => n.addr = otherlladdr ∧ n.state = .reachable) = true := by
    decide +kernel
  obtain ⟨x, hrun, hx⟩ := Transition.exists_run_of_exec hexec
  exact ⟨x, hx, (backed_of_heard hlen hrun).1⟩

/-- An advertisement without the option makes an entry that nobody was asked about, and makes an
entry reachable whose hardware address has never been set. -/
theorem unbacked_after_bare_advertisement :
    (∃ x, Transition.Run (cacheStep tapIface) Transition.Always (Nd.init, []) x ∧
      ∃ n ∈ x.1.nlist, n.state = .incomplete ∧ ¬Solicited x.1.sent n.addr) ∧
    ∃ x, Transition.Run (cacheStep tapIface) Transition.Always (Nd.init, []) x ∧
      ∃ n ∈ x.1.nlist, n.state = .reachable ∧ ¬Learned tapIface x.2 n.addr n.linkaddr := by
  constructor
  · refine ⟨(handleIcmp tapIface Nd.init (advertisement []), [advertisement []]),
      .single (i := .icmp (advertisement [])) trivial rfl, ?_⟩
    have hentry : ((handleIcmp tapIface Nd.init (advertisement [])).nlist.any fun n =>
        n.state = .incomplete) = true := by decide +kernel
    obtain ⟨n, hn, hstate⟩ := List.any_eq_true.mp hentry
    refine ⟨n, hn, of_decide_eq_true hstate, ?_⟩
    rintro ⟨y, hy, -⟩
    have hsent : (handleIcmp tapIface Nd.init (advertisement [])).sent.length = 0 := by
      decide +kernel
    rw [List.length_eq_zero_iff] at hsent
    simp only [hsent, List.not_mem_nil] at hy
  · have hexec : (Transition.exec (cacheStep tapIface) Transition.Always (Nd.init, [])
        [.send (getBuffer 48), .icmp (advertisement [])]).any
        (fun x => x.1.nlist.any fun n => n.state = .reachable ∧ n.linkaddr = none) = true := by
      decide +kernel
    obtain ⟨x, hrun, hx⟩ := Transition.exists_run_of_exec hexec
    refine ⟨x, hrun, ?_⟩
    obtain ⟨n, hn, hentry⟩ := List.any_eq_true.mp hx
    obtain ⟨hstate, hlink⟩ := of_decide_eq_true hentry
    refine ⟨n, hn, hstate, ?_⟩
    rintro ⟨r, -, -, -, heq⟩
    rw [hlink] at heq
    cases heq

end Ptrtd.Wire
