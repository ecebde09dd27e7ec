import Ptrtd.Model.Icmp
import Mathlib.Data.List.Perm.Basic

/-! # The list of neighbors

`find_neighbor` and changes of the entry it yields, seen from the outside: by address, by member,
and as one list of queued packets. -/

namespace Ptrtd.Wire.Nd

open Table (Addr)
open scoped List

variable {s : Nd} {a d : Addr} {n m : Neighbor} {f : Neighbor → Neighbor} {p : Pbuf}

/-- No two entries have the same address. -/
def Distinct (s : Nd) : Prop := (s.nlist.map (·.addr)).Nodup

theorem find_addr (h : s.findNeighbor a = some n) : n.addr = a := by
  simpa using List.find?_some h

theorem find_mem (h : s.findNeighbor a = some n) : n ∈ s.nlist := List.mem_of_find?_eq_some h

theorem find_eq_none : s.findNeighbor a = none ↔ ∀ n ∈ s.nlist, n.addr ≠ a := by
  simp [findNeighbor]

theorem Distinct.find (h : s.Distinct) (hn : n ∈ s.nlist) : s.findNeighbor n.addr = some n := by
  cases hfind : s.findNeighbor n.addr with
  | none => exact absurd rfl (find_eq_none.mp hfind n hn)
  | some m => rw [List.inj_on_of_nodup_map h (find_mem hfind) hn (find_addr hfind)]

/-! ## Changing an entry -/

theorem find_update (hf : ∀ n, (f n).addr = n.addr) :
    (s.update a f).findNeighbor d =
      if d = a then (s.findNeighbor a).map f else s.findNeighbor d := by
  simp only [findNeighbor, update]
  induction s.nlist with
  | nil => simp [update.updateFirst]
  | cons n ns ih =>
      by_cases hn : n.addr = a
      · by_cases hd : d = a
        · simp [update.updateFirst, hn, hd, hf]
        · have hne : ¬a = d := fun h => hd h.symm
          simp [update.updateFirst, hn, hd, hf, hne]
      · by_cases hd : n.addr = d
        · have hne : ¬d = a := fun h => hn (hd.trans h)
          simp [update.updateFirst, hd, hne]
        · by_cases hda : d = a
          · simpa [update.updateFirst, hn, hd, hda] using ih
          · simpa [update.updateFirst, hn, hd, hda] using ih

/-- An entry that is found afterwards was changed, or was there before. -/
theorem find_update_cases (hf : ∀ n, (f n).addr = n.addr)
    (h : (s.update a f).findNeighbor d = some m) :
    (d = a ∧ ∃ n, s.findNeighbor a = some n ∧ f n = m) ∨ s.findNeighbor d = some m := by
  rw [find_update hf] at h
  split at h
  · next hd => exact .inl ⟨hd, Option.map_eq_some_iff.mp h⟩
  · exact .inr h

/-- Only what is done to the entry that is found matters. -/
theorem update_congr {g : Neighbor → Neighbor} (h : s.findNeighbor a = some n) (hfg : f n = g n) :
    s.update a f = s.update a g := by
  simp only [findNeighbor] at h
  simp only [update, mk.injEq, and_true]
  induction hl : s.nlist generalizing s with
  | nil => rfl
  | cons m ms ih =>
      rw [hl] at h
      by_cases hm : m.addr = a
      · obtain rfl : m = n := by simpa [hm] using h
        rw [update.updateFirst, update.updateFirst, if_pos hm, if_pos hm, hfg]
      · have hrest : ms.find? (fun n => decide (n.addr = a)) = some n := by simpa [hm] using h
        simp only [update.updateFirst, hm, if_false]
        rw [ih (s := { s with nlist := ms }) hrest rfl]

theorem update_update {g : Neighbor → Neighbor} (hf : ∀ n, (f n).addr = n.addr) :
    (s.update a f).update a g = s.update a fun n => g (f n) := by
  simp only [update, mk.injEq, and_true]
  induction s.nlist with
  | nil => rfl
  | cons n ns ih =>
      by_cases hn : n.addr = a
      · simp [update.updateFirst, hn, hf]
      · simp [update.updateFirst, hn, ih]

theorem map_addr_update (hf : ∀ n, (f n).addr = n.addr) :
    (s.update a f).nlist.map (·.addr) = s.nlist.map (·.addr) := by
  simp only [update]
  induction s.nlist with
  | nil => rfl
  | cons n ns ih =>
      by_cases hn : n.addr = a
      · simp [update.updateFirst, hn, hf]
      · simp [update.updateFirst, hn, ih]

theorem Distinct.update (h : s.Distinct) (hf : ∀ n, (f n).addr = n.addr) :
    (s.update a f).Distinct := by
  rw [Distinct, map_addr_update hf]
  exact h

/-- A change of one entry exchanges its queue for the new one. -/
theorem queued_update (h : s.findNeighbor a = some n) :
    n.queue ++ (s.update a f).nlist.flatMap (·.queue) ~
      (f n).queue ++ s.nlist.flatMap (·.queue) := by
  simp only [findNeighbor] at h
  simp only [Nd.update]
  generalize s.nlist = l at h ⊢
  induction l with
  | nil => cases h
  | cons m ms ih =>
      by_cases hm : m.addr = a
      · obtain rfl : m = n := by simpa [hm] using h
        simp only [Nd.update.updateFirst, hm, if_true, List.flatMap_cons]
        exact List.perm_append_comm_assoc _ _ _
      · have hrest := ih (by simpa [hm] using h)
        simp only [Nd.update.updateFirst, hm, if_false, List.flatMap_cons]
        calc
          n.queue ++ (m.queue ++ (Nd.update.updateFirst a f ms).flatMap (·.queue)) ~
              m.queue ++ (n.queue ++ (Nd.update.updateFirst a f ms).flatMap (·.queue)) :=
            List.perm_append_comm_assoc _ _ _
          _ ~ m.queue ++ ((f n).queue ++ ms.flatMap (·.queue)) := hrest.append_left _
          _ ~ (f n).queue ++ (m.queue ++ ms.flatMap (·.queue)) :=
            List.perm_append_comm_assoc _ _ _

/-! ## A new entry -/

theorem find_addNeighbor {iface : Iface} {lladdr : Option (List Uchar)} (hd : d ≠ a) :
    (s.addNeighbor iface a lladdr).findNeighbor d = s.findNeighbor d := by
  have hne : ¬a = d := fun h => hd h.symm
  simp [addNeighbor, findNeighbor, hne]

theorem Distinct.addNeighbor {iface : Iface} {lladdr : Option (List Uchar)} (h : s.Distinct)
    (hnone : s.findNeighbor a = none) : (s.addNeighbor iface a lladdr).Distinct := by
  rw [Distinct, Nd.addNeighbor, List.map_cons, List.nodup_cons]
  refine ⟨?_, h⟩
  intro hmem
  obtain ⟨n, hn, haddr⟩ := List.mem_map.mp hmem
  exact find_eq_none.mp hnone n hn haddr

end Ptrtd.Wire.Nd
