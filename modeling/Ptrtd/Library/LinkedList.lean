import Mathlib.Data.List.Nodup
import Mathlib.Logic.Function.Basic

/-! # Doubly linked lists in memory

The cells of a memory have a link to the cell before them and one to the cell after them. A list
of addresses is in the memory when the links say so. Each operation is the sequence of
assignments that programs make for it. -/

namespace Ptrtd.LinkedList

variable {α : Type*}

/-- The links of the cells, by address. `none` is the null pointer. -/
structure Links (α : Type*) where
  prev : α → Option α
  next : α → Option α

/-- The cells of a list are linked. The first comes after `p` and the last before `q`. -/
def Seg (m : Links α) : Option α → List α → Option α → Prop
  | _, [], _ => True
  | p, a :: l, q => m.prev a = p ∧ m.next a = l.head?.or q ∧ Seg m (some a) l q

/-- The pointer leads to the list: its cells are different, each is linked to its neighbours, and
the two ends are null. -/
structure IsList (m : Links α) (head : Option α) (l : List α) : Prop where
  head : head = l.head?
  nodup : l.Nodup
  seg : Seg m none l none

variable {m m' : Links α} {p q p' q' head : Option α} {l l₁ l₂ : List α} {a b c : α}

/-! ## Segments -/

theorem Seg.congr (h : Seg m p l q) (hprev : ∀ a ∈ l, m'.prev a = m.prev a)
    (hnext : ∀ a ∈ l, m'.next a = m.next a) : Seg m' p l q := by
  induction l generalizing p with
  | nil => trivial
  | cons a l ih =>
      obtain ⟨ha, ha', hrest⟩ := h
      have hmem := List.mem_cons_self (a := a) (l := l)
      refine ⟨(hprev a hmem).trans ha, (hnext a hmem).trans ha', ih hrest ?_ ?_⟩
      · exact fun b hb => hprev b (List.mem_cons_of_mem a hb)
      · exact fun b hb => hnext b (List.mem_cons_of_mem a hb)

theorem seg_append : Seg m p (l₁ ++ l₂) q ↔
    Seg m p l₁ (l₂.head?.or q) ∧ Seg m (l₁.getLast?.or p) l₂ q := by
  induction l₁ generalizing p with
  | nil => simp [Seg]
  | cons a l ih =>
      have hlast : (a :: l).getLast?.or p = l.getLast?.or (some a) := by
        cases l <;> simp [List.getLast?_cons]
      rw [List.cons_append, Seg, Seg, ih, hlast, List.head?_append, Option.or_assoc]
      simp only [and_assoc]

/-- What a cell of a list is linked to. -/
theorem Seg.links (h : Seg m none (l₁ ++ a :: l₂) none) :
    m.prev a = l₁.getLast? ∧ m.next a = l₂.head? := by
  obtain ⟨-, hprev, hnext, -⟩ := seg_append.mp h
  rw [Option.or_none] at hprev hnext
  exact ⟨hprev, hnext⟩

theorem Seg.unique {l' : List α} (h : Seg m p l none) (h' : Seg m p' l' none)
    (hhead : l.head? = l'.head?) : l = l' := by
  induction l generalizing p p' l' with
  | nil => exact (List.head?_eq_none_iff.mp hhead.symm).symm
  | cons a l ih =>
      cases l' with
      | nil => cases hhead
      | cons b l' =>
          obtain rfl : a = b := Option.some.inj hhead
          obtain ⟨-, hnext, hrest⟩ := h
          obtain ⟨-, hnext', hrest'⟩ := h'
          rw [Option.or_none] at hnext hnext'
          rw [ih hrest hrest' (hnext.symm.trans hnext')]

/-- The links determine the list. -/
theorem IsList.unique {l' : List α} (h : IsList m head l) (h' : IsList m head l') : l = l' :=
  h.seg.unique h'.seg (h.head.symm.trans h'.head)

/-- The links between the cells are inverse to each other. -/
theorem IsList.inverse (h : IsList m head l) (ha : a ∈ l) (hb : b ∈ l) :
    m.next a = some b ↔ m.prev b = some a := by
  constructor
  · intro hnext
    obtain ⟨l₁, l₂, rfl⟩ := List.append_of_mem ha
    rw [h.seg.links.2] at hnext
    obtain ⟨l₃, rfl⟩ : ∃ l₃, l₂ = b :: l₃ := by
      cases l₂ with
      | nil => cases hnext
      | cons c l₃ => exact ⟨l₃, by rw [Option.some.inj hnext]⟩
    have hsplit : l₁ ++ a :: b :: l₃ = (l₁ ++ [a]) ++ b :: l₃ := by simp
    have hseg := h.seg
    rw [hsplit] at hseg
    rw [hseg.links.1]
    simp
  · intro hprev
    obtain ⟨l₁, l₂, rfl⟩ := List.append_of_mem hb
    rw [h.seg.links.1] at hprev
    obtain ⟨l₃, rfl⟩ := List.getLast?_eq_some_iff.mp hprev
    have hsplit : l₃ ++ [a] ++ b :: l₂ = l₃ ++ a :: (b :: l₂) := by simp
    have hseg := h.seg
    rw [hsplit] at hseg
    rw [hseg.links.2]
    rfl

/-- The links of the two ends lead nowhere. -/
theorem IsList.ends (h : IsList m head l) :
    (∀ a, l.head? = some a → m.prev a = none) ∧ ∀ a, l.getLast? = some a → m.next a = none := by
  constructor
  · intro a ha
    obtain ⟨l₂, rfl⟩ := List.head?_eq_some_iff.mp ha
    have hseg : Seg m none ([] ++ a :: l₂) none := h.seg
    exact hseg.links.1
  · intro a ha
    obtain ⟨l₁, rfl⟩ := List.getLast?_eq_some_iff.mp ha
    have hseg : Seg m none (l₁ ++ a :: []) none := h.seg
    exact hseg.links.2

/-- An operation on other cells leaves the list alone. -/
theorem IsList.congr (h : IsList m head l) (hprev : ∀ a ∈ l, m'.prev a = m.prev a)
    (hnext : ∀ a ∈ l, m'.next a = m.next a) : IsList m' head l :=
  ⟨h.head, h.nodup, h.seg.congr hprev hnext⟩

theorem isList_nil : IsList m none ([] : List α) := ⟨rfl, List.nodup_nil, trivial⟩

/-! ## Assignments -/

variable [DecidableEq α]

namespace Links

def setPrev (m : Links α) (a : α) (p : Option α) : Links α :=
  { m with prev := Function.update m.prev a p }

def setNext (m : Links α) (a : α) (p : Option α) : Links α :=
  { m with next := Function.update m.next a p }

/-- `if (a) a->prev = p;` -/
def setPrev? (m : Links α) (a p : Option α) : Links α := a.elim m fun a => m.setPrev a p

/-- `if (a) a->next = p;` -/
def setNext? (m : Links α) (a p : Option α) : Links α := a.elim m fun a => m.setNext a p

@[simp] theorem setPrev_next : (m.setPrev a p).next = m.next := rfl

@[simp] theorem setNext_prev : (m.setNext a p).prev = m.prev := rfl

@[simp] theorem setPrev_prev : (m.setPrev a p).prev a = p := Function.update_self ..

@[simp] theorem setNext_next : (m.setNext a p).next a = p := Function.update_self ..

theorem setPrev_of_ne (h : b ≠ a) : (m.setPrev a p).prev b = m.prev b := Function.update_of_ne h ..

theorem setNext_of_ne (h : b ≠ a) : (m.setNext a p).next b = m.next b := Function.update_of_ne h ..

@[simp] theorem setPrev?_next : (m.setPrev? q p).next = m.next := by cases q <;> rfl

@[simp] theorem setNext?_prev : (m.setNext? q p).prev = m.prev := by cases q <;> rfl

theorem setPrev?_of_ne (h : q ≠ some b) : (m.setPrev? q p).prev b = m.prev b := by
  cases q with
  | none => rfl
  | some a => exact setPrev_of_ne fun hb => h (congrArg some hb.symm)

theorem setNext?_of_ne (h : q ≠ some b) : (m.setNext? q p).next b = m.next b := by
  cases q with
  | none => rfl
  | some a => exact setNext_of_ne fun hb => h (congrArg some hb.symm)

end Links

open Links

/-- The first cell of a segment is linked to another one before it. -/
theorem Seg.setPrev_first (h : Seg m p l q) (hl : l.Nodup) :
    Seg (m.setPrev? l.head? p') p' l q := by
  cases l with
  | nil => trivial
  | cons a l =>
      obtain ⟨-, hnext, hrest⟩ := h
      refine ⟨setPrev_prev, hnext, hrest.congr (fun b hb => setPrev_of_ne ?_) fun _ _ => rfl⟩
      rintro rfl
      exact (List.nodup_cons.mp hl).1 hb

/-- The last cell of a segment is linked to another one behind it. -/
theorem Seg.setNext_last (h : Seg m p l q) (hl : l.Nodup) :
    Seg (m.setNext? l.getLast? q') p l q' := by
  rcases List.eq_nil_or_concat l with rfl | ⟨l, a, rfl⟩
  · trivial
  · rw [List.concat_eq_append] at h hl ⊢
    obtain ⟨hfront, hprev, -, -⟩ := seg_append.mp h
    have hlast : (l ++ [a]).getLast? = some a := by simp
    rw [hlast]
    refine seg_append.mpr ⟨hfront.congr (fun _ _ => rfl) fun b hb => setNext_of_ne ?_, hprev,
      setNext_next, trivial⟩
    rintro rfl
    exact List.disjoint_of_nodup_append hl hb List.mem_cons_self

/-- Two segments are joined. -/
theorem Seg.join (h₁ : Seg m p l₁ q') (h₂ : Seg m p' l₂ q) (hnodup : (l₁ ++ l₂).Nodup) :
    Seg ((m.setPrev? l₂.head? (l₁.getLast?.or p)).setNext? l₁.getLast? (l₂.head?.or q)) p
      (l₁ ++ l₂) q := by
  obtain ⟨hnodup₁, hnodup₂, hdisjoint⟩ := List.nodup_append'.mp hnodup
  have hfirst : Seg (m.setPrev? l₂.head? (l₁.getLast?.or p)) (l₁.getLast?.or p) l₂ q :=
    h₂.setPrev_first hnodup₂
  have hfront : Seg (m.setPrev? l₂.head? (l₁.getLast?.or p)) p l₁ q' := by
    refine h₁.congr (fun b hb => setPrev?_of_ne fun heq => ?_) fun _ _ => by rw [setPrev?_next]
    exact hdisjoint hb (List.mem_of_head? heq)
  refine seg_append.mpr ⟨hfront.setNext_last hnodup₁, ?_⟩
  refine hfirst.congr (fun _ _ => by rw [setNext?_prev]) fun b hb => setNext?_of_ne fun heq => ?_
  exact hdisjoint (List.mem_of_getLast? heq) hb

/-! ## Taking a cell out -/

/-- The cell's own links stay. -/
def Links.unlink (m : Links α) (a : α) : Links α :=
  let m := m.setPrev? (m.next a) (m.prev a)
  m.setNext? (m.prev a) (m.next a)

/-- A cell without neighbours has nothing to be taken out of. -/
theorem unlink_of_null (hprev : m.prev a = none) (hnext : m.next a = none) : m.unlink a = m := by
  simp [unlink, hprev, hnext, setPrev?, setNext?]

/-- The cell still leads to the one behind it. -/
theorem unlink_next_self (m : Links α) (a : α) : (m.unlink a).next a = m.next a := by
  obtain ⟨m₁, hm₁⟩ : ∃ m₁, m₁ = m.setPrev? (m.next a) (m.prev a) := ⟨_, rfl⟩
  have hnext : m₁.next = m.next := by rw [hm₁, setPrev?_next]
  have heq : m.unlink a = m₁.setNext? (m₁.prev a) (m₁.next a) := by rw [unlink, hm₁]
  rw [heq, ← hnext]
  by_cases hself : m₁.prev a = some a
  · rw [hself]
    exact setNext_next
  · exact setNext?_of_ne hself

theorem unlink_eq (h : IsList m head (l₁ ++ a :: l₂)) :
    m.unlink a = (m.setPrev? l₂.head? l₁.getLast?).setNext? l₁.getLast? l₂.head? := by
  obtain ⟨hprev, hnext⟩ := h.seg.links
  have hself : l₂.head? ≠ some a := by
    intro heq
    have ha := (List.nodup_append'.mp h.nodup).2.1
    exact (List.nodup_cons.mp ha).1 (List.mem_of_head? heq)
  rw [unlink, hprev, hnext]
  simp only [setPrev?_of_ne hself, setPrev?_next, hprev, hnext]

theorem IsList.unlink_append (h : IsList m head (l₁ ++ a :: l₂)) :
    IsList (m.unlink a) (if head = some a then m.next a else head) (l₁ ++ l₂) := by
  have hnodup : (l₁ ++ l₂).Nodup := h.nodup.sublist (by simp)
  obtain ⟨hfront, hback⟩ := seg_append.mp h.seg
  have hjoin := hfront.join hback.2.2 hnodup
  rw [Option.or_none, Option.or_none] at hjoin
  refine ⟨?_, hnodup, ?_⟩
  · rw [h.head, h.seg.links.2]
    cases l₁ with
    | nil => simp
    | cons b l₁ =>
        have hne : b ≠ a := by
          rintro rfl
          exact (List.nodup_cons.mp h.nodup).1 (by simp)
        simp [hne]
  · rw [unlink_eq h]
    exact hjoin

/-- What is left of a list that a cell is taken out of. -/
theorem IsList.unlink (h : IsList m head l) (ha : a ∈ l) :
    IsList (m.unlink a) (if head = some a then m.next a else head) (l.erase a) := by
  obtain ⟨l₁, l₂, rfl⟩ := List.append_of_mem ha
  have hnot : a ∉ l₁ := fun hmem =>
    List.disjoint_of_nodup_append h.nodup hmem List.mem_cons_self
  rw [List.erase_append_right _ hnot, List.erase_cons_head]
  exact h.unlink_append

/-- The cells of other lists are left alone. -/
theorem IsList.unlink_of_not_mem (h : IsList m head l) (ha : a ∈ l) (hb : b ∉ l) :
    (m.unlink a).prev b = m.prev b ∧ (m.unlink a).next b = m.next b := by
  obtain ⟨l₁, l₂, rfl⟩ := List.append_of_mem ha
  rw [unlink_eq h]
  constructor
  · rw [setNext?_prev]
    refine setPrev?_of_ne fun heq => hb ?_
    simp [List.mem_of_head? heq]
  · refine (setNext?_of_ne fun heq => hb ?_).trans (by rw [setPrev?_next])
    simp [List.mem_of_getLast? heq]

/-! ## Putting a cell in -/

/-- Put a cell that has nothing before it in front of a list. -/
def Links.pushFront (m : Links α) (a : α) (head : Option α) : Links α :=
  let m := m.setNext a head
  m.setPrev? (m.next a) (some a)

/-- Put a cell before another one. -/
def Links.insertBefore (m : Links α) (a b : α) : Links α :=
  let m := m.setNext a (some b)
  let m := m.setPrev a (m.prev b)
  let m := m.setPrev b (some a)
  m.setNext? (m.prev a) (some a)

/-- Put a cell behind the last one. -/
def Links.insertLast (m : Links α) (a b : α) : Links α :=
  let m := m.setNext a none
  let m := m.setPrev a (some b)
  m.setNext b (some a)

/-- A cell is put between two parts of a list. -/
theorem Seg.insert (h : Seg m none (l₁ ++ l₂) none) (hnodup : (l₁ ++ a :: l₂).Nodup) :
    Seg ((((m.setNext a l₂.head?).setPrev a l₁.getLast?).setPrev? l₂.head? (some a)).setNext?
      l₁.getLast? (some a)) none (l₁ ++ a :: l₂) none := by
  obtain ⟨hnodup₁, hnodup₂, hdisjoint⟩ := List.nodup_append'.mp hnodup
  obtain ⟨ha, hnodup₂⟩ := List.nodup_cons.mp hnodup₂
  obtain ⟨hfront, hback⟩ := seg_append.mp h
  have ha₁ : a ∉ l₁ := fun hmem => hdisjoint hmem List.mem_cons_self
  have hhead : l₂.head? ≠ some a := fun heq => ha (List.mem_of_head? heq)
  have hlast : l₁.getLast? ≠ some a := fun heq => ha₁ (List.mem_of_getLast? heq)
  obtain ⟨m₁, hm₁⟩ : ∃ m₁, m₁ = (m.setNext a l₂.head?).setPrev a l₁.getLast? := ⟨_, rfl⟩
  have hsame : ∀ b, b ≠ a → m₁.prev b = m.prev b ∧ m₁.next b = m.next b := fun b hb => by
    rw [hm₁]
    exact ⟨setPrev_of_ne hb, setNext_of_ne hb⟩
  have hself : m₁.prev a = l₁.getLast? ∧ m₁.next a = l₂.head? := by simp [hm₁]
  rw [← hm₁]
  have hfront₁ : Seg m₁ none l₁ (l₂.head?.or none) :=
    hfront.congr (fun b hb => (hsame b fun heq => ha₁ (heq ▸ hb)).1)
      fun b hb => (hsame b fun heq => ha₁ (heq ▸ hb)).2
  have hback₁ : Seg m₁ (l₁.getLast?.or none) l₂ none :=
    hback.congr (fun b hb => (hsame b fun heq => ha (heq ▸ hb)).1)
      fun b hb => (hsame b fun heq => ha (heq ▸ hb)).2
  have hmiddle : Seg (m₁.setPrev? l₂.head? (some a)) l₁.getLast? (a :: l₂) none := by
    refine ⟨(setPrev?_of_ne hhead).trans hself.1, ?_, hback₁.setPrev_first hnodup₂⟩
    rw [setPrev?_next, hself.2, Option.or_none]
  have hbefore : Seg (m₁.setPrev? l₂.head? (some a)) none l₁ (l₂.head?.or none) := by
    refine hfront₁.congr (fun b hb => setPrev?_of_ne fun heq => ?_) fun _ _ => by rw [setPrev?_next]
    exact hdisjoint hb (List.mem_cons_of_mem a (List.mem_of_head? heq))
  refine seg_append.mpr ⟨hbefore.setNext_last hnodup₁, ?_⟩
  rw [Option.or_none]
  refine hmiddle.congr (fun _ _ => by rw [setNext?_prev]) fun b hb => setNext?_of_ne fun heq => ?_
  exact hdisjoint (List.mem_of_getLast? heq) hb

theorem setPrev_self (h : m.prev a = p) : m.setPrev a p = m := by
  rw [setPrev, ← h, Function.update_eq_self]

theorem IsList.pushFront (h : IsList m head l) (ha : a ∉ l) (hprev : m.prev a = none) :
    IsList (m.pushFront a head) (some a) (a :: l) := by
  have hnodup : ([] ++ a :: l).Nodup := List.nodup_cons.mpr ⟨ha, h.nodup⟩
  have hseg : Seg m none ([] ++ l) none := h.seg
  have hinsert : Seg (((m.setNext a l.head?).setPrev a none).setPrev? l.head? (some a)) none
    (a :: l) none := hseg.insert hnodup
  rw [setPrev_self (m := m.setNext a l.head?) hprev] at hinsert
  refine ⟨rfl, hnodup, ?_⟩
  rw [Links.pushFront, setNext_next, h.head]
  exact hinsert

theorem IsList.insertBefore (h : IsList m head (l₁ ++ b :: l₂)) (ha : a ∉ l₁ ++ b :: l₂) :
    IsList (m.insertBefore a b) (if (m.insertBefore a b).prev a = none then some a else head)
      (l₁ ++ a :: b :: l₂) := by
  have hnodup : (l₁ ++ a :: b :: l₂).Nodup :=
    List.nodup_middle.mpr (List.nodup_cons.mpr ⟨ha, h.nodup⟩)
  have hne : a ≠ b := by
    rintro rfl
    exact ha (by simp)
  have hprev : (m.setNext a (some b)).prev b = l₁.getLast? := h.seg.links.1
  have heq : m.insertBefore a b =
      (((m.setNext a (some b)).setPrev a l₁.getLast?).setPrev b (some a)).setNext? l₁.getLast?
        (some a) := by
    rw [Links.insertBefore, hprev, setPrev_of_ne hne, setPrev_prev]
  have hself : (m.insertBefore a b).prev a = l₁.getLast? := by
    rw [heq, setNext?_prev, setPrev_of_ne hne, setPrev_prev]
  refine ⟨?_, hnodup, ?_⟩
  · rw [hself, h.head]
    cases l₁ with
    | nil => rfl
    | cons c l₁ => simp
  · rw [heq]
    exact h.seg.insert hnodup

theorem IsList.insertLast (h : IsList m head (l ++ [b])) (ha : a ∉ l ++ [b]) :
    IsList (m.insertLast a b) head (l ++ [b, a]) := by
  have hnodup : ((l ++ [b]) ++ a :: []).Nodup :=
    List.nodup_middle.mpr (List.nodup_cons.mpr ⟨by simpa using ha, by simpa using h.nodup⟩)
  have hseg : Seg m none ((l ++ [b]) ++ []) none := by simpa using h.seg
  have hinsert := hseg.insert hnodup
  have hsplit : (l ++ [b]) ++ a :: [] = l ++ [b, a] := by simp
  have hlast : (l ++ [b]).getLast? = some b := by simp
  rw [hlast, hsplit] at hinsert
  rw [hsplit] at hnodup
  refine ⟨?_, hnodup, hinsert⟩
  rw [h.head]
  cases l <;> rfl

/-- A cell that is put in front changes no other lists. -/
theorem IsList.pushFront_of_not_mem (h : IsList m head l) (hb : b ∉ l) (hne : b ≠ a) :
    (m.pushFront a head).prev b = m.prev b ∧ (m.pushFront a head).next b = m.next b := by
  constructor
  · rw [Links.pushFront, setNext_next]
    refine (setPrev?_of_ne fun heq => hb ?_).trans (by rw [setNext_prev])
    exact List.mem_of_head? (h.head ▸ heq)
  · rw [Links.pushFront, setPrev?_next]
    exact setNext_of_ne hne

theorem IsList.insertBefore_of_not_mem (h : IsList m head l) (hc : c ∈ l) (ha : a ∉ l) (hb : b ∉ l)
    (hne : b ≠ a) : (m.insertBefore a c).prev b = m.prev b ∧
      (m.insertBefore a c).next b = m.next b := by
  obtain ⟨l₁, l₂, rfl⟩ := List.append_of_mem hc
  have hac : a ≠ c := fun heq => ha (heq ▸ hc)
  have hbc : b ≠ c := fun heq => hb (heq ▸ hc)
  have hprev : (m.setNext a (some c)).prev c = l₁.getLast? := h.seg.links.1
  rw [Links.insertBefore, hprev, setPrev_of_ne hac, setPrev_prev]
  constructor
  · rw [setNext?_prev, setPrev_of_ne hbc, setPrev_of_ne hne]
    rfl
  · refine (setNext?_of_ne fun heq => hb ?_).trans (setNext_of_ne hne)
    simp [List.mem_of_getLast? heq]

theorem insertLast_of_ne (hbc : b ≠ c) (hne : b ≠ a) :
    (m.insertLast a c).prev b = m.prev b ∧ (m.insertLast a c).next b = m.next b := by
  constructor
  · rw [Links.insertLast, setNext_prev, setPrev_of_ne hne]
    rfl
  · rw [Links.insertLast, setNext_of_ne hbc]
    exact setNext_of_ne hne

end Ptrtd.LinkedList
