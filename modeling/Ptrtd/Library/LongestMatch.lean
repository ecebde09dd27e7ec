import Mathlib.Computability.RegularExpressions

/-! # Scanners that take the longest match

A scanner has rules in an order, each with a regular expression. At every turn it reads the longest
prefix of the input that one of the expressions matches, with the first rule that matches it. The
rules may depend on a state, which what is done with a match may change. -/

namespace Ptrtd.LongestMatch

open RegularExpression

variable {α β ι σ : Type*} [DecidableEq α]

/-! ## Regular expressions -/

/-- One of the characters. -/
def oneOf (l : List α) : RegularExpression α := l.foldr (fun a p => .char a + p) 0

/-- The characters one after the other. -/
def word (l : List α) : RegularExpression α := l.foldr (fun a p => .char a * p) 1

/-- From `m` to `n` times. -/
def times (p : RegularExpression α) (m n : ℕ) : RegularExpression α := p ^ m * (1 + p) ^ (n - m)

theorem oneOf_rmatch_iff {l w : List α} : (oneOf l).rmatch w ↔ ∃ a ∈ l, w = [a] := by
  induction l with
  | nil => simp [oneOf]
  | cons a l ih =>
      rw [oneOf, List.foldr_cons, add_rmatch_iff, char_rmatch_iff]
      change w = [a] ∨ (oneOf l).rmatch w ↔ _
      rw [ih]
      simp

/-- The characters that occur in an expression. -/
def chars : RegularExpression α → List α
  | .zero => []
  | .epsilon => []
  | .char a => [a]
  | .plus p q => chars p ++ chars q
  | .comp p q => chars p ++ chars q
  | .star p => chars p

theorem mem_chars {p : RegularExpression α} {w : List α} (h : p.rmatch w) {a : α} (ha : a ∈ w) :
    a ∈ chars p := by
  induction p generalizing w with
  | zero => simp at h
  | epsilon =>
      rw [(one_rmatch_iff w).mp h] at ha
      cases ha
  | char b =>
      rw [(char_rmatch_iff b w).mp h] at ha
      exact ha
  | plus p q ihp ihq =>
      rcases (add_rmatch_iff p q w).mp h with hw | hw
      · exact List.mem_append_left _ (ihp hw ha)
      · exact List.mem_append_right _ (ihq hw ha)
  | comp p q ihp ihq =>
      obtain ⟨t, u, rfl, ht, hu⟩ := (mul_rmatch_iff p q w).mp h
      rcases List.mem_append.mp ha with ha | ha
      · exact List.mem_append_left _ (ihp ht ha)
      · exact List.mem_append_right _ (ihq hu ha)
  | star p ih =>
      obtain ⟨s, rfl, hs⟩ := (star_rmatch_iff p w).mp h
      obtain ⟨t, ht, ha⟩ := List.mem_flatten.mp ha
      exact ih (hs t ht).2 ha

/-- The first rule that matches a word. -/
def firstRule (rules : List (RegularExpression α × ι)) (w : List α) : Option ι :=
  (rules.find? fun r => r.1.rmatch w).map Prod.snd

/-- What is left of the rules when a character has been read. -/
def derivs (rules : List (RegularExpression α × ι)) (a : α) : List (RegularExpression α × ι) :=
  rules.map fun r => (r.1.deriv a, r.2)

/-- The longest prefix that a rule matches, the first such rule, and what comes after it. -/
def longest : List (RegularExpression α × ι) → List α → Option (List α × ι × List α)
  | rules, [] => (firstRule rules []).map fun i => ([], i, [])
  | rules, a :: s =>
      match longest (derivs rules a) s with
      | some (w, i, rest) => some (a :: w, i, rest)
      | none => (firstRule rules []).map fun i => ([], i, a :: s)

variable {rules : List (RegularExpression α × ι)} {s w w' rest rest' : List α} {i i' : ι} {a : α}

theorem firstRule_cons : firstRule rules (a :: w) = firstRule (derivs rules a) w := by
  rw [firstRule, firstRule, derivs, List.find?_map, Option.map_map]
  rfl

theorem exists_rule (h : firstRule rules w = some i) : ∃ r ∈ rules, r.1.rmatch w ∧ r.2 = i := by
  obtain ⟨r, hr, rfl⟩ := Option.map_eq_some_iff.mp h
  have hmatch : r.1.rmatch w = true :=
    List.find?_some (p := fun r : RegularExpression α × ι => r.1.rmatch w) hr
  exact ⟨r, List.mem_of_find?_eq_some hr, hmatch, rfl⟩

theorem firstRule_eq_none : firstRule rules w = none ↔ ∀ r ∈ rules, ¬r.1.rmatch w := by
  rw [firstRule, Option.map_eq_none_iff, List.find?_eq_none]

theorem longest_eq_none :
    longest rules s = none ↔ ∀ w rest, w ++ rest = s → firstRule rules w = none := by
  induction s generalizing rules with
  | nil =>
      rw [longest, Option.map_eq_none_iff]
      refine ⟨fun h w rest hw => ?_, fun h => h [] [] rfl⟩
      rw [(List.append_eq_nil_iff.mp hw).1]
      exact h
  | cons a s ih =>
      rw [longest]
      cases hlong : longest (derivs rules a) s with
      | none =>
          rw [Option.map_eq_none_iff]
          refine ⟨fun h w rest hw => ?_, fun h => h [] (a :: s) rfl⟩
          cases w with
          | nil => exact h
          | cons b w =>
              obtain ⟨rfl, htail⟩ := List.cons.inj hw
              rw [firstRule_cons]
              exact ih.mp hlong w rest htail
      | some r =>
          obtain ⟨w, i, rest⟩ := r
          refine ⟨fun h => (by cases h), fun h => ?_⟩
          have hnone : longest (derivs rules a) s = none := ih.mpr fun v u hv => by
            rw [← firstRule_cons]
            exact h (a :: v) u (congrArg (a :: ·) hv)
          rw [hlong] at hnone
          cases hnone

/-- The word is the longest prefix that a rule matches, and the rule the first one. -/
structure IsLongest (rules : List (RegularExpression α × ι)) (s w : List α) (i : ι)
    (rest : List α) : Prop where
  split : w ++ rest = s
  first : firstRule rules w = some i
  longer : ∀ v u, v ++ u = s → w.length < v.length → firstRule rules v = none

theorem IsLongest.unique (h : IsLongest rules s w i rest) (h' : IsLongest rules s w' i' rest') :
    (w, i, rest) = (w', i', rest') := by
  have hle : w.length ≤ w'.length := le_of_not_gt fun hlt => by
    have hnone := h'.longer w rest h.split hlt
    rw [h.first] at hnone
    cases hnone
  have hge : w'.length ≤ w.length := le_of_not_gt fun hlt => by
    have hnone := h.longer w' rest' h'.split hlt
    rw [h'.first] at hnone
    cases hnone
  obtain ⟨rfl, rfl⟩ := List.append_inj (h.split.trans h'.split.symm) (le_antisymm hle hge)
  rw [Option.some.inj (h.first.symm.trans h'.first)]

theorem isLongest_of_longest (h : longest rules s = some (w, i, rest)) :
    IsLongest rules s w i rest := by
  induction s generalizing rules w i rest with
  | nil =>
      obtain ⟨j, hj, heq⟩ := Option.map_eq_some_iff.mp h
      cases heq
      refine ⟨rfl, hj, fun v u hv hlen => ?_⟩
      rw [(List.append_eq_nil_iff.mp hv).1] at hlen
      exact absurd hlen (lt_irrefl _)
  | cons a s ih =>
      rw [longest] at h
      cases hlong : longest (derivs rules a) s with
      | none =>
          rw [hlong] at h
          obtain ⟨j, hj, heq⟩ := Option.map_eq_some_iff.mp h
          cases heq
          refine ⟨rfl, hj, fun v u hv hlen => ?_⟩
          cases v with
          | nil => exact absurd hlen (lt_irrefl _)
          | cons b v =>
              obtain ⟨rfl, htail⟩ := List.cons.inj hv
              rw [firstRule_cons]
              exact longest_eq_none.mp hlong v u htail
      | some r =>
          obtain ⟨w', j, rest'⟩ := r
          have hspec := ih hlong
          rw [hlong] at h
          cases h
          refine ⟨congrArg (a :: ·) hspec.split, firstRule_cons.trans hspec.first,
            fun v u hv hlen => ?_⟩
          cases v with
          | nil => exact absurd hlen (Nat.not_lt_zero _)
          | cons b v =>
              obtain ⟨rfl, htail⟩ := List.cons.inj hv
              rw [firstRule_cons]
              exact hspec.longer v u htail (Nat.lt_of_succ_lt_succ hlen)

theorem longest_eq_some_iff :
    longest rules s = some (w, i, rest) ↔ IsLongest rules s w i rest := by
  refine ⟨isLongest_of_longest, fun h => ?_⟩
  cases hlong : longest rules s with
  | none =>
      have hnone := longest_eq_none.mp hlong w rest h.split
      rw [h.first] at hnone
      cases hnone
  | some r => exact congrArg some ((isLongest_of_longest hlong).unique h)

/-- A word that no rule matches together with what comes after it is read as it is. -/
theorem longest_append (hi : firstRule rules w = some i)
    (hrest : ∀ c v, rest = c :: v → ∀ r ∈ rules, ∀ u, ¬r.1.rmatch (w ++ c :: u)) :
    longest rules (w ++ rest) = some (w, i, rest) := by
  refine longest_eq_some_iff.mpr ⟨rfl, hi, fun v u hv hlen => ?_⟩
  refine firstRule_eq_none.mpr fun r hr => ?_
  rcases List.append_eq_append_iff.mp hv with ⟨x, hx, -⟩ | ⟨x, hx, hx'⟩
  · rw [hx, List.length_append] at hlen
    omega
  · cases x with
    | nil =>
        rw [hx, List.append_nil] at hlen
        exact absurd hlen (lt_irrefl _)
    | cons c x =>
        rw [hx]
        exact hrest c (x ++ u) hx' r hr x

/-! ## Scanning -/

/-- The rules of each state, and what is done with what a rule has matched: a token may be
returned, and the state may change. -/
structure Scanner (σ α β ι : Type*) where
  rules : σ → List (RegularExpression α × ι)
  act : ι → List α → σ → Option β × σ

namespace Scanner

variable {β : Type*} {sc : Scanner σ α β ι} {st st' st'' : σ} {s' s'' : List α} {ts ts' : List β}
  {n m : ℕ}

/-- Read the input to its end, in so many turns. There is no result where no rule matches. -/
def scan (sc : Scanner σ α β ι) : ℕ → σ → List α → Option (List β × σ)
  | _, st, [] => some ([], st)
  | 0, _, _ :: _ => none
  | n + 1, st, a :: s =>
      (longest (sc.rules st) (a :: s)).bind fun r =>
        let next := sc.act r.2.1 r.1 st
        (sc.scan n next.2 r.2.2).map fun ts => (next.1.toList ++ ts.1, ts.2)

/-- Every character alone is matched, and nothing else is matched without a character. -/
structure Covers (sc : Scanner σ α β ι) : Prop where
  single : ∀ st a, ∃ r ∈ sc.rules st, r.1.rmatch [a] = true
  nonempty : ∀ st, ∀ r ∈ sc.rules st, r.1.matchEpsilon = false

theorem Covers.ne_nil (h : sc.Covers) (st : σ) (hi : firstRule (sc.rules st) w = some i) :
    w ≠ [] := by
  rintro rfl
  obtain ⟨r, hr, hmatch, -⟩ := exists_rule hi
  have hnone := h.nonempty st r hr
  rw [← RegularExpression.rmatch, hmatch] at hnone
  cases hnone

theorem Covers.exists_longest (h : sc.Covers) (st : σ) (a : α) (s : List α) :
    ∃ w i rest, longest (sc.rules st) (a :: s) = some (w, i, rest) := by
  cases hlong : longest (sc.rules st) (a :: s) with
  | none =>
      obtain ⟨r, hr, hmatch⟩ := h.single st a
      exact absurd hmatch (firstRule_eq_none.mp (longest_eq_none.mp hlong [a] s rfl) r hr)
  | some r => exact ⟨r.1, r.2.1, r.2.2, rfl⟩

/-- The input is read up to a point, with its actual rest in sight, so that no match is cut
short. -/
inductive Reads (sc : Scanner σ α β ι) : σ → List α → List β → σ → List α → Prop
  | done {st : σ} {s : List α} : Reads sc st s [] st s
  | turn {st st' : σ} {s s' w rest : List α} {i : ι} {ts : List β} :
      longest (sc.rules st) s = some (w, i, rest) → w ≠ [] →
      Reads sc (sc.act i w st).2 rest ts st' s' →
      Reads sc st s ((sc.act i w st).1.toList ++ ts) st' s'

theorem Reads.trans (h : sc.Reads st s ts st' s') (h' : sc.Reads st' s' ts' st'' s'') :
    sc.Reads st s (ts ++ ts') st'' s'' := by
  induction h with
  | done => exact h'
  | turn hlong hne _ ih =>
      rw [List.append_assoc]
      exact .turn hlong hne (ih h')

theorem reads_turn (sc : Scanner σ α β ι) (st : σ)
    (hlong : longest (sc.rules st) s = some (w, i, rest)) (hne : w ≠ []) :
    sc.Reads st s (sc.act i w st).1.toList (sc.act i w st).2 rest := by
  have h := Reads.turn hlong hne .done
  rwa [List.append_nil] at h

/-- What is read to the end is the result, given as many turns as characters. -/
theorem Reads.scan (h : sc.Reads st s ts st' []) (hn : s.length ≤ n) :
    sc.scan n st s = some (ts, st') := by
  generalize hend : ([] : List α) = s' at h
  induction h generalizing n with
  | done =>
      subst hend
      cases n <;> rfl
  | @turn st st' s s' w rest i ts hlong hne _ ih =>
      have hsplit := (isLongest_of_longest hlong).split
      have hpos := List.length_pos_iff.mpr hne
      have hlen := congrArg List.length hsplit
      rw [List.length_append] at hlen
      cases s with
      | nil =>
          rw [List.length_nil] at hlen
          omega
      | cons a s =>
          cases n with
          | zero => exact absurd hn (Nat.not_succ_le_zero _)
          | succ n =>
              rw [List.length_cons] at hlen hn
              rw [Scanner.scan, hlong, Option.bind_some]
              dsimp only
              rw [ih (by omega) hend]
              rfl

/-- A scanner that covers its input reads all of it. -/
theorem Covers.reads (h : sc.Covers) (st : σ) (s : List α) : ∃ ts st', sc.Reads st s ts st' [] := by
  induction hlen : s.length using Nat.strong_induction_on generalizing st s with
  | _ n ih =>
      cases s with
      | nil => exact ⟨[], st, .done⟩
      | cons a s =>
          obtain ⟨w, i, rest, hlong⟩ := h.exists_longest st a s
          have hne := h.ne_nil st (isLongest_of_longest hlong).first
          have hsplit := congrArg List.length (isLongest_of_longest hlong).split
          have hpos := List.length_pos_iff.mpr hne
          rw [List.length_append] at hsplit
          obtain ⟨ts, st', hreads⟩ := ih rest.length (by omega) (sc.act i w st).2 rest rfl
          exact ⟨_, st', .turn hlong hne hreads⟩

end Scanner

end Ptrtd.LongestMatch
