import Ptrtd.Model.Config

/-! # The scanner of the configuration file

Every file is scanned to its end. Words may be written without a gap between them where they do
not run together; blanks and comments between them do not matter. -/

namespace Ptrtd.Config

open LongestMatch

variable {a c : Uchar} {w s rest : List Uchar} {n : ℕ} {i : Rule} {t : Token}
  {ts : List (Token × ℕ)} {r : RegularExpression Uchar × Rule} {st : LexState}

/-! ## What the rules match -/

/-- The characters that words consist of, from the second one on. -/
def wordChars : List Uchar := chr ':' :: idRest

theorem mem_dot (h : c ≠ chr '\n') : c ∈ dot := by
  have hc : UInt8.ofNat c.toNat = c := by simp
  rw [dot, List.mem_filter, List.mem_map]
  exact ⟨⟨c.toNat, List.mem_range.mpr c.toNat_lt, hc⟩, by simpa using h⟩

theorem not_mem_dot : chr '\n' ∉ dot := by simp [dot]

/-- The scanner is never without a rule. -/
theorem yylex_covers : yylex.Covers where
  single := by
    rintro ⟨cond, n⟩ a
    cases cond with
    | initial =>
        by_cases ha : a = chr '\n'
        · exact ⟨(oneOf blank, .blank), by simp [yylex, rules],
            oneOf_rmatch_iff.mpr ⟨a, by simp [ha, blank], rfl⟩⟩
        · exact ⟨(oneOf dot, .other), by simp [yylex, rules],
            oneOf_rmatch_iff.mpr ⟨a, mem_dot ha, rfl⟩⟩
    | comment =>
        by_cases ha : a = chr '\n'
        · exact ⟨(.char (chr '\n'), .commentEnd), by simp [yylex, rules],
            (RegularExpression.char_rmatch_iff _ _).mpr (by rw [ha])⟩
        · exact ⟨(oneOf dot, .comment), by simp [yylex, rules],
            oneOf_rmatch_iff.mpr ⟨a, mem_dot ha, rfl⟩⟩
  nonempty := by
    rintro ⟨cond, n⟩
    cases cond with
    | initial =>
        change ∀ r ∈ rules .initial, r.1.matchEpsilon = false
        decide +kernel
    | comment =>
        change ∀ r ∈ rules .comment, r.1.matchEpsilon = false
        decide +kernel

theorem length_of_oneOf {l : List Uchar} (h : (oneOf l).rmatch w) : w.length = 1 := by
  obtain ⟨a, -, rfl⟩ := oneOf_rmatch_iff.mp h
  rfl

theorem length_of_char (h : (RegularExpression.char a).rmatch w) : w.length = 1 := by
  rw [(RegularExpression.char_rmatch_iff a w).mp h]
  rfl

/-- The rules but two match words of the characters of `wordChars`, or single characters. The
exception is a prefix length. -/
theorem rule_cases (hr : r ∈ rules .initial) :
    (∀ c ∈ chars r.1, c ∈ wordChars) ∨ (∀ w, r.1.rmatch w → w.length = 1) ∨
      r.1 = .char (chr '/') * times (oneOf digit) 2 2 := by
  have hcheck : ∀ r ∈ (rules .initial).filter fun r => r.2 ∈ [.pfx, .int, .yes, .no, .id],
      ∀ c ∈ chars r.1, c ∈ wordChars := by decide +kernel
  by_cases hword : r.2 ∈ [Rule.pfx, .int, .yes, .no, .id]
  · exact .inl (hcheck r (List.mem_filter.mpr ⟨hr, decide_eq_true hword⟩))
  · simp only [rules, List.mem_cons, List.not_mem_nil, or_false] at hr
    rcases hr with rfl | rfl | rfl | rfl | rfl | rfl | rfl | rfl | rfl | rfl
    · simp at hword
    · exact .inr (.inr rfl)
    · simp at hword
    · simp at hword
    · simp at hword
    · simp at hword
    · exact .inr (.inl fun w => length_of_oneOf)
    · exact .inr (.inl fun w => length_of_oneOf)
    · exact .inr (.inl fun w => length_of_char)
    · exact .inr (.inl fun w => length_of_oneOf)

/-- After the first character a match goes on with the characters of words only, and only if the
first one is such a character or a slash. -/
theorem rest_of_rmatch (hr : r ∈ rules .initial) (h : r.1.rmatch (a :: w)) (hc : c ∈ w) :
    c ∈ wordChars ∧ a ∈ chr '/' :: wordChars := by
  rcases rule_cases hr with hword | hsingle | heq
  · exact ⟨hword c (mem_chars h (List.mem_cons_of_mem a hc)),
      List.mem_cons_of_mem _ (hword a (mem_chars h List.mem_cons_self))⟩
  · have hlen := hsingle _ h
    rw [List.length_cons, Nat.add_eq_right] at hlen
    rw [List.length_eq_zero_iff.mp hlen] at hc
    cases hc
  · rw [heq, RegularExpression.mul_rmatch_iff] at h
    obtain ⟨t, u, hw, ht, hu⟩ := h
    rw [(RegularExpression.char_rmatch_iff _ _).mp ht] at hw
    obtain ⟨rfl, rfl⟩ := List.cons.inj hw
    have hdigits : ∀ c ∈ chars (times (oneOf digit) 2 2), c ∈ wordChars := by decide +kernel
    exact ⟨hdigits c (mem_chars hu hc), List.mem_cons_self⟩

/-! ## Words -/

/-- What comes after a word cannot be taken for a part of it. -/
def Apart (w s : List Uchar) : Prop :=
  (∀ c, s.head? = some c → c ∉ wordChars) ∨ ∃ c, w = [c] ∧ c ∉ chr '/' :: wordChars

theorem word_ne_nil (hi : firstRule (rules .initial) w = some i) : w ≠ [] :=
  yylex_covers.ne_nil ⟨.initial, 0⟩ hi

theorem longest_apart (hi : firstRule (rules .initial) w = some i) (hs : Apart w s) :
    longest (rules .initial) (w ++ s) = some (w, i, s) := by
  refine longest_append hi fun c v hc r hr u hmatch => ?_
  cases w with
  | nil => exact absurd rfl (word_ne_nil hi)
  | cons a w =>
      have hrest := rest_of_rmatch hr hmatch (List.mem_append_right w List.mem_cons_self)
      rcases hs with hs | ⟨b, hb, hnot⟩
      · exact hs c (by rw [hc]; rfl) hrest.1
      · obtain ⟨rfl, -⟩ := List.cons.inj hb
        exact hnot hrest.2

/-- The word is written for the token. -/
def Spells (w : List Uchar) (t : Token) : Prop :=
  ∃ i, firstRule (rules .initial) w = some i ∧ token i w = some t

/-- A word for a token has no newline. -/
theorem count_newline (hi : firstRule (rules .initial) w = some i) (hne : i ≠ .blank) :
    w.count (chr '\n') = 0 := by
  have hcheck : ∀ r ∈ rules .initial, r.2 ≠ .blank → chr '\n' ∉ chars r.1 := by decide +kernel
  obtain ⟨r, hr, hmatch, rfl⟩ := exists_rule hi
  exact List.count_eq_zero.mpr fun hmem => hcheck r hr hne (mem_chars hmatch hmem)

theorem reads_word (h : Spells w t) (hs : Apart w s) :
    yylex.Reads ⟨.initial, n⟩ (w ++ s) [(t, n)] ⟨.initial, n⟩ s := by
  obtain ⟨i, hi, ht⟩ := h
  have hread := yylex.reads_turn ⟨.initial, n⟩ (longest_apart hi hs)
    (word_ne_nil hi)
  have hlines : w.count (chr '\n') = 0 := count_newline hi (by rintro rfl; cases ht)
  have hbegins : begins i .initial = .initial := by
    cases i with
    | hash => cases ht
    | _ => rfl
  have hact : yylex.act i w ⟨.initial, n⟩ = (some (t, n), ⟨.initial, n⟩) := by
    simp only [yylex, hlines, ht, hbegins]
    rfl
  rw [hact] at hread
  exact hread

/-! ## Gaps -/

theorem reads_blank (hc : c ∈ blank) :
    yylex.Reads ⟨.initial, n⟩ (c :: s) [] ⟨.initial, n + [c].count (chr '\n')⟩ s := by
  have hcheck : ∀ c ∈ blank, firstRule (rules .initial) [c] = some .blank ∧
      c ∉ chr '/' :: wordChars := by decide +kernel
  obtain ⟨hi, hnot⟩ := hcheck c hc
  exact yylex.reads_turn ⟨.initial, n⟩ (longest_apart (s := s) hi (.inr ⟨c, rfl, hnot⟩))
    (List.cons_ne_nil c [])

theorem reads_hash :
    yylex.Reads ⟨.initial, n⟩ (chr '#' :: s) [] ⟨.comment, n⟩ s := by
  have hcheck : firstRule (rules .initial) [chr '#'] = some .hash ∧
      chr '#' ∉ chr '/' :: wordChars := by decide +kernel
  exact yylex.reads_turn ⟨.initial, n⟩
    (longest_apart (s := s) hcheck.1 (.inr ⟨_, rfl, hcheck.2⟩)) (List.cons_ne_nil _ [])

/-- In a comment the characters are read one by one. -/
theorem longest_comment (hi : firstRule (rules .comment) [c] = some i) :
    longest (rules .comment) (c :: s) = some ([c], i, s) := by
  refine longest_append hi fun b v _ r hr u hmatch => ?_
  have hlen : ∀ w, r.1.rmatch w → w.length = 1 := by
    simp only [rules, List.mem_cons, List.not_mem_nil, or_false] at hr
    rcases hr with rfl | rfl
    · exact fun w => length_of_char
    · exact fun w => length_of_oneOf
  have hmore := hlen _ hmatch
  simp at hmore

theorem reads_comment (hs : chr '\n' ∉ w) :
    yylex.Reads ⟨.comment, n⟩ (w ++ s) [] ⟨.comment, n⟩ s := by
  induction w with
  | nil => exact .done
  | cons c w ih =>
      have hc : c ≠ chr '\n' := fun heq => hs (heq ▸ List.mem_cons_self)
      have hi : firstRule (rules .comment) [c] = some .comment := by
        have hnot : (RegularExpression.char (chr '\n')).rmatch [c] = false :=
          Bool.eq_false_iff.mpr fun hmatch =>
            hc (List.singleton_inj.mp ((RegularExpression.char_rmatch_iff _ _).mp hmatch))
        have hdot : (oneOf dot).rmatch [c] = true := oneOf_rmatch_iff.mpr ⟨c, mem_dot hc, rfl⟩
        simp [firstRule, rules, hnot, hdot]
      have hread := yylex.reads_turn ⟨.comment, n⟩
        (longest_comment (s := w ++ s) hi) (List.cons_ne_nil c [])
      have hact : yylex.act .comment [c] ⟨.comment, n⟩ = (none, ⟨.comment, n⟩) := by
        have hcount : [c].count (chr '\n') = 0 := by simp [hc]
        simp only [yylex, hcount]
        rfl
      rw [hact] at hread
      exact hread.trans (ih fun hmem => hs (List.mem_cons_of_mem c hmem))

theorem reads_commentEnd :
    yylex.Reads ⟨.comment, n⟩ (chr '\n' :: s) [] ⟨.initial, n + 1⟩ s := by
  have hi : firstRule (rules .comment) [chr '\n'] = some .commentEnd := by decide +kernel
  exact yylex.reads_turn ⟨.comment, n⟩ (longest_comment (s := s) hi)
    (List.cons_ne_nil _ [])

/-! ## Files -/

/-- The text from a line on is written with these tokens, each on its line. -/
inductive Written : ℕ → List Uchar → List (Token × ℕ) → Prop
  | done {n : ℕ} : Written n [] []
  | comment {n : ℕ} {w : List Uchar} : chr '\n' ∉ w → Written n (chr '#' :: w) []
  | blank {n : ℕ} {c : Uchar} {s : List Uchar} {ts : List (Token × ℕ)} :
      c ∈ blank → Written (n + [c].count (chr '\n')) s ts → Written n (c :: s) ts
  | line {n : ℕ} {w s : List Uchar} {ts : List (Token × ℕ)} :
      chr '\n' ∉ w → Written (n + 1) s ts → Written n (chr '#' :: w ++ chr '\n' :: s) ts
  | word {n : ℕ} {w s : List Uchar} {t : Token} {ts : List (Token × ℕ)} :
      Spells w t → Apart w s → Written n s ts → Written n (w ++ s) ((t, n) :: ts)

theorem count_hash (hw : chr '\n' ∉ w) : (chr '#' :: w).count (chr '\n') = 0 := by
  rw [List.count_cons_of_ne (by decide), List.count_eq_zero.mpr hw]

theorem Written.reads (h : Written n s ts) :
    ∃ cond, yylex.Reads ⟨.initial, n⟩ s ts ⟨cond, n + s.count (chr '\n')⟩ [] := by
  induction h with
  | done => exact ⟨.initial, .done⟩
  | @comment n w hw =>
      have hread := reads_comment (n := n) (s := []) hw
      rw [List.append_nil] at hread
      rw [count_hash hw]
      exact ⟨.comment, reads_hash.trans hread⟩
  | @blank n c s ts hc _ ih =>
      obtain ⟨cond, hread⟩ := ih
      refine ⟨cond, ?_⟩
      rw [← List.singleton_append, List.count_append, ← Nat.add_assoc]
      exact (reads_blank hc).trans hread
  | @line n w s ts hw _ ih =>
      obtain ⟨cond, hread⟩ := ih
      have hcount : (chr '#' :: w ++ chr '\n' :: s).count (chr '\n') = 1 + s.count (chr '\n') := by
        rw [List.count_append, count_hash hw, List.count_cons_self]
        omega
      rw [hcount, ← Nat.add_assoc]
      exact ⟨cond, reads_hash.trans ((reads_comment hw).trans (reads_commentEnd.trans hread))⟩
  | @word n w s t ts hw hs _ ih =>
      obtain ⟨cond, hread⟩ := ih
      obtain ⟨i, hi, ht⟩ := id hw
      have hcount : w.count (chr '\n') = 0 := count_newline hi (by rintro rfl; cases ht)
      rw [List.count_append, hcount, Nat.zero_add]
      exact ⟨cond, (reads_word hw hs).trans hread⟩

/-- What is written is what is read: the same tokens on the same lines, whatever blanks and
comments there are, and wherever words are written without a gap. -/
theorem tokens_of_written (h : Written 1 s ts) :
    tokens s = some (ts ++ [(.eof, 1 + s.count (chr '\n'))]) := by
  obtain ⟨cond, hread⟩ := h.reads
  rw [tokens, hread.scan le_rfl]
  rfl

/-- Every file has tokens, the last of which is the end of the file. -/
theorem exists_tokens (s : List Uchar) : ∃ ts line, tokens s = some (ts ++ [(.eof, line)]) := by
  obtain ⟨ts, st, hread⟩ := yylex_covers.reads ⟨.initial, 1⟩ s
  exact ⟨ts, st.line, by rw [tokens, hread.scan le_rfl]; rfl⟩

end Ptrtd.Config
