import Ptrtd.Verification.Config.Parser
import Ptrtd.Verification.Config.Scanner

/-! # What `read_config` makes of a file -/

namespace Ptrtd.Config

open LongestMatch

variable {g : Globals} {p : Groups} {d n b : ℕ} {port : BitVec 16} {c : Uchar} {w s : List Uchar}
  {ws : List (List Uchar)} {l : List (Token × ℕ)} {line : ℕ}

/-! ## Any file -/

/-- The end of the file stops the parser. -/
theorem exists_stop (p : Parser) (l : List (Token × ℕ)) (line : ℕ) :
    ∃ g stop, p.yyparse (l ++ [(.eof, line)]) = some (g, stop) := by
  induction l generalizing p with
  | nil =>
      have hstep := p.stepped .eof line
      rw [List.nil_append, Parser.yyparse]
      generalize p.step .eof line = o at hstep
      cases hstep with
      | @push item h _ =>
          have hmem : Token.eof ∈ item.tokens := by rw [h]; simp
          cases item <;> simp [Item.tokens] at hmem
      | @reduce x g h _ _ =>
          have hmem : Token.eof ∈ x.tokens := by rw [h]; simp
          cases x <;> simp [Setting.tokens] at hmem
      | stop h => exact ⟨_, _, rfl⟩
  | cons e l ih =>
      rw [List.cons_append, Parser.yyparse]
      cases p.step e.1 e.2 with
      | inl p => exact ih p
      | inr stop => exact ⟨p.globals, stop, rfl⟩

/-- Whatever is in the file, `read_config` comes to an end, and what it leaves is what whole
settings of the file make of the globals, one after the other up to where the parser stopped. -/
theorem readConfig_spec (g : Globals) (s : List Uchar) : ∃ l line g' stop xs,
    tokens s = some (l ++ [(.eof, line)]) ∧
      StopsAfter 0 g .start (l ++ [(.eof, line)]) g' stop xs ∧
        readConfig g (some s) = some (g', stop.result) := by
  obtain ⟨l, line, hl⟩ := exists_tokens s
  obtain ⟨g', stop, hstop⟩ := exists_stop ⟨0, .start, g⟩ l line
  obtain ⟨xs, hxs⟩ := yyparse_iff.mp hstop
  refine ⟨l, line, g', stop, xs, hl, hxs, ?_⟩
  rw [readConfig, hl, Option.bind_some, hstop]
  rfl

/-! ## Numbers -/

/-- What is read is what is written: whatever the layout and the comments of a file are, its tokens
decide, up to the one that stops the parser. -/
theorem readConfig_iff {g' : Globals} {r : Result} (h : Written 1 s l) :
    readConfig g (some s) = some (g', r) ↔ ∃ stop xs, stop.result = r ∧
      StopsAfter 0 g .start (l ++ [(.eof, 1 + s.count (chr '\n'))]) g' stop xs := by
  rw [readConfig, tokens_of_written h, Option.bind_some]
  constructor
  · intro hread
    obtain ⟨⟨g'', stop⟩, hparse, heq⟩ := Option.map_eq_some_iff.mp hread
    cases heq
    obtain ⟨xs, hxs⟩ := yyparse_iff.mp hparse
    exact ⟨stop, xs, rfl, hxs⟩
  · rintro ⟨stop, xs, rfl, hxs⟩
    rw [yyparse_iff.mpr ⟨xs, hxs⟩]
    rfl

/-- A setting, and then something else, which is not read. -/
theorem readConfig_iff_unread :
    readConfig Globals.init (some (httpPortId ++ ([chr '='] ++ ([chr '8'] ++ ([chr ';'] ++
      ([chr ')'] ++ [])))))) = some ({ Globals.init with httpPort := 8 }, .returned true) := by
  have hapart : ∀ s : List Uchar, Apart [chr '='] s ∧ Apart [chr ';'] s := fun s =>
    ⟨.inr ⟨_, rfl, by decide +kernel⟩, .inr ⟨_, rfl, by decide +kernel⟩⟩
  have hother : ∀ c ∈ [chr '=', chr ';', chr ')'], c ∉ wordChars := by decide +kernel
  refine (readConfig_iff (.word (t := .id httpPortId) ⟨.id, by decide +kernel, rfl⟩
    (.inl fun c hc => hother c (by simp_all)) (.word (t := .char (chr '='))
      ⟨.punct, by decide +kernel, rfl⟩ (hapart _).1 (.word (t := .int 8)
        ⟨.int, by decide +kernel, by decide⟩ (.inl fun c hc => hother c (by simp_all))
          (.word (t := .char (chr ';')) ⟨.punct, by decide +kernel, rfl⟩ (hapart _).2
            (.word (t := .char (chr ')')) ⟨.punct, by decide +kernel, rfl⟩
              (.inl fun c hc => by cases hc) .done)))))).mpr ?_
  have hfits : Fits 0 [.int httpPortId 8] := ⟨by decide, trivial⟩
  have hnot : ¬Opens [.char (chr ')')] := by
    rintro ⟨x, hx⟩
    cases x <;> simp [Setting.tokens] at hx
  exact ⟨.accept, [.int httpPortId 8], rfl, rfl, hfits, .start,
    [(.id httpPortId, 1), (.char (chr '='), 1), (.int 8, 1), (.char (chr ';'), 1)],
    .char (chr ')'), 1, [(.eof, 1)], rfl, rfl, by decide, rfl, hnot, by simp⟩

end Ptrtd.Config
