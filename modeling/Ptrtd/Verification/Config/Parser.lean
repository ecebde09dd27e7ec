import Ptrtd.Model.Config

/-! # The parser of the configuration file

A setting takes effect as soon as its semicolon has been read. What stops the parser is the first
token with which no setting goes on. -/

namespace Ptrtd.Config

/-- The right-hand sides of `setting`. -/
inductive Setting
  | pfx (s : List Uchar) (p : Groups) (d : ℤ)
  | int (s : List Uchar) (d : ℤ)
  deriving DecidableEq, Repr

namespace Setting

def tokens : Setting → List Token
  | .pfx s p d => [.id s, .char (chr '='), .pfx p, .plen d, .char (chr ';')]
  | .int s d => [.id s, .char (chr '='), .int d, .char (chr ';')]

def name : Setting → List Uchar
  | .pfx s _ _ => s
  | .int s _ => s

/-- The globals after a setting, unless its symbol is unknown. -/
def apply (g : Globals) : Setting → Option Globals
  | .pfx s p d => setPrefix g s p d
  | .int s d => setInt g s d

end Setting

variable {g g' : Globals} {n : ℕ} {x y : Setting} {xs : List Setting} {t : Token} {line : ℕ}
  {ts rest : List (Token × ℕ)} {pre l : List Token} {p : Parser} {item : Item} {stop : Stop}

/-- Some setting begins with these tokens. -/
def Opens (l : List Token) : Prop := ∃ x : Setting, l <+: x.tokens

/-- The tokens on the stack above the settings that are complete. -/
def Item.tokens : Item → List Token
  | .start => []
  | .id s => [.id s]
  | .equals s => [.id s, .char (chr '=')]
  | .pfx s p => [.id s, .char (chr '='), .pfx p]
  | .plen s p d => [.id s, .char (chr '='), .pfx p, .plen d]
  | .int s d => [.id s, .char (chr '='), .int d]

theorem Item.length_tokens (item : Item) : item.tokens.length = item.length := by
  cases item <;> rfl

theorem Item.opens (item : Item) : Opens item.tokens := by
  cases item with
  | start => exact ⟨.int [] 0, List.nil_prefix⟩
  | id s => exact ⟨.int s 0, _, rfl⟩
  | equals s => exact ⟨.int s 0, _, rfl⟩
  | pfx s p => exact ⟨.pfx s p 0, _, rfl⟩
  | plen s p d => exact ⟨.pfx s p d, _, rfl⟩
  | int s d => exact ⟨.int s d, _, rfl⟩

theorem Item.tokens_ne (item : Item) (x : Setting) : item.tokens ≠ x.tokens := by
  cases item <;> cases x <;> simp [Item.tokens, Setting.tokens]

theorem Item.tokens_injective {item' : Item} (h : item.tokens = item'.tokens) : item = item' := by
  cases item <;> cases item' <;> simp_all [Item.tokens]

theorem Item.exists_before (item : Item) (h : item.tokens = l ++ [t]) :
    ∃ before : Item, before.tokens = l := by
  have hl : l = item.tokens.dropLast := by rw [h, List.dropLast_concat]
  rw [hl]
  cases item with
  | start => exact ⟨.start, rfl⟩
  | id s => exact ⟨.start, rfl⟩
  | equals s => exact ⟨.id s, rfl⟩
  | pfx s p => exact ⟨.equals s, rfl⟩
  | plen s p d => exact ⟨.pfx s p, rfl⟩
  | int s d => exact ⟨.equals s, rfl⟩

theorem Setting.exists_item (x : Setting) : ∃ (item : Item) (t : Token),
    x.tokens = item.tokens ++ [t] := by
  cases x with
  | pfx s p d => exact ⟨.plen s p d, _, rfl⟩
  | int s d => exact ⟨.int s d, _, rfl⟩

theorem Setting.tokens_injective (h : x.tokens = y.tokens) : x = y := by
  cases x <;> cases y <;> simp_all [Setting.tokens]

/-! ## One token -/

/-- The token on the line stops the parser, after `n` settings and the tokens `pre`. -/
def Stops (n : ℕ) (g : Globals) (pre : List Token) (t : Token) (line : ℕ) : Stop → Prop
  | .accept => pre = [] ∧ ¬Opens [t] ∧ (n = 0 → t = .eof)
  | .abort l => l = line ∧ ¬Opens (pre ++ [t]) ∧ (pre = [] → n = 0 ∧ t ≠ .eof)
  | .exit s l => l = line ∧ 1 + n + (pre ++ [t]).length < yyMaxDepth ∧
      ∃ x : Setting, x.tokens = pre ++ [t] ∧ x.name = s ∧ x.apply g = none
  | .exhausted => Opens (pre ++ [t]) ∧ yyMaxDepth ≤ 1 + n + (pre ++ [t]).length

/-- What a token does: it is pushed, it completes a setting, or it stops the parser. -/
inductive Stepped (p : Parser) (t : Token) (line : ℕ) : Parser ⊕ Stop → Prop
  | push {item : Item} : item.tokens = p.item.tokens ++ [t] →
      1 + p.settings + (p.item.tokens ++ [t]).length < yyMaxDepth →
      Stepped p t line (.inl { p with item })
  | reduce {x : Setting} {g : Globals} : x.tokens = p.item.tokens ++ [t] →
      1 + p.settings + (p.item.tokens ++ [t]).length < yyMaxDepth →
      x.apply p.globals = some g → Stepped p t line (.inl ⟨p.settings + 1, .start, g⟩)
  | stop {stop : Stop} : Stops p.settings p.globals p.item.tokens t line stop →
      Stepped p t line (.inr stop)

theorem stepped_push (h : item.tokens = p.item.tokens ++ [t]) :
    Stepped p t line (p.push item) := by
  have hlen := congrArg List.length h
  rw [item.length_tokens] at hlen
  rw [Parser.push, hlen]
  by_cases hdepth : 1 + p.settings + (p.item.tokens ++ [t]).length < yyMaxDepth
  · rw [if_pos hdepth]
    exact .push h hdepth
  · rw [if_neg hdepth]
    exact .stop ⟨h ▸ item.opens, not_lt.mp hdepth⟩

theorem stepped_reduce {s : List Uchar} {o : Option Globals} (h : x.tokens = p.item.tokens ++ [t])
    (hn : n = (p.item.tokens ++ [t]).length) (hs : x.name = s) (ho : x.apply p.globals = o) :
    Stepped p t line (p.reduce n s o line) := by
  subst hn
  rw [Parser.reduce.eq_def]
  by_cases hdepth : 1 + p.settings + (p.item.tokens ++ [t]).length < yyMaxDepth
  · rw [if_pos hdepth]
    cases o with
    | some g => exact .reduce h hdepth ho
    | none => exact .stop ⟨rfl, hdepth, x, h, hs, ho⟩
  · rw [if_neg hdepth]
    exact .stop ⟨⟨x, h ▸ List.prefix_refl _⟩, not_lt.mp hdepth⟩

/-- No setting goes on with the token. -/
theorem stepped_abort (h : ∀ x : Setting, ¬p.item.tokens ++ [t] <+: x.tokens)
    (hne : p.item.tokens ≠ []) : Stepped p t line (.inr (.abort line)) :=
  .stop ⟨rfl, fun ⟨x, hx⟩ => h x hx, fun hnil => absurd hnil hne⟩

/-- A setting does not begin with the token. -/
theorem stepped_done (h : p.item = .start) (ht : ∀ s, t ≠ .id s) :
    Stepped p t line (.inr (if p.settings = 0 ∧ t ≠ .eof then .abort line else .accept)) := by
  have hnot : ¬Opens [t] := by
    rintro ⟨x, hx⟩
    cases x with
    | pfx s v d => exact ht s (by simpa [Setting.tokens] using hx)
    | int s d => exact ht s (by simpa [Setting.tokens] using hx)
  split
  · next hstart => exact .stop ⟨rfl, by rwa [h], fun _ => hstart⟩
  · next hstart =>
      exact .stop ⟨by rw [h]; rfl, hnot, fun hn => by_contra fun heof => hstart ⟨hn, heof⟩⟩

theorem Parser.stepped (p : Parser) (t : Token) (line : ℕ) : Stepped p t line (p.step t line) := by
  obtain ⟨n, item, g⟩ := p
  cases item with
  | start =>
      cases t with
      | id s => exact stepped_push rfl
      | _ => exact stepped_done rfl (by rintro s ⟨⟩)
  | id s =>
      cases t with
      | char c =>
          rw [Parser.step.eq_def]
          dsimp only
          split
          · next hc => exact stepped_push (by rw [hc]; rfl)
          · next hc =>
              refine stepped_abort (fun x => ?_) (List.cons_ne_nil _ _)
              cases x <;> simp [Item.tokens, Setting.tokens, hc]
      | _ =>
          refine stepped_abort (fun x => ?_) (List.cons_ne_nil _ _)
          cases x <;> simp [Item.tokens, Setting.tokens]
  | equals s =>
      cases t with
      | pfx v => exact stepped_push rfl
      | int d => exact stepped_push rfl
      | _ =>
          refine stepped_abort (fun x => ?_) (List.cons_ne_nil _ _)
          cases x <;> simp [Item.tokens, Setting.tokens]
  | pfx s v =>
      cases t with
      | plen d => exact stepped_push rfl
      | _ =>
          refine stepped_abort (fun x => ?_) (List.cons_ne_nil _ _)
          cases x <;> simp [Item.tokens, Setting.tokens]
  | plen s v d =>
      cases t with
      | char c =>
          rw [Parser.step.eq_def]
          dsimp only
          split
          · next hc => exact stepped_reduce (x := .pfx s v d) (by rw [hc]; rfl) rfl rfl rfl
          · next hc =>
              refine stepped_abort (fun x => ?_) (List.cons_ne_nil _ _)
              cases x <;> simp [Item.tokens, Setting.tokens, hc]
      | _ =>
          refine stepped_abort (fun x => ?_) (List.cons_ne_nil _ _)
          cases x <;> simp [Item.tokens, Setting.tokens]
  | int s d =>
      cases t with
      | char c =>
          rw [Parser.step.eq_def]
          dsimp only
          split
          · next hc => exact stepped_reduce (x := .int s d) (by rw [hc]; rfl) rfl rfl rfl
          · next hc =>
              refine stepped_abort (fun x => ?_) (List.cons_ne_nil _ _)
              cases x <;> simp [Item.tokens, Setting.tokens, hc]
      | _ =>
          refine stepped_abort (fun x => ?_) (List.cons_ne_nil _ _)
          cases x <;> simp [Item.tokens, Setting.tokens]

/-- If a setting goes on with the token and the stack suffices, then the symbol is unknown. -/
theorem Stops.unknown (h : Stops n g pre t line stop) (hopen : Opens (pre ++ [t]))
    (hdepth : 1 + n + (pre ++ [t]).length < yyMaxDepth) :
    ∃ x : Setting, x.tokens = pre ++ [t] ∧ x.apply g = none ∧ stop = .exit x.name line := by
  cases stop with
  | accept =>
      obtain ⟨rfl, hnot, -⟩ := h
      exact absurd hopen hnot
  | abort l => exact absurd hopen h.2.1
  | exit s l =>
      obtain ⟨rfl, -, x, hx, rfl, hg⟩ := h
      exact ⟨x, hx, hg, rfl⟩
  | exhausted => exact absurd hdepth (not_lt.mpr h.2)

/-- At most one thing stops the parser. -/
theorem Stops.unique {stop' : Stop} (h : Stops n g pre t line stop)
    (h' : Stops n g pre t line stop') : stop = stop' := by
  by_cases hopen : Opens (pre ++ [t])
  · by_cases hdepth : 1 + n + (pre ++ [t]).length < yyMaxDepth
    · obtain ⟨x, hx, -, rfl⟩ := h.unknown hopen hdepth
      obtain ⟨y, hy, -, rfl⟩ := h'.unknown hopen hdepth
      rw [Setting.tokens_injective (hx.trans hy.symm)]
    · have hexhausted {stop : Stop} (h : Stops n g pre t line stop) : stop = .exhausted := by
        cases stop with
        | accept =>
            obtain ⟨rfl, hnot, -⟩ := h
            exact absurd hopen hnot
        | abort l => exact absurd hopen h.2.1
        | exit s l => exact absurd h.2.1 hdepth
        | exhausted => rfl
      rw [hexhausted h, hexhausted h']
  · have hopens (x : Setting) (hx : x.tokens = pre ++ [t]) : Opens (pre ++ [t]) :=
      ⟨x, hx ▸ List.prefix_refl _⟩
    cases stop with
    | accept =>
        cases stop' with
        | accept => rfl
        | abort l => exact absurd (h.2.2 (h'.2.2 h.1).1) (h'.2.2 h.1).2
        | exit s l => exact absurd (hopens _ h'.2.2.choose_spec.1) hopen
        | exhausted => exact absurd h'.1 hopen
    | abort l =>
        cases stop' with
        | accept => exact absurd (h'.2.2 (h.2.2 h'.1).1) (h.2.2 h'.1).2
        | abort l' => rw [h.1, h'.1]
        | exit s l => exact absurd (hopens _ h'.2.2.choose_spec.1) hopen
        | exhausted => exact absurd h'.1 hopen
    | exit s l => exact absurd (hopens _ h.2.2.choose_spec.1) hopen
    | exhausted => exact absurd h.1 hopen

/-- A token does one thing. -/
theorem Stepped.unique {o o' : Parser ⊕ Stop} (h : Stepped p t line o)
    (h' : Stepped p t line o') : o = o' := by
  have hpush {item : Item} (hitem : item.tokens = p.item.tokens ++ [t])
      (hdepth : 1 + p.settings + (p.item.tokens ++ [t]).length < yyMaxDepth) {stop : Stop}
      (hstop : Stops p.settings p.globals p.item.tokens t line stop) : False := by
    obtain ⟨x, hx, -⟩ := hstop.unknown (hitem ▸ item.opens) hdepth
    exact item.tokens_ne x (hitem.trans hx.symm)
  have hreduce {x : Setting} {g : Globals} (hx : x.tokens = p.item.tokens ++ [t])
      (hdepth : 1 + p.settings + (p.item.tokens ++ [t]).length < yyMaxDepth)
      (hg : x.apply p.globals = some g) {stop : Stop}
      (hstop : Stops p.settings p.globals p.item.tokens t line stop) : False := by
    obtain ⟨y, hy, hnone, -⟩ := hstop.unknown ⟨x, hx ▸ List.prefix_refl _⟩ hdepth
    rw [Setting.tokens_injective (hy.trans hx.symm), hg] at hnone
    cases hnone
  cases h with
  | push hitem hdepth =>
      cases h' with
      | push hitem' _ => rw [Item.tokens_injective (hitem.trans hitem'.symm)]
      | reduce hx _ _ => exact absurd (hitem.trans hx.symm) (Item.tokens_ne _ _)
      | stop hstop => exact (hpush hitem hdepth hstop).elim
  | reduce hx hdepth hg =>
      cases h' with
      | push hitem _ => exact absurd (hitem.trans hx.symm) (Item.tokens_ne _ _)
      | reduce hx' _ hg' =>
          rw [Setting.tokens_injective (hx.trans hx'.symm), hg'] at hg
          rw [Option.some.inj hg]
      | stop hstop => exact (hreduce hx hdepth hg hstop).elim
  | stop hstop =>
      cases h' with
      | push hitem hdepth => exact (hpush hitem hdepth hstop).elim
      | reduce hx hdepth hg => exact (hreduce hx hdepth hg hstop).elim
      | stop hstop' => rw [hstop.unique hstop']

theorem step_of_stops (h : Stops p.settings p.globals p.item.tokens t line stop) :
    p.step t line = .inr stop := (p.stepped t line).unique (.stop h)

theorem step_of_push (h : item.tokens = p.item.tokens ++ [t])
    (hdepth : 1 + p.settings + item.tokens.length < yyMaxDepth) :
    p.step t line = .inl { p with item } := (p.stepped t line).unique (.push h (h ▸ hdepth))

theorem step_of_reduce (h : x.tokens = p.item.tokens ++ [t])
    (hdepth : 1 + p.settings + x.tokens.length < yyMaxDepth) (hg : x.apply p.globals = some g) :
    p.step t line = .inl ⟨p.settings + 1, .start, g⟩ :=
  (p.stepped t line).unique (.reduce h (h ▸ hdepth) hg)

/-! ## Runs -/

/-- The stack suffices for these settings, one after the other, after `n` of them. -/
def Fits : ℕ → List Setting → Prop
  | _, [] => True
  | n, x :: xs => 1 + n + x.tokens.length < yyMaxDepth ∧ Fits (n + 1) xs

theorem Fits.lt (h : Fits n xs) (hn : 1 + n < yyMaxDepth) : 1 + (n + xs.length) < yyMaxDepth := by
  induction xs generalizing n with
  | nil => exact hn
  | cons x xs ih =>
      obtain ⟨hdepth, hfits⟩ := h
      have hpos : 0 < x.tokens.length := by cases x <;> exact Nat.succ_pos _
      have hlt := ih hfits (by omega)
      rw [List.length_cons]
      omega

/-- Part of a setting is read. -/
theorem yyparse_item (hts : ts.map Prod.fst = item.tokens)
    (hdepth : 1 + n + item.tokens.length < yyMaxDepth) :
    Parser.yyparse ⟨n, .start, g⟩ (ts ++ rest) = Parser.yyparse ⟨n, item, g⟩ rest := by
  induction ts using List.reverseRecOn generalizing item rest with
  | nil =>
      have hstart : item.tokens = Item.start.tokens := hts.symm
      rw [Item.tokens_injective hstart, List.nil_append]
  | append_singleton ts e ih =>
      obtain ⟨t, line⟩ := e
      rw [List.map_append] at hts
      obtain ⟨before, hbefore⟩ := item.exists_before hts.symm
      have hitem : item.tokens = before.tokens ++ [t] := by rw [hbefore, ← hts]; rfl
      have hlen := congrArg List.length hitem
      rw [List.length_append, List.length_singleton] at hlen
      rw [List.append_assoc, List.singleton_append, ih hbefore.symm (by omega), Parser.yyparse,
        step_of_push hitem hdepth]

/-- A setting is read. -/
theorem yyparse_setting (hts : ts.map Prod.fst = x.tokens)
    (hdepth : 1 + n + x.tokens.length < yyMaxDepth) (hg : x.apply g = some g') :
    Parser.yyparse ⟨n, .start, g⟩ (ts ++ rest) = Parser.yyparse ⟨n + 1, .start, g'⟩ rest := by
  obtain ⟨item, last, hx⟩ := x.exists_item
  rw [hx] at hts
  obtain ⟨before, after, rfl, hbefore, hafter⟩ := List.map_eq_append_iff.mp hts
  obtain ⟨⟨t, line⟩, rfl, ht⟩ := List.map_eq_singleton_iff.mp hafter
  cases ht
  have hlen := congrArg List.length hx
  rw [List.length_append, List.length_singleton] at hlen
  rw [List.append_assoc, List.singleton_append, yyparse_item hbefore (by omega), Parser.yyparse,
    step_of_reduce hx hdepth hg]

theorem yyparse_settings (hts : ts.map Prod.fst = xs.flatMap Setting.tokens) (hfits : Fits n xs)
    (hg : xs.foldlM Setting.apply g = some g') :
    Parser.yyparse ⟨n, .start, g⟩ (ts ++ rest) =
      Parser.yyparse ⟨n + xs.length, .start, g'⟩ rest := by
  induction xs generalizing n g ts with
  | nil =>
      cases hg
      rw [List.map_eq_nil_iff.mp hts]
      rfl
  | cons x xs ih =>
      obtain ⟨hdepth, hfits⟩ := hfits
      obtain ⟨before, after, rfl, hbefore, hafter⟩ := List.map_eq_append_iff.mp hts
      obtain ⟨g₁, hg₁, hg⟩ := Option.bind_eq_some_iff.mp hg
      rw [List.append_assoc, yyparse_setting hbefore hdepth hg₁, ih hafter hfits hg,
        List.length_cons, Nat.add_assoc, Nat.add_comm 1]

/-- What stops the parser, after complete settings and part of another. -/
structure StopsAfter (n : ℕ) (g : Globals) (item : Item) (ts : List (Token × ℕ)) (g' : Globals)
    (stop : Stop) (xs : List Setting) : Prop where
  applied : xs.foldlM Setting.apply g = some g'
  fits : Fits n xs
  stopped : ∃ (last : Item) (used : List (Token × ℕ)) (t : Token) (line : ℕ)
      (rest : List (Token × ℕ)), ts = used ++ (t, line) :: rest ∧
    item.tokens ++ used.map Prod.fst = xs.flatMap Setting.tokens ++ last.tokens ∧
      1 + (n + xs.length) + last.tokens.length < yyMaxDepth ∧
        Stops (n + xs.length) g' last.tokens t line stop

theorem yyparse_sound (hdepth : 1 + n + item.tokens.length < yyMaxDepth)
    (h : Parser.yyparse ⟨n, item, g⟩ ts = some (g', stop)) :
    ∃ xs, StopsAfter n g item ts g' stop xs := by
  induction ts generalizing n item g with
  | nil => cases h
  | cons e ts ih =>
      obtain ⟨t, line⟩ := e
      have hstep := Parser.stepped ⟨n, item, g⟩ t line
      rw [Parser.yyparse] at h
      generalize Parser.step ⟨n, item, g⟩ t line = o at h hstep
      cases hstep with
      | @push item' hitem hfit =>
          obtain ⟨xs, hxs⟩ := ih (hitem ▸ hfit) h
          obtain ⟨last, used, t', line', rest, rfl, hused, hlast, hstops⟩ := hxs.stopped
          refine ⟨xs, hxs.applied, hxs.fits, last, (t, line) :: used, t', line', rest, rfl, ?_,
            hlast, hstops⟩
          rw [← hused, hitem, List.append_assoc]
          rfl
      | @reduce x g₁ hx hfit hg₁ =>
          have hpos : 0 < x.tokens.length := by cases x <;> exact Nat.succ_pos _
          rw [← hx] at hfit
          dsimp only at hfit
          have hroom : 1 + (n + 1) + Item.start.tokens.length < yyMaxDepth := by
            change 1 + (n + 1) + 0 < yyMaxDepth
            omega
          obtain ⟨xs, hxs⟩ := ih hroom h
          obtain ⟨last, used, t', line', rest, rfl, hused, hlast, hstops⟩ := hxs.stopped
          have hcount : n + 1 + xs.length = n + (x :: xs).length := by
            rw [List.length_cons]
            omega
          refine ⟨x :: xs, ?_, ⟨hfit, hxs.fits⟩, last, (t, line) :: used, t', line', rest,
            rfl, ?_, ?_, ?_⟩
          · exact Option.bind_eq_some_iff.mpr ⟨g₁, hg₁, hxs.applied⟩
          · rw [List.flatMap_cons, List.append_assoc, ← hused, hx, List.append_assoc]
            rfl
          · rw [← hcount]
            exact hlast
          · rw [← hcount]
            exact hstops
      | @stop stop' hstop =>
          cases h
          exact ⟨[], rfl, trivial, item, [], t, line, ts, rfl, by simp, hdepth, hstop⟩

/-- What the parser does: it applies settings, one after the other and each of them whole, until
a token stops it; of what comes after this token nothing matters. -/
theorem yyparse_iff : Parser.yyparse ⟨0, .start, g⟩ ts = some (g', stop) ↔
    ∃ xs, StopsAfter 0 g .start ts g' stop xs := by
  have hroom : 1 + 0 + Item.start.tokens.length < yyMaxDepth := by decide
  refine ⟨yyparse_sound hroom, ?_⟩
  rintro ⟨xs, happlied, hfits, last, used, t, line, rest, rfl, hused, hlast, hstops⟩
  obtain ⟨before, after, rfl, hbefore, hafter⟩ := List.map_eq_append_iff.mp hused
  rw [List.append_assoc, yyparse_settings hbefore hfits happlied, yyparse_item hafter hlast,
    Parser.yyparse, step_of_stops hstops]

end Ptrtd.Config
