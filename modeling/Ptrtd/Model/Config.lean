import Ptrtd.Library.LongestMatch
import Ptrtd.Model.EventLoop
import Ptrtd.Model.Packet

/-! # The configuration file

`read_config` with the scanner of `scanner.l` and the parser of `grammar.y`. The scanner takes the
longest match and the first of the rules that have it; `yylineno` counts the newlines read. The
parser is the shift-reduce automaton of the grammar, with a default reduction where `settings` may
be empty and with the stack that its tables have by default. `char` is signed. -/

namespace Ptrtd.Config

open LongestMatch

/-! ## scanner.l -/

def chr (c : Char) : Uchar := UInt8.ofNat c.toNat

/-- The characters of a range in a bracket expression. -/
def range (lo hi : Char) : List Uchar :=
  (List.range' lo.toNat (hi.toNat + 1 - lo.toNat)).map UInt8.ofNat

def digit : List Uchar := range '0' '9'

def hexDigit : List Uchar := range '0' '9' ++ range 'a' 'f' ++ range 'A' 'F'

def idStart : List Uchar := chr '_' :: range 'a' 'z' ++ range 'A' 'Z'

def idRest : List Uchar := chr '_' :: range 'a' 'z' ++ range 'A' 'Z' ++ range '0' '9'

def punct : List Uchar := [chr '=', chr ';', chr '(', chr ')', chr ',']

def blank : List Uchar := [chr ' ', chr '\t', chr '\n']

/-- What the dot stands for. -/
def dot : List Uchar := ((List.range 256).map UInt8.ofNat).filter fun c => c ≠ chr '\n'

def keyword (l : List Char) : RegularExpression Uchar := word (l.map chr)

inductive StartCondition
  | initial
  | comment
  deriving DecidableEq, Repr

inductive Rule
  | pfx
  | plen
  | int
  | yes
  | no
  | id
  | punct
  | blank
  | hash
  | commentEnd
  | comment
  | other
  deriving DecidableEq, Repr

def hexGroup : RegularExpression Uchar := times (oneOf hexDigit) 1 4 * .char (chr ':')

/-- The rules of `scanner.l` that are active, in their order. -/
def rules : StartCondition → List (RegularExpression Uchar × Rule)
  | .initial =>
      [(times hexGroup 1 4 * .char (chr ':'), .pfx),
        (.char (chr '/') * times (oneOf digit) 2 2, .plen),
        (oneOf digit * (oneOf digit).star, .int),
        (keyword ['t', 'r', 'u', 'e'] + keyword ['y', 'e', 's'] + keyword ['o', 'n'], .yes),
        (keyword ['f', 'a', 'l', 's', 'e'] + keyword ['n', 'o'] + keyword ['o', 'f', 'f'], .no),
        (oneOf idStart * (oneOf idRest).star, .id),
        (oneOf punct, .punct),
        (oneOf blank, .blank),
        (.char (chr '#'), .hash),
        (oneOf dot, .other)]
  | .comment => [(.char (chr '\n'), .commentEnd), (oneOf dot, .comment)]

/-- `unsigned short p[4]` -/
abbrev Groups := { l : List (BitVec 16) // l.length = 4 }

/-- A token with the member of `yylval` that belongs to it. -/
inductive Token
  | int (d : ℤ)
  | plen (d : ℤ)
  | id (s : List Uchar)
  | pfx (p : Groups)
  | char (c : Uchar)
  | eof
  deriving DecidableEq, Repr

/-- `atol` of digits, which saturates. -/
def atol (w : List Uchar) : ℤ :=
  min (w.foldl (fun n c => 10 * n + (c.toNat - 48)) 0 : ℕ) (2 ^ 63 - 1)

def hexValue (c : Uchar) : ℕ :=
  if c ≤ chr '9' then c.toNat - 48 else if c ≤ chr 'F' then c.toNat - 55 else c.toNat - 87

/-- What `%hx` makes of digits. -/
def hexNumber (w : List Uchar) : BitVec 16 :=
  BitVec.ofNat 16 (w.foldl (fun n c => 16 * n + hexValue c) 0)

/-- The numbers that `sscanf` stores for so many `%hx:`. -/
def scanHx : ℕ → List Uchar → List (BitVec 16)
  | 0, _ => []
  | n + 1, s =>
      match s.span (· ∈ hexDigit) with
      | ([], _) => []
      | (w, c :: rest) => hexNumber w :: if c = chr ':' then scanHx n rest else []
      | (w, []) => [hexNumber w]

/-- The groups after `memset` and `sscanf`. -/
def scanGroups (w : List Uchar) : Groups :=
  ⟨(scanHx 4 w ++ List.replicate 4 0).take 4, by simp⟩

/-- `return yytext[0]`. Zero and negative numbers are the end of the input to the parser. -/
def charToken (c : Uchar) : Token := if c = 0 ∨ 128 ≤ c then .eof else .char c

/-- The token that the action of a rule returns. `yylval.s` has 64 bytes. -/
def token : Rule → List Uchar → Option Token
  | .pfx, w => some (.pfx (scanGroups w))
  | .plen, w => some (.plen (intOfLong (atol w.tail)))
  | .int, w => some (.int (intOfLong (atol w)))
  | .yes, _ => some (.int 1)
  | .no, _ => some (.int 0)
  | .id, w => some (.id (w.take 64))
  | .punct, w => w.head?.map charToken
  | .other, w => w.head?.map charToken
  | _, _ => none

/-- The start condition after the action of a rule. -/
def begins : Rule → StartCondition → StartCondition
  | .hash, _ => .comment
  | .commentEnd, _ => .initial
  | _, cond => cond

structure LexState where
  cond : StartCondition
  line : ℕ
  deriving DecidableEq, Repr

/-- The scanner. A token comes with the value of `yylineno`. -/
def yylex : Scanner LexState Uchar (Token × ℕ) Rule where
  rules st := rules st.cond
  act r w st :=
    let line := st.line + w.count (chr '\n')
    ((token r w).map (·, line), ⟨begins r st.cond, line⟩)

/-- The tokens of a file, the end of the file included. -/
def tokens (s : List Uchar) : Option (List (Token × ℕ)) :=
  (yylex.scan s.length ⟨.initial, 1⟩ s).map fun r => r.1 ++ [(.eof, r.2.line)]

/-! ## grammar.y -/

/-- What the configuration is about; `prefix` is in network byte order. -/
structure Globals where
  pfx : Table.Addr
  plen : ℤ
  httpPort : BitVec 16
  deriving DecidableEq

/-- `globals.prefix[i] = htons (...)` for the first four groups. -/
def setGroups (a : Table.Addr) (p : Groups) : Table.Addr :=
  ⟨p.1.flatMap (fun g => Wire.bytes16 g.toNat) ++ a.bytes.drop 8, by
    have hflat (l : List (BitVec 16)) :
        (l.flatMap fun g => Wire.bytes16 g.toNat).length = l.length * 2 := by
      simp [List.length_flatMap, Wire.bytes16]
    rw [List.length_append, hflat, p.2, List.length_drop, a.length_eq]⟩

def prefixId : List Uchar := ['p', 'r', 'e', 'f', 'i', 'x'].map chr

def httpPortId : List Uchar := ['h', 't', 't', 'p', '_', 'p', 'o', 'r', 't'].map chr

/-- The action of `ID '=' PREFIX PLEN ';'`; no result where the symbol is unknown. -/
def setPrefix (g : Globals) (s : List Uchar) (p : Groups) (d : ℤ) : Option Globals :=
  if s = prefixId then some { g with pfx := setGroups g.pfx p, plen := d } else none

/-- The action of `ID '=' INT ';'`. -/
def setInt (g : Globals) (s : List Uchar) (d : ℤ) : Option Globals :=
  if s = httpPortId then some { g with httpPort := BitVec.ofInt 16 d } else none

/-- What is on the stack above the settings that are complete. -/
inductive Item
  | start
  | id (s : List Uchar)
  | equals (s : List Uchar)
  | pfx (s : List Uchar) (p : Groups)
  | plen (s : List Uchar) (p : Groups) (d : ℤ)
  | int (s : List Uchar) (d : ℤ)
  deriving DecidableEq, Repr

def Item.length : Item → ℕ
  | .start => 0
  | .id _ => 1
  | .equals _ => 2
  | .pfx _ _ => 3
  | .plen _ _ _ => 4
  | .int _ _ => 3

structure Parser where
  settings : ℕ
  item : Item
  globals : Globals

/-- How `yyparse` ends: it returns 0, or 1 after `yyerror`, or 2 for want of memory, or
`unknown_symbol` ends the program. -/
inductive Stop
  | accept
  | abort (line : ℕ)
  | exhausted
  | exit (s : List Uchar) (line : ℕ)
  deriving DecidableEq, Repr

def yyMaxDepth : ℕ := 10000

namespace Parser

/-- Push a state. -/
def push (p : Parser) (item : Item) : Parser ⊕ Stop :=
  if 1 + p.settings + item.length < yyMaxDepth then .inl { p with item } else .inr .exhausted

/-- Shift the semicolon and reduce to `setting`, with the globals that the action leaves. -/
def reduce (p : Parser) (n : ℕ) (s : List Uchar) (g : Option Globals) (line : ℕ) : Parser ⊕ Stop :=
  if 1 + p.settings + n < yyMaxDepth then
    match g with
    | some globals => .inl ⟨p.settings + 1, .start, globals⟩
    | none => .inr (.exit s line)
  else .inr .exhausted

/-- One token. Where a setting may begin, any token but an ID makes the parser reduce to
`settings`; it accepts if there is a setting before it, or at the end of the input. -/
def step (p : Parser) (t : Token) (line : ℕ) : Parser ⊕ Stop :=
  match p.item, t with
  | .start, .id s => p.push (.id s)
  | .start, t => .inr (if p.settings = 0 ∧ t ≠ .eof then .abort line else .accept)
  | .id s, .char c => if c = chr '=' then p.push (.equals s) else .inr (.abort line)
  | .equals s, .pfx v => p.push (.pfx s v)
  | .equals s, .int d => p.push (.int s d)
  | .pfx s v, .plen d => p.push (.plen s v d)
  | .plen s v d, .char c =>
      if c = chr ';' then p.reduce 5 s (setPrefix p.globals s v d) line else .inr (.abort line)
  | .int s d, .char c =>
      if c = chr ';' then p.reduce 4 s (setInt p.globals s d) line else .inr (.abort line)
  | _, _ => .inr (.abort line)

/-- `yyparse`, with the globals that it leaves. There is no result if it asks for a token after
the last one. -/
def yyparse (p : Parser) : List (Token × ℕ) → Option (Globals × Stop)
  | [] => none
  | (t, line) :: ts =>
      match p.step t line with
      | .inl p => p.yyparse ts
      | .inr stop => some (p.globals, stop)

end Parser

/-! ## read_config -/

/-- `read_config` returns, or the program has ended. -/
inductive Result
  | returned (ok : Bool)
  | exited (s : List Uchar) (line : ℕ)
  deriving DecidableEq, Repr

def Stop.result : Stop → Result
  | .accept => .returned true
  | .exit s line => .exited s line
  | _ => .returned false

/-- `read_config`; the file may be missing. -/
def readConfig (g : Globals) : Option (List Uchar) → Option (Globals × Result)
  | none => some (g, .returned false)
  | some s =>
      (tokens s).bind fun ts =>
        (Parser.yyparse ⟨0, .start, g⟩ ts).map fun r => (r.1, r.2.result)

/-- The globals that `main` starts from: `fec0:0:0:ffff::`, and their initializer. -/
def Globals.init : Globals where
  pfx := ⟨[0xfe, 0xc0, 0, 0, 0, 0, 0xff, 0xff, 0, 0, 0, 0, 0, 0, 0, 0], rfl⟩
  plen := 64
  httpPort := 0

end Ptrtd.Config
