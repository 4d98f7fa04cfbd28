import Ttools.Expr.Syntax
import Ttools.Support.Machine
import Ttools.Support.Patterns

/-!
# The scanner of the assembler

The rules of `ast/scan.l` and what flex does with them.  A command mnemonic, a directive such as
`.word` and the word of the same letters are one token here: their patterns match the same text,
and which of them returns it changes nothing of what is read.  What is put in `yylval`, the texts
of the errors and the current line and file are left out.

* `rules`: the rules, in their order.
* `scanStep`: one rule, or one turn of a loop of an action.
-/

namespace Ttools.Ast

open Support Support.Pattern

/-! ### Characters -/

/-- The byte of a character. -/
def chr (c : Char) : Byte := BitVec.ofNat 8 c.toNat

/-- `\n`. -/
def newline : Byte := 0x0a

/-- A double quote. -/
def dquote : Byte := 0x22

/-- An apostrophe. -/
def apostrophe : Byte := 0x27

/-- A backslash. -/
def backslash : Byte := 0x5c

/-- A slash. -/
def slash : Byte := 0x2f

/-- An asterisk. -/
def star : Byte := 0x2a

/-- A hash. -/
def hash : Byte := 0x23

/-- A text. -/
def lit (t : List Byte) : Pattern Byte := fun w => w == t

/-- One of the characters between two. -/
def range (a b : Char) (c : Byte) : Bool := decide (chr a ≤ c) && decide (c ≤ chr b)

/-- `.`: everything but a newline. -/
def dot (c : Byte) : Bool := c != newline

/-- `[ \t]`. -/
def blank (c : Byte) : Bool := c == 0x20 || c == 0x09

/-- `[ \t\r]`. -/
def blankCr (c : Byte) : Bool := blank c || c == 0x0d

/-- `[ \t\f\r]`. -/
def space (c : Byte) : Bool := blankCr c || c == 0x0c

/-- `\r`. -/
def isCr (c : Byte) : Bool := c == 0x0d

/-- `[0-7]`. -/
def octal : Byte → Bool := range '0' '7'

/-- `[0-9]`. -/
def digit : Byte → Bool := range '0' '9'

/-- `[0-9a-fA-F]`. -/
def hex (c : Byte) : Bool := digit c || range 'a' 'f' c || range 'A' 'F' c

/-- `[xX]`. -/
def isX (c : Byte) : Bool := c == chr 'x' || c == chr 'X'

/-- `[a-zA-Z_$@]`. -/
def letter (c : Byte) : Bool :=
  range 'a' 'z' c || range 'A' 'Z' c || c == chr '_' || c == chr '$' || c == chr '@'

/-- `[a-zA-Z0-9_$@]`. -/
def wordChar (c : Byte) : Bool := letter c || digit c

/-- `[0-9a-zA-Z_.$@]`. -/
def nameChar (c : Byte) : Bool := wordChar c || c == chr '.'

/-- `[^\\\"]`. -/
def plainChar (c : Byte) : Bool := c != backslash && c != dquote

/-- `[^*\n]`. -/
def notStar (c : Byte) : Bool := c != star && c != newline

/-- `[^*/\n]`. -/
def notStarSlash (c : Byte) : Bool := notStar c && c != slash

/-- `*`. -/
def isStar (c : Byte) : Bool := c == star

/-! ### The rules -/

/-- The start conditions. -/
inductive Cond where
  | initial | string | comment | linedir
  deriving DecidableEq, Repr

/-- The kinds of tokens; `op` is an operator and `word` a mnemonic or a name. -/
inductive Tok where
  | diglab | digrefB | digrefF | number | string | dotWord | op | word
  deriving DecidableEq, Repr

/-- What a rule does: it returns a token, which is always followed by `INITIAL`, eats its text, goes
to a start condition, or reads up to a newline, which it may put back, and goes to `INITIAL`. -/
inductive Action where
  | token (t : Tok)
  | eat
  | begin (c : Cond)
  | skipLine (unput : Bool)
  deriving DecidableEq, Repr

/-- A rule.  The pattern has the trailing context with it, and `keep` is then how much is before
it; `bol` is a `^`. -/
structure Rule where
  conds : List Cond
  pattern : Pattern Byte
  action : Action
  keep : Option Nat := none
  bol : Bool := false

/-- Digital labels and references. -/
def labelRules : List Rule :=
  [ { conds := [.initial], keep := some 1, action := .token .diglab
      pattern := seq (one digit) (seq (many blank) (lit [chr ':'])) },
    { conds := [.initial], action := .token .digrefB
      pattern := seq (one digit) (lit [chr 'b']) },
    { conds := [.initial], action := .token .digrefF
      pattern := seq (one digit) (lit [chr 'f']) } ]

/-- Numbers. -/
def numberRules : List Rule :=
  [ { conds := [.initial], action := .token .number
      pattern := seq (lit [chr '0']) (seq (one isX) (many1 hex)) },
    { conds := [.initial], action := .token .number
      pattern := seq (lit [chr '0']) (many1 octal) },
    { conds := [.initial], action := .token .number
      pattern := many1 digit } ]

/-- The patterns of the character constants.  In the mode for which `scan.c` was made, that of lex,
`r{n,m}` repeats all that it is concatenated to on its left, here with the quote and the
backslash. -/
def charPatterns : List (Pattern Byte) :=
  [ seq (times 2 2 (seq (lit [apostrophe, backslash]) (seq (one isX) (one hex))))
      (lit [apostrophe]),
    seq (times 1 3 (seq (lit [apostrophe, backslash]) (one octal))) (lit [apostrophe]),
    seq (lit [apostrophe, backslash]) (seq (one dot) (lit [apostrophe])),
    seq (lit [apostrophe]) (seq (one dot) (lit [apostrophe])) ]

/-- Character constants. -/
def charRules : List Rule :=
  charPatterns.map fun P => { conds := [.initial], action := .token .number, pattern := P }

/-- The beginning of a string. -/
def quoteRule : Rule := { conds := [.initial], action := .begin .string, pattern := lit [dquote] }

/-- A backslash with one octal digit. -/
def octalEscape : Pattern Byte := seq (lit [backslash]) (one octal)

/-- A backslash with an `x` and one hexadecimal digit. -/
def hexEscape : Pattern Byte := seq (lit [backslash]) (seq (one isX) (one hex))

/-- Inside a string; the backslash is repeated. -/
def stringRules : List Rule :=
  [ { conds := [.string], action := .token .string, pattern := lit [dquote] },
    { conds := [.string], action := .eat, pattern := many1 plainChar },
    { conds := [.string], action := .eat, pattern := times 1 3 octalEscape },
    { conds := [.string], action := .eat, pattern := times 2 2 hexEscape },
    { conds := [.string], action := .eat, pattern := seq (lit [backslash]) (one dot) } ]

/-- A newline with the space around it. -/
def newlineRule : Rule :=
  { conds := [.initial, .comment], action := .eat
    pattern := seq (many space) (seq (lit [newline]) (many space)) }

/-- Space. -/
def spaceRule : Rule := { conds := [.initial, .comment], action := .eat, pattern := many space }

/-- A comment up to the end of the line. -/
def lineCommentRule : Rule :=
  { conds := [.initial], action := .skipLine true
    pattern := seq (lit [slash, slash]) (many dot) }

/-- The beginning of a comment. -/
def commentRule : Rule :=
  { conds := [.initial], action := .begin .comment, pattern := lit [slash, star] }

/-- Inside a comment. -/
def commentRules : List Rule :=
  [ { conds := [.comment], action := .eat, pattern := many notStar },
    { conds := [.comment], action := .eat, pattern := seq (many1 isStar) (many notStarSlash) },
    { conds := [.comment], action := .begin .initial
      pattern := seq (many1 isStar) (lit [slash]) } ]

/-- A file name. -/
def fileName : Pattern Byte := seq (lit [dquote]) (seq (many1 dot) (lit [dquote]))

/-- The trailing contexts of the `#` that begins a line directive. -/
def directivePatterns : List (Pattern Byte) :=
  [ seq (many blank) (seq (lit [chr 'l', chr 'i', chr 'n', chr 'e']) (seq (many1 blank)
      (seq (many1 digit) (seq (many1 blank) (seq fileName (seq (many blankCr)
        (lit [newline]))))))),
    seq (many blank) (seq (lit [chr 'l', chr 'i', chr 'n', chr 'e']) (seq (many1 blank)
      (seq (many1 digit) (seq (many blank) (lit [newline]))))),
    seq (many blank) (seq (many1 digit) (seq (many1 blank) (seq fileName (seq (many1 blank)
      (seq (many1 digit) (seq (many blankCr) (lit [newline]))))))),
    seq (many blank) (seq (many1 digit) (seq (many1 blank) (seq fileName (seq (many blankCr)
      (lit [newline]))))),
    seq (many blank) (seq (many1 digit) (seq (many blankCr) (lit [newline]))) ]

/-- Line directives. -/
def directiveRules : List Rule :=
  directivePatterns.map fun P =>
    { conds := [.initial], bol := true, keep := some 1, action := .begin .linedir
      pattern := seq (lit [hash]) P }

/-- Any other line that begins with a hash. -/
def unrecognizedRule : Rule :=
  { conds := [.initial], bol := true, action := .skipLine true
    pattern := seq (lit [hash]) (one dot) }

/-- Inside a line directive. -/
def linedirRules : List Rule :=
  [ { conds := [.linedir], action := .eat, pattern := many blank },
    { conds := [.linedir], action := .eat
      pattern := lit [chr 'l', chr 'i', chr 'n', chr 'e'] },
    { conds := [.linedir], action := .eat, pattern := seq (many1 digit) (many1 blank) },
    { conds := [.linedir], action := .begin .initial
      pattern := seq (many isCr) (lit [newline]) },
    { conds := [.linedir], action := .skipLine false, pattern := fileName } ]

/-- Directives and segments. -/
def dotWordRule : Rule :=
  { conds := [.initial], action := .token .dotWord
    pattern := seq (lit [chr '.']) (many1 wordChar) }

/-- The operators. -/
def operators : List (List Char) :=
  [['?'], ['['], [']'], ['('], [')'], ['|', '|'], ['&', '&'], ['~'], ['|'], ['^'], ['&'], ['='],
    ['=', '='], ['!', '='], ['<'], ['>'], ['<', '='], ['>', '='], ['<', '<'], ['>', '>'], ['+'],
    ['-'], ['*'], ['/'], ['%'], [';'], [','], ['.'], [':'], [':', ':']]

/-- Operators. -/
def operatorRules : List Rule :=
  operators.map fun t =>
    { conds := [.initial], action := .token .op, pattern := lit (t.map chr) }

/-- Mnemonics and names. -/
def wordRule : Rule :=
  { conds := [.initial], action := .token .word
    pattern := seq (one letter) (many nameChar) }

/-- An unexpected character. -/
def dotRule : Rule := { conds := [.initial], action := .eat, pattern := one dot }

/-- The rule that flex adds: what nothing matches is copied to the output. -/
def defaultRule : Rule :=
  { conds := [.initial, .string, .comment, .linedir], action := .eat, pattern := one fun _ => true }

/-- The rules that say something about their text. -/
def properRules : List Rule :=
  labelRules ++ numberRules ++ charRules ++ [quoteRule] ++ stringRules ++
    [newlineRule, spaceRule, lineCommentRule, commentRule] ++ commentRules ++ directiveRules ++
    [unrecognizedRule] ++ linedirRules ++ [dotWordRule] ++ operatorRules ++ [wordRule]

/-- All the rules. -/
def rules : List Rule := properRules ++ [dotRule, defaultRule]

/-! ### The texts of a pattern -/

section

variable {t u : List Byte}

theorem lit_iff : lit t u = true ↔ u = t := beq_iff_eq

theorem octalEscape_iff : octalEscape u = true ↔ ∃ d, u = [backslash, d] ∧ octal d = true := by
  rw [octalEscape, seq_iff]
  constructor
  · rintro ⟨v, w, rfl, hv, hw⟩
    obtain rfl := lit_iff.mp hv
    obtain ⟨d, rfl, hd⟩ := one_iff.mp hw
    exact ⟨d, rfl, hd⟩
  · rintro ⟨d, rfl, hd⟩
    exact ⟨[backslash], [d], rfl, lit_iff.mpr rfl, one_iff.mpr ⟨d, rfl, hd⟩⟩

theorem hexEscape_iff :
    hexEscape u = true ↔ ∃ x d, u = [backslash, x, d] ∧ isX x = true ∧ hex d = true := by
  rw [hexEscape, seq_iff]
  constructor
  · rintro ⟨v, w, rfl, hv, hw⟩
    obtain rfl := lit_iff.mp hv
    obtain ⟨y, z, rfl, hy, hz⟩ := seq_iff.mp hw
    obtain ⟨x, rfl, hx⟩ := one_iff.mp hy
    obtain ⟨d, rfl, hd⟩ := one_iff.mp hz
    exact ⟨x, d, rfl, hx, hd⟩
  · rintro ⟨x, d, rfl, hx, hd⟩
    exact ⟨[backslash], [x, d], rfl, lit_iff.mpr rfl, seq_iff.mpr ⟨[x], [d], rfl,
      one_iff.mpr ⟨x, rfl, hx⟩, one_iff.mpr ⟨d, rfl, hd⟩⟩⟩

end

/-! ### The scanner -/

/-- Between two rules, or in the loop that reads up to a newline. -/
inductive Mode where
  | scan (c : Cond)
  | skipLine (unput : Bool)
  deriving DecidableEq, Repr

/-- The scanner: `bol` is at the beginning of a line, `rest` the input that has not been read. -/
structure Scanner where
  mode : Mode
  bol : Bool
  rest : List Byte
  tokens : List (Tok × List Byte)

/-- Before the first call of `yylex`. -/
def Scanner.start (file : List Byte) : Scanner := ⟨.scan .initial, true, file, []⟩

/-- The rules that are active. -/
def active (c : Cond) (bol : Bool) (r : Rule) : Bool := decide (c ∈ r.conds) && (bol || !r.bol)

/-- What an action does, once the text has been read. -/
def act (c : Cond) (text rest : List Byte) (s : Scanner) : Action → Scanner
  | .token t =>
      { s with mode := .scan .initial, rest := rest, tokens := s.tokens ++ [(t, text)] }
  | .eat => { s with mode := .scan c, rest := rest }
  | .begin c' => { s with mode := .scan c', rest := rest }
  | .skipLine unput => { s with mode := .skipLine unput, rest := rest }

/-- One rule, or one turn of the loop; the result is what has been returned when `yylex` returns
the end of the file. -/
def scanStep (s : Scanner) : Scanner ⊕ List (Tok × List Byte) :=
  match s.mode, s.rest with
  | .skipLine _, [] => .inl s -- `input ()` is no newline, however often it is called
  | .skipLine unput, c :: rest =>
      if c = newline then
        .inl
          { s with mode := .scan .initial, bol := true, rest := if unput then c :: rest else rest }
      else .inl { s with bol := false, rest := rest }
  | .scan .string, [] => .inl s -- the `<<EOF>>` rule of a string only reports an error
  | .scan _, [] => .inr s.tokens
  | .scan c, _ :: _ =>
      match best Rule.pattern (rules.filter (active c s.bol)) s.rest with
      | some (n, r) =>
          let text := s.rest.take (r.keep.getD n)
          .inl (act c text (s.rest.drop (r.keep.getD n))
            { s with bol := text.getLast? == some newline } r.action)
      | none => .inl s

end Ttools.Ast
