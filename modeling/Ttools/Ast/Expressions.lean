import Ttools.Ast.Parse
import Ttools.Ast.Tokens

/-!
# Expressions

An expression of C in a file, with any white space before its tokens: what the rules of
`ast/scan.l` return for it, and what the parser and the actions of `ast/parse.y` make of that.

* `Source.scansTo_iff`: the tokens that are returned, if there is a rule for each.
* `Source.wrong`: a label, or the suffix of a constant, is in the wrong place.
* `word_value_read`: the types of the constants matter only where an operator that depends on them
  has an unsigned operand.
* `expression_iff`: apart from that, the text means what it means in C exactly when it has none of
  these and no division of constants traps.
-/

namespace Ttools.Ast

open Support Support.Pattern

/-! ### What the parser gets -/

/-- The actions of the rules for numbers and character constants. -/
inductive NumberAct where
  | hex | octal | decimal | charHex | charOctal | charEscape | char
  deriving DecidableEq, Repr

/-- The patterns in the order of the rules, with their actions. -/
def numberActs : List (Pattern Byte × NumberAct) :=
  ((numberRules ++ charRules).map (·.pattern)).zip
    [.hex, .octal, .decimal, .charHex, .charOctal, .charEscape, .char]

/-- `yylval`; `strtoul` reads the digits. -/
def NumberAct.lnum (text : List Byte) : NumberAct → Word
  | hex => BitVec.ofNat 32 (strntol (text.drop 2) 16)
  | octal => BitVec.ofNat 32 (strntol text 8)
  | decimal => BitVec.ofNat 32 (strntol text 10)
  | charHex => BitVec.ofNat 32 (strntol (text.drop 3) 16)
  | charOctal => BitVec.ofNat 32 (strntol (text.drop 2) 8)
  | charEscape => (cCharEscape (text.getD 2 0)).setWidth 32
  | char => (text.getD 1 0).setWidth 32

/-- The number of a `TOK_NUMBER` with this text. -/
def numberOf (text : List Byte) : Word :=
  ((numberActs.find? fun a => a.1 text).map fun a => a.2.lnum text).getD 0

/-- The operators that are in expressions. -/
def opSyms : List (List Char × Sym) :=
  [(['?'], .quest), (['('], .lparen), ([')'], .rparen), (['|', '|'], .binop .oror),
    (['&', '&'], .binop .andand), (['~'], .compl), (['|'], .binop .or), (['^'], .binop .xor),
    (['&'], .binop .and), (['=', '='], .binop .eq), (['!', '='], .binop .ne),
    (['<'], .binop .lt), (['>'], .binop .gt), (['<', '='], .binop .le), (['>', '='], .binop .ge),
    (['<', '<'], .binop .lsh), (['>', '>'], .binop .rsh), (['+'], .binop .plus),
    (['-'], .binop .minus), (['*'], .binop .mul), (['/'], .binop .div), (['%'], .binop .rem),
    ([':'], .colon)]

/-- A token as the parser gets it, whatever the mnemonics are; `names` is `table_lookup` in the
general names.  References to digital labels and `.` are in none of the expressions here. -/
def symOf (mnemonic : List Byte → Bool) (names : List Byte → NameId) : Tok × List Byte → Sym
  | (.number, text) => .operand (.const (numberOf text))
  | (.word, text) => if mnemonic text = true then .other else .operand (.name (names text))
  | (.op, text) => ((opSyms.find? fun o => o.1.map chr == text).map (·.2)).getD .other
  | (.diglab, _) => .diglab
  | _ => .other

/-! ### The text of an expression of C -/

/-- An integer constant without its suffix: the digits after the first 0 or `0x`. -/
inductive IntConst where
  | decimal (ds : List Byte)
  | octal (os : List Byte)
  | hex (x : Byte) (hs : List Byte)
  deriving DecidableEq, Repr

namespace IntConst

/-- How it is written. -/
def text : IntConst → List Byte
  | decimal ds => ds
  | octal os => chr '0' :: os
  | hex x hs => chr '0' :: x :: hs

/-- The number. -/
def value : IntConst → ℕ
  | decimal ds => number 10 ds
  | octal os => number 8 os
  | hex _ hs => number 16 hs

/-- The digits, and the number is one of an `unsigned long`. -/
def WF (k : IntConst) : Prop :=
  k.value < 2 ^ 32 ∧ match k with
    | decimal ds => ds ≠ [] ∧ ds.head? ≠ some (chr '0') ∧ ∀ d ∈ ds, digit d = true
    | octal os => ∀ o ∈ os, Ast.octal o = true
    | hex x hs => isX x = true ∧ hs ≠ [] ∧ ∀ h ∈ hs, Ast.hex h = true

end IntConst

/-- The suffixes of integer constants. -/
def suffixes : List (List Byte) :=
  [[], ['u'], ['U'], ['l'], ['L'], ['u', 'l'], ['u', 'L'], ['U', 'l'], ['U', 'L'], ['l', 'u'],
    ['l', 'U'], ['L', 'u'], ['L', 'U']].map (·.map chr)

/-- What is between the quotes of a character constant; an escape is as in a string. -/
inductive CharConst where
  | plain (c : Byte)
  | escape (p : Piece)
  deriving DecidableEq, Repr

namespace CharConst

/-- How it is written. -/
def text : CharConst → List Byte
  | plain c => [apostrophe, c, apostrophe]
  | escape p => apostrophe :: (p.text ++ [apostrophe])

/-- The character. -/
def value : CharConst → Byte
  | plain c => c
  | escape p => p.value.headD 0

/-- Any character but the quote, the backslash and the newline, or an escape. -/
def WF : CharConst → Prop
  | plain c => c ≠ apostrophe ∧ c ≠ backslash ∧ dot c = true
  | escape p => p.WF ∧ ∀ cs, p ≠ .chunk cs

/-- The character, with `\a` as `a`. -/
def bare : CharConst → Byte
  | escape (.simple c v) => if c = chr 'a' then c else v
  | c => c.value

end CharConst

/-- An operand. -/
inductive Operand where
  | int (k : IntConst) (suffix : List Byte)
  | char (c : CharConst)
  | name (text : List Byte)
  deriving DecidableEq, Repr

namespace Operand

/-- How it is written. -/
def text : Operand → List Byte
  | int k suffix => k.text ++ suffix
  | char c => c.text
  | name text => text

/-- Constants of C, and names of the assembler that are no mnemonics. -/
def WF (mnemonic : List Byte → Bool) : Operand → Prop
  | int k suffix => k.WF ∧ suffix ∈ suffixes
  | char c => c.WF
  | name text => wordRule.pattern text = true ∧ mnemonic text = false

/-- It is an `unsigned long` in C: it is too big for a `long`, or has the suffix for it. -/
def unsigned : Operand → Bool
  | int k suffix =>
      decide (2 ^ 31 ≤ k.value) || suffix.contains (chr 'u') || suffix.contains (chr 'U')
  | _ => false

/-- What it is in C; a name is a `long`. -/
def value (names : List Byte → NameId) (ρ : Valuation) : Operand → CValue
  | int k suffix => ⟨(int k suffix).unsigned, BitVec.ofNat 32 k.value⟩
  | char c => ⟨false, c.value.setWidth 32⟩
  | name text => ⟨false, ρ.name (names text)⟩

/-- What it is as a `long`, with `\a` as `a`. -/
def read (names : List Byte → NameId) : Operand → Expr
  | int k _ => .const (BitVec.ofNat 32 k.value)
  | char c => .const (c.bare.setWidth 32)
  | name text => .name (names text)

/-- It is not `\a`. -/
def NoBell : Operand → Prop
  | char c => c.bare = c.value
  | _ => True

end Operand

/-- A token of an expression. -/
inductive CTok where
  | operand (o : Operand)
  | binop (t : BinTag)
  | not
  | compl
  | lparen
  | rparen
  | quest
  | colon
  deriving DecidableEq, Repr

namespace CTok

/-- How a binary operator is written. -/
def binopText : BinTag → List Char
  | .oror => ['|', '|']
  | .andand => ['&', '&']
  | .or => ['|']
  | .xor => ['^']
  | .and => ['&']
  | .eq => ['=', '=']
  | .ne => ['!', '=']
  | .lt => ['<']
  | .gt => ['>']
  | .le => ['<', '=']
  | .ge => ['>', '=']
  | .lsh => ['<', '<']
  | .rsh => ['>', '>']
  | .plus => ['+']
  | .minus => ['-']
  | .mul => ['*']
  | .div => ['/']
  | .rem => ['%']
  | .quest => ['?']
  | .colon => [':']

/-- How an operator is written. -/
def op : CTok → List Char
  | operand _ => []
  | binop t => binopText t
  | not => ['!']
  | compl => ['~']
  | lparen => ['(']
  | rparen => [')']
  | quest => ['?']
  | colon => [':']

/-- How it is written. -/
def text : CTok → List Byte
  | operand o => o.text
  | t => t.op.map chr

/-- What the parser should get. -/
def sym (read : Operand → Expr) : CTok → Sym
  | operand o => .operand (read o)
  | binop t => .binop t
  | not => .not
  | compl => .compl
  | lparen => .lparen
  | rparen => .rparen
  | quest => .quest
  | colon => .colon

/-- An operand is expected after it. -/
def opens : CTok → Bool
  | operand _ => false
  | rparen => false
  | _ => true

/-- An operand begins with it. -/
def starts : CTok → Bool
  | operand _ => true
  | lparen => true
  | not => true
  | compl => true
  | binop t => t == .plus || t == .minus
  | _ => false

/-- It goes on after an operand. -/
def continues : CTok → Bool
  | binop _ => true
  | rparen => true
  | quest => true
  | colon => true
  | _ => false

end CTok

namespace CTok

/-- It can be in an expression of C. -/
def WF (mnemonic : List Byte → Bool) : CTok → Prop
  | operand o => o.WF mnemonic
  | binop t => 1 ≤ cLevel t
  | _ => True

/-- There is a rule for it. -/
def HasRule : CTok → Prop
  | not => False
  | operand (.char (.escape (.octal ds))) => ds.length = 1
  | operand (.char (.escape (.hex _))) => False
  | _ => True

/-- It does not go on with the text. -/
def EndsAt (s : List Byte) (t : CTok) : Prop :=
  if t.opens = true then ∀ d ∈ s.head?, d ∉ follow
  else ∀ d ∈ s.head?, nameChar d = false ∧ d ≠ backslash

/-- What is returned for it before the text. -/
def scanned (s : List Byte) : CTok → List (Tok × List Byte)
  | operand (.int k suffix) =>
      (if labels k.text (suffix ++ s) = true then .diglab else .number, k.text) ::
        if suffix = [] then [] else [(.word, suffix)]
  | operand (.char c) => [(.number, c.text)]
  | operand (.name text) => [(.word, text)]
  | t => [(.op, t.text)]

/-- It has no suffix, and is no label before the text. -/
def Read (s : List Byte) : CTok → Prop
  | operand (.int k suffix) => suffix = [] ∧ labels k.text s = false
  | _ => True

end CTok

/-- The tokens of an expression. -/
def CExpr.toks : CExpr Operand → List CTok
  | .operand o => [.operand o]
  | .paren e => .lparen :: (e.toks ++ [.rparen])
  | .un none e => .binop .plus :: e.toks
  | .un (some .neg) e => .binop .minus :: e.toks
  | .un (some .not) e => .not :: e.toks
  | .un (some .compl) e => .compl :: e.toks
  | .bin t l r => l.toks ++ .binop t :: r.toks
  | .cond c a b => c.toks ++ .quest :: (a.toks ++ .colon :: b.toks)

/-- The tokens with the white space before each. -/
def spaced (l : List (List Byte × CTok)) : List Byte := l.flatMap fun p => p.1 ++ p.2.text

/-- What is returned for the tokens before another text. -/
def scannedAll (post : List Byte) : List (List Byte × CTok) → List (Tok × List Byte)
  | [] => []
  | p :: l => p.2.scanned (spaced l ++ post) ++ scannedAll post l

/-- The tokens have no suffix and are no labels. -/
def ReadAll (post : List Byte) : List (List Byte × CTok) → Prop
  | [] => True
  | p :: l => p.2.Read (spaced l ++ post) ∧ ReadAll post l

/-! ### Tokens one after the other -/

/-- Which token can be next. -/
def Adjacent (a b : CTok) : Prop := if a.opens = true then b.starts = true else b.continues = true

section

variable {e : CExpr Operand} {read : Operand → Expr}

theorem toks_sym : e.toks.map (CTok.sym read) = e.syms read := by
  induction e with
  | operand o => rfl
  | paren e ih => simp [CExpr.toks, CExpr.syms, CTok.sym, ih]
  | un op e ih => rcases op with _ | (_ | _ | _) <;> simp [CExpr.toks, CExpr.syms, CTok.sym,
      CExpr.unarySym, ih]
  | bin t l r ihl ihr => simp [CExpr.toks, CExpr.syms, CTok.sym, ihl, ihr]
  | cond c a b ihc iha ihb => simp [CExpr.toks, CExpr.syms, CTok.sym, ihc, iha, ihb]

/-- Tokens that begin and end an operand, and go one after the other. -/
structure Alternates (ts : List CTok) : Prop where
  nonempty : ts ≠ []
  first : ∀ t ∈ ts.head?, t.starts = true
  last : ∀ t ∈ ts.getLast?, t.opens = false
  chain : ts.IsChain Adjacent

theorem Alternates.cons {t : CTok} {ts : List CTok} (h : Alternates ts) (hs : t.starts = true)
    (ho : t.opens = true) : Alternates (t :: ts) := by
  obtain ⟨u, us, rfl⟩ := List.exists_cons_of_ne_nil h.nonempty
  refine ⟨List.cons_ne_nil t _, ?_, h.last, List.isChain_cons_cons.mpr ⟨?_, h.chain⟩⟩
  · rintro u ⟨⟩
    exact hs
  · rw [Adjacent, if_pos ho]
    exact h.first u rfl

theorem Alternates.append {t : CTok} {ts us : List CTok} (h : Alternates ts) (h' : Alternates us)
    (hc : t.continues = true) (ho : t.opens = true) : Alternates (ts ++ t :: us) := by
  obtain ⟨v, vs, rfl⟩ := List.exists_cons_of_ne_nil h.nonempty
  obtain ⟨u, us, rfl⟩ := List.exists_cons_of_ne_nil h'.nonempty
  have hopens : Adjacent t u := by
    rw [Adjacent, if_pos ho]
    exact h'.first u rfl
  refine ⟨List.cons_ne_nil v _, h.first, ?_, ?_⟩
  · rw [List.getLast?_append, List.getLast?_cons_cons]
    intro w hw
    refine h'.last w ?_
    rwa [List.getLast?_eq_some_getLast (List.cons_ne_nil u us)] at hw ⊢
  · refine h.chain.append (List.isChain_cons_cons.mpr ⟨hopens, h'.chain⟩) ?_
    rintro w hw x ⟨⟩
    rw [Adjacent, h.last w hw]
    exact hc

theorem alternates_toks (e : CExpr Operand) : Alternates e.toks := by
  induction e with
  | operand o =>
      have hone : ∀ t ∈ some (CTok.operand o), t.starts = true ∧ t.opens = false := by
        rintro t ⟨⟩
        exact ⟨rfl, rfl⟩
      exact ⟨List.cons_ne_nil _ _, fun t ht => (hone t ht).1, fun t ht => (hone t ht).2,
        .singleton _⟩
  | paren e ih =>
      have hright : Alternates (.lparen :: e.toks) := ih.cons rfl rfl
      have htoks : (CExpr.paren e).toks = (.lparen :: e.toks) ++ [.rparen] := rfl
      refine ⟨List.cons_ne_nil _ _, by rintro t ⟨⟩; rfl, ?_, ?_⟩
      · rw [htoks, List.getLast?_concat]
        rintro t ⟨⟩
        rfl
      · refine hright.chain.append (.singleton _) ?_
        rintro t ht u ⟨⟩
        rw [Adjacent, hright.last t ht]
        rfl
  | un op e ih => rcases op with _ | (_ | _ | _) <;> exact ih.cons rfl rfl
  | bin t l r ihl ihr => exact ihl.append ihr rfl rfl
  | cond c a b ihc iha ihb => exact ihc.append (iha.append ihb rfl rfl) rfl rfl

end

/-! ### Scanning -/

/-- The scanner comes to where only `post` is left, without an unexpected character. -/
inductive ScansTo (post : List Byte) : Scanner → List (Tok × List Byte) → Prop
  | here {x : Scanner} (hmode : x.mode = .scan .initial) (h : x.rest = post) :
      ScansTo post x x.tokens
  | next {x y : Scanner} {toks : List (Tok × List Byte)} (hne : x.rest ≠ post)
      (hok : ¬Unexpected x) (hstep : scanStep x = .inl y) (h : ScansTo post y toks) :
      ScansTo post x toks

/-- What is returned for a text before another one, whatever is returned for that. -/
def Scans (post u s : List Byte) (made : List (Tok × List Byte)) : Prop :=
  ∀ bol acc toks, ∃ b, ScansTo post ⟨.scan .initial, bol, u ++ s, acc⟩ toks ↔
    ScansTo post ⟨.scan .initial, b, s, acc ++ made⟩ toks

section

variable {post u v w s t : List Byte} {x y : Scanner} {k : Tok} {bol : Bool}
  {toks made made' acc : List (Tok × List Byte)}

theorem scansTo_here_iff : ScansTo post ⟨.scan .initial, bol, post, acc⟩ toks ↔ toks = acc := by
  constructor
  · intro hto
    cases hto with
    | here => rfl
    | next hne => exact absurd rfl hne
  · rintro rfl
    exact .here rfl rfl

theorem scansTo_next_iff (hne : x.rest ≠ post) (hok : ¬Unexpected x) (hstep : scanStep x = .inl y) :
    ScansTo post x toks ↔ ScansTo post y toks := by
  constructor
  · intro hto
    cases hto with
    | here _ h => exact absurd h hne
    | next _ _ hstep' h =>
        obtain rfl := Sum.inl.inj (hstep.symm.trans hstep')
        exact h
  · exact .next hne hok hstep

theorem not_scansTo (hne : x.rest ≠ post) (hbad : Unexpected x) : ¬ScansTo post x toks := by
  intro hto
  cases hto with
  | here _ h => exact hne h
  | next _ hok => exact hok hbad

theorem append_ne (hu : u ≠ []) (hs : post <:+ s) : u ++ s ≠ post := by
  intro heq
  have hlen := congrArg List.length heq
  have hpos := List.length_pos_iff.mpr hu
  have hle := hs.length_le
  rw [List.length_append] at hlen
  omega

theorem Scans.append (h : Scans post u (v ++ s) made) (h' : Scans post v s made') :
    Scans post (u ++ v) s (made ++ made') := by
  intro bol acc toks
  obtain ⟨b, hb⟩ := h bol acc toks
  obtain ⟨b', hb'⟩ := h' b (acc ++ made) toks
  refine ⟨b', ?_⟩
  rw [List.append_assoc, hb, hb', List.append_assoc]

theorem Returns.scans (h : Returns k u s) (hu : u ≠ []) (hs : post <:+ s) :
    Scans post u s [(k, u)] := by
  intro bol acc toks
  obtain ⟨⟨b, hstep⟩, hok⟩ := h bol acc
  exact ⟨b, scansTo_next_iff (append_ne hu hs) hok hstep⟩

/-- All of the white space is eaten. -/
theorem scans_space (hw : ∀ c ∈ w, (space c || c == newline) = true)
    (hs : ∀ c ∈ s.head?, (space c || c == newline) = false) (hpost : post <:+ s) :
    Scans post w s [] := by
  intro bol acc toks
  rw [List.append_nil]
  induction hn : w.length using Nat.strong_induction_on generalizing w bol with
  | _ n ih =>
      subst hn
      by_cases hne : w = []
      · subst hne
        exact ⟨bol, Iff.rfl⟩
      · obtain ⟨⟨b, w', hlt, hw', hstep⟩, hok⟩ := scanStep_space bol acc hne hw hs
        obtain ⟨b', hb'⟩ := ih w'.length hlt hw' b rfl
        exact ⟨b', (scansTo_next_iff (append_ne hne hpost) hok hstep).trans hb'⟩

end

/-! ### The tokens of an expression -/

section

variable {mnemonic : List Byte → Bool} {c d : Byte} {post s w : List Byte} {k : IntConst}
  {suffix : List Byte} {o : Operand} {t t' : CTok}

/-- `[ \t\f\r\n]`, which is no part of a token. -/
theorem of_white (h : (space c || c == newline) = true) :
    (nameChar c = false ∧ c ≠ backslash) ∧ c ∉ follow := by
  revert c
  decide +kernel

theorem of_start (h : digit c = true ∨ letter c = true ∨ c = apostrophe) :
    (space c || c == newline) = false ∧ c ∉ follow := by
  revert c
  decide +kernel

theorem of_nameChar (h : nameChar c = false) : hex c = false ∧ isX c = false := by
  revert c
  decide +kernel

theorem of_suffixes : ∀ x ∈ suffixes, x ≠ [] → (∀ c ∈ x.head?, letter c = true ∧
    (hex c = false ∧ isX c = false) ∧ blank c = false ∧ c ≠ chr ':') ∧
      ∀ d ∈ x, nameChar d = true := by
  decide +kernel

theorem int_head (hk : k.WF) : ∃ c w, k.text = c :: w ∧ digit c = true := by
  obtain ⟨-, hk⟩ := hk
  match k, hk with
  | .decimal ds, ⟨hne, _, hds⟩ =>
      obtain ⟨c, w, rfl⟩ := List.exists_cons_of_ne_nil hne
      exact ⟨c, w, rfl, hds c List.mem_cons_self⟩
  | .octal os, _ => exact ⟨chr '0', os, rfl, by decide⟩
  | .hex x hs, _ => exact ⟨chr '0', x :: hs, rfl, by decide⟩

theorem name_head (h : wordRule.pattern w = true) :
    ∃ c v, w = c :: v ∧ letter c = true ∧ ∀ d ∈ v, nameChar d = true := by
  obtain ⟨a, v, rfl, ha, hv⟩ := seq_iff.mp h
  obtain ⟨c, rfl, hc⟩ := one_iff.mp ha
  exact ⟨c, v, rfl, hc, many_iff.mp hv⟩

theorem operand_head (ho : o.WF mnemonic) :
    ∃ c w, o.text = c :: w ∧ (digit c = true ∨ letter c = true ∨ c = apostrophe) := by
  match o, ho with
  | .int k suffix, ⟨hk, _⟩ =>
      obtain ⟨c, w, hc, hdigit⟩ := int_head hk
      exact ⟨c, w ++ suffix, congrArg (· ++ suffix) hc, .inl hdigit⟩
  | .char (.plain c), _ => exact ⟨apostrophe, _, rfl, .inr (.inr rfl)⟩
  | .char (.escape p), _ => exact ⟨apostrophe, _, rfl, .inr (.inr rfl)⟩
  | .name text, ⟨hname, _⟩ =>
      obtain ⟨c, v, hc, hletter, -⟩ := name_head hname
      exact ⟨c, v, hc, .inr (.inl hletter)⟩

/-- What a token begins with is no part of the one before. -/
theorem tok_head (ht : t.WF mnemonic) :
    ∃ c w, t.text = c :: w ∧ (space c || c == newline) = false ∧
      (t.starts = true → c ∉ follow) ∧
        (t.continues = true → nameChar c = false ∧ c ≠ backslash) := by
  match t, ht with
  | .operand o, ho =>
      obtain ⟨c, w, hc, hstart⟩ := operand_head ho
      obtain ⟨hwhite, hfollow⟩ := of_start hstart
      exact ⟨c, w, hc, hwhite, fun _ => hfollow, nofun⟩
  | .binop t, _ => cases t <;> exact ⟨_, _, rfl, by decide, by decide, by decide⟩
  | .not, _ => exact ⟨_, _, rfl, by decide, by decide, by decide⟩
  | .compl, _ => exact ⟨_, _, rfl, by decide, by decide, by decide⟩
  | .lparen, _ => exact ⟨_, _, rfl, by decide, by decide, by decide⟩
  | .rparen, _ => exact ⟨_, _, rfl, by decide, by decide, by decide⟩
  | .quest, _ => exact ⟨_, _, rfl, by decide, by decide, by decide⟩
  | .colon, _ => exact ⟨_, _, rfl, by decide, by decide, by decide⟩

theorem endsAt_of_adjacent (h : Adjacent t t') (ht' : t'.WF mnemonic)
    (hw : ∀ c ∈ w, (space c || c == newline) = true) : t.EndsAt (w ++ (t'.text ++ s)) := by
  obtain ⟨c, u, hc, -, hstarts, hcontinues⟩ := tok_head ht'
  rw [Adjacent] at h
  rw [CTok.EndsAt]
  cases w with
  | nil =>
      rw [hc, List.nil_append]
      split at h
      · next hopens =>
          rw [if_pos hopens]
          rintro d ⟨⟩
          exact hstarts h
      · next hopens =>
          rw [if_neg hopens]
          rintro d ⟨⟩
          exact hcontinues h
  | cons e w =>
      obtain ⟨hname, hfollow⟩ := of_white (hw e List.mem_cons_self)
      split
      · rintro d ⟨⟩
        exact hfollow
      · rintro d ⟨⟩
        exact hname

/-- The digits of a number are a number, or a label. -/
theorem returns_int (hk : k.WF) (hs : ∀ d ∈ s.head?, hex d = false ∧ isX d = false) :
    Returns (if labels k.text s = true then .diglab else .number) k.text s := by
  split
  · next hl =>
      obtain ⟨c, w, hc, hdigit⟩ := int_head hk
      have hw : w = [] := by
        simp only [labels, hc, Bool.and_eq_true, beq_iff_eq, List.length_cons] at hl
        exact List.length_eq_zero_iff.mp (Nat.succ.inj hl.1)
      rw [hc, hw] at hl ⊢
      exact returns_label hdigit hl
  · next hl =>
      have hl : labels k.text s = false := Bool.eq_false_iff.mpr hl
      cases k with
      | decimal ds =>
          obtain ⟨hne, -, hds⟩ := hk.2
          obtain ⟨c, w, rfl⟩ := List.exists_cons_of_ne_nil hne
          obtain ⟨hc, hw⟩ := List.forall_mem_cons.mp hds
          exact returns_digits hc hw hs hl
      | octal os =>
          have hos : ∀ o ∈ os, octal o = true := hk.2
          exact returns_digits (by decide) (fun d hd => digit_of_octal (hos d hd)) hs hl
      | hex x hs' =>
          obtain ⟨hx, hne, hall⟩ := hk.2
          exact returns_hex hx hne hall fun d hd => (hs d hd).1

/-- There is no rule for a suffix: it is a word. -/
theorem scans_suffix (hk : k.WF) (hsuffix : suffix ∈ suffixes)
    (hs : ∀ d ∈ s.head?, nameChar d = false) (hpost : post <:+ s) :
    Scans post (k.text ++ suffix) s (CTok.scanned s (.operand (.int k suffix))) := by
  obtain ⟨c, w, hc, -⟩ := int_head hk
  have hne : k.text ≠ [] := hc ▸ List.cons_ne_nil c w
  by_cases hnil : suffix = []
  · subst hnil
    rw [List.append_nil]
    exact (returns_int hk fun d hd => of_nameChar (hs d hd)).scans hne hpost
  · obtain ⟨hhead, hname⟩ := of_suffixes suffix hsuffix hnil
    rw [CTok.scanned, if_neg hnil]
    obtain ⟨e, v, rfl⟩ := List.exists_cons_of_ne_nil hnil
    obtain ⟨hletter, hdigits, -⟩ := hhead e rfl
    have hint := returns_int (s := e :: v ++ s) hk (by
      rintro d ⟨⟩
      exact hdigits)
    have hword := returns_word hletter (fun d hd => hname d (List.mem_cons_of_mem _ hd)) hs
    exact (hint.scans hne (hpost.trans (List.suffix_append _ s))).append
      (hword.scans (List.cons_ne_nil e v) hpost)

theorem returns_charConst {x : CharConst} (hx : x.WF)
    (hrule : (CTok.operand (.char x)).HasRule) (hs : s.head? ≠ some backslash) :
    Returns .number x.text s := by
  match x, hx, hrule with
  | .plain c, ⟨_, hback, hdot⟩, _ => exact returns_plain hback hdot
  | .escape (.simple c v), ⟨hwf, _⟩, _ =>
      obtain ⟨hoctal, hx, hdot, -⟩ := of_simpleEscapes _ hwf
      exact returns_simple hoctal hx hdot
  | .escape (.octal ds), ⟨⟨_, hds, _⟩, _⟩, hlen =>
      obtain ⟨d, rfl⟩ := List.length_eq_one_iff.mp hlen
      exact returns_octal (hds d List.mem_cons_self) hs
  | .escape (.hex ds), _, hfalse => exact hfalse.elim
  | .escape (.chunk cs), ⟨_, hchunk⟩, _ => exact absurd rfl (hchunk cs)

/-- The operators of C are those of the rules, but for `!`. -/
theorem operator_of_tok (ht : t.WF mnemonic) (hrule : t.HasRule) (ho : ∀ o, t ≠ .operand o) :
    t.text = t.op.map chr ∧ t.op ∈ operators ∧ t.op ≠ ['.'] ∧
      (t.opens = false → t.op = [')']) ∧ ∀ s, t.scanned s = [(.op, t.text)] := by
  match t, ht, hrule with
  | .operand o, _, _ => exact absurd rfl (ho o)
  | .binop t, _, _ => cases t <;> exact ⟨rfl, by decide, by decide, nofun, fun s => rfl⟩
  | .not, _, hfalse => exact hfalse.elim
  | .compl, _, _ => exact ⟨rfl, by decide, by decide, nofun, fun s => rfl⟩
  | .lparen, _, _ => exact ⟨rfl, by decide, by decide, nofun, fun s => rfl⟩
  | .rparen, _, _ => exact ⟨rfl, by decide, by decide, fun _ => rfl, fun s => rfl⟩
  | .quest, _, _ => exact ⟨rfl, by decide, by decide, nofun, fun s => rfl⟩
  | .colon, _, _ => exact ⟨rfl, by decide, by decide, nofun, fun s => rfl⟩

theorem scans_tok (ht : t.WF mnemonic) (hrule : t.HasRule) (hends : t.EndsAt s)
    (hpost : post <:+ s) : Scans post t.text s (t.scanned s) := by
  obtain ⟨c, w, hc, -⟩ := tok_head ht
  have hne : t.text ≠ [] := hc ▸ List.cons_ne_nil c w
  by_cases ho : ∃ o, t = .operand o
  · obtain ⟨o, rfl⟩ := ho
    match o, ht with
    | .int k suffix, ⟨hk, hsuffix⟩ =>
        exact scans_suffix hk hsuffix (fun d hd => (hends d hd).1) hpost
    | .char x, hx =>
        have hs : s.head? ≠ some backslash := fun hback => (hends backslash hback).2 rfl
        exact (returns_charConst hx hrule hs).scans hne hpost
    | .name text, ⟨hname, _⟩ =>
        obtain ⟨c, v, rfl, hletter, hv⟩ := name_head hname
        exact (returns_word hletter hv fun d hd => (hends d hd).1).scans hne hpost
  · obtain ⟨htext, hop, hdot, hparen, hscanned⟩ :=
      operator_of_tok ht hrule fun o h => ho ⟨o, h⟩
    rw [hscanned]
    refine Returns.scans ?_ hne hpost
    rw [htext]
    refine returns_op hop hdot ?_
    cases hopens : t.opens with
    | false => exact .inl (hparen hopens)
    | true =>
        rw [CTok.EndsAt, if_pos hopens] at hends
        exact .inr hends

theorem unexpected_tok {bol : Bool} {acc : List (Tok × List Byte)} (ht : t.WF mnemonic)
    (hrule : ¬t.HasRule) (hends : t.EndsAt s) :
    Unexpected ⟨.scan .initial, bol, t.text ++ s, acc⟩ := by
  cases t with
  | not =>
      refine unexpected_bang fun d hd => ?_
      rintro rfl
      exact hends _ hd (by decide)
  | operand o =>
      cases o with
      | char x =>
          cases x with
          | plain c => exact absurd trivial hrule
          | escape p =>
              cases p with
              | octal ds =>
                  obtain ⟨⟨⟨hlen, -⟩, hds, -⟩, -⟩ := ht
                  match ds, hlen, hrule, hds with
                  | [_], _, hrule, _ => exact absurd rfl hrule
                  | d :: e :: ds, _, _, hds =>
                      obtain ⟨hd, hes⟩ := List.forall_mem_cons.mp hds
                      exact unexpected_escape (w := ds ++ [apostrophe])
                        (hex_of_octal (hes e List.mem_cons_self)) (.inr hd)
              | hex ds =>
                  obtain ⟨⟨hne, hds, -⟩, -⟩ := ht
                  obtain ⟨d, ds, rfl⟩ := List.exists_cons_of_ne_nil hne
                  obtain ⟨hd, hds⟩ := List.forall_mem_cons.mp hds
                  have hs : s.head? ≠ some backslash := fun hback => (hends backslash hback).2 rfl
                  refine unexpected_escape (x := chr 'x') (w := ds ++ [apostrophe]) hd
                    (.inl ⟨by decide, hs, ?_⟩)
                  cases ds with
                  | nil => exact .inl rfl
                  | cons e ds =>
                      exact .inr ⟨e, ds ++ [apostrophe], rfl, hds e List.mem_cons_self⟩
              | _ => exact absurd trivial hrule
      | _ => exact absurd trivial hrule
  | _ => exact absurd trivial hrule

end

/-! ### The text of an expression -/

/-- Tokens of C with white space before each, before another text. -/
structure Source (mnemonic : List Byte → Bool) (post : List Byte)
    (l : List (List Byte × CTok)) : Prop where
  white : ∀ p ∈ l, ∀ c ∈ p.1, (space c || c == newline) = true
  tok : ∀ p ∈ l, p.2.WF mnemonic
  chain : (l.map Prod.snd).IsChain Adjacent
  last : ∀ t ∈ (l.map Prod.snd).getLast?, t.opens = false
  ends : ∀ d ∈ post.head?, nameChar d = false ∧ d ≠ backslash

namespace Source

variable {mnemonic : List Byte → Bool} {post : List Byte} {p : List Byte × CTok}
  {l : List (List Byte × CTok)} {bol : Bool} {acc toks : List (Tok × List Byte)}

theorem tail (h : Source mnemonic post (p :: l)) : Source mnemonic post l := by
  refine ⟨fun q hq => h.white q (List.mem_cons_of_mem p hq),
    fun q hq => h.tok q (List.mem_cons_of_mem p hq), h.chain.tail, fun t ht => h.last t ?_, h.ends⟩
  cases l with
  | nil => cases ht
  | cons q l => rwa [List.map_cons, List.map_cons, List.getLast?_cons_cons]

theorem endsAt (h : Source mnemonic post (p :: l)) : p.2.EndsAt (spaced l ++ post) := by
  cases l with
  | nil =>
      rw [CTok.EndsAt, if_neg (Bool.eq_false_iff.mp (h.last p.2 rfl))]
      exact h.ends
  | cons q l =>
      have hmem : q ∈ p :: q :: l := List.mem_cons_of_mem p List.mem_cons_self
      rw [spaced, List.flatMap_cons, List.append_assoc, List.append_assoc]
      exact endsAt_of_adjacent (List.isChain_cons_cons.mp h.chain).1 (h.tok q hmem)
        (h.white q hmem)

theorem suffix_spaced : post <:+ spaced l ++ post := List.suffix_append _ _

theorem scans_white (h : Source mnemonic post (p :: l)) :
    Scans post p.1 (p.2.text ++ (spaced l ++ post)) [] := by
  obtain ⟨c, w, hc, hwhite, -⟩ := tok_head (h.tok p List.mem_cons_self)
  refine scans_space (h.white p List.mem_cons_self) ?_
    (suffix_spaced.trans (List.suffix_append _ _))
  rw [hc]
  rintro d ⟨⟩
  exact hwhite

theorem spaced_cons : spaced (p :: l) ++ post = p.1 ++ (p.2.text ++ (spaced l ++ post)) := by
  rw [spaced, List.flatMap_cons, List.append_assoc, List.append_assoc]
  rfl

/-- If there is a rule for each token, they are returned. -/
theorem scansTo_iff (h : Source mnemonic post l) (hrule : ∀ p ∈ l, p.2.HasRule) :
    ScansTo post ⟨.scan .initial, bol, spaced l ++ post, acc⟩ toks ↔
      toks = acc ++ scannedAll post l := by
  induction l generalizing bol acc with
  | nil =>
      rw [scannedAll, List.append_nil]
      exact scansTo_here_iff
  | cons p l ih =>
      obtain ⟨b, hb⟩ := h.scans_white bol acc toks
      obtain ⟨b', hb'⟩ := scans_tok (h.tok p List.mem_cons_self) (hrule p List.mem_cons_self)
        h.endsAt suffix_spaced b (acc ++ []) toks
      rw [spaced_cons, hb, hb', ih h.tail fun q hq => hrule q (List.mem_cons_of_mem p hq),
        scannedAll, List.append_nil, List.append_assoc]

/-- If there is none for one of them, an unexpected character is reported. -/
theorem not_scansTo (h : Source mnemonic post l) (hrule : ¬∀ p ∈ l, p.2.HasRule) :
    ¬ScansTo post ⟨.scan .initial, bol, spaced l ++ post, acc⟩ toks := by
  induction l generalizing bol acc with
  | nil => exact absurd (List.forall_mem_nil _) hrule
  | cons p l ih =>
      have hp := h.tok p List.mem_cons_self
      obtain ⟨b, hb⟩ := h.scans_white bol acc toks
      rw [spaced_cons, hb]
      by_cases hhead : p.2.HasRule
      · obtain ⟨b', hb'⟩ := scans_tok hp hhead h.endsAt suffix_spaced b (acc ++ []) toks
        rw [hb']
        exact ih h.tail fun hall => hrule (List.forall_mem_cons.mpr ⟨hhead, hall⟩)
      · obtain ⟨c, w, hc, -⟩ := tok_head hp
        exact Ast.not_scansTo (append_ne (hc ▸ List.cons_ne_nil c w) suffix_spaced)
          (unexpected_tok hp hhead h.endsAt)

end Source

/-! ### The values of the tokens -/

section

variable {mnemonic : List Byte → Bool} {names : List Byte → NameId} {c : Byte}
  {s text w : List Byte} {k : IntConst} {x : CharConst} {t : CTok}

/-- The action of the first rule that matches. -/
theorem numberOf_of {n : Nat} {a : Pattern Byte × NumberAct} (ha : numberActs[n]? = some a)
    (hbefore : ∀ b ∈ numberActs.take n, b.1 text = false) (htext : a.1 text = true) :
    numberOf text = a.2.lnum text := by
  have hsplit : numberActs = numberActs.take n ++ a :: numberActs.drop (n + 1) := by
    obtain ⟨hn, rfl⟩ := List.getElem?_eq_some_iff.mp ha
    rw [← List.drop_eq_getElem_cons hn, List.take_append_drop]
  have hfind : numberActs.find? (fun b => b.1 text) = some a := by
    have hnone : (numberActs.take n).find? (fun b => b.1 text) = none :=
      List.find?_eq_none.mpr fun b hb => Bool.eq_false_iff.mp (hbefore b hb)
    rw [hsplit, List.find?_append, hnone, Option.none_or, List.find?_cons, htext]
  rw [numberOf, hfind]
  rfl

theorem seq_zero_ne {Q : Pattern Byte} (h : text.head? ≠ some (chr '0')) :
    seq (lit [chr '0']) Q text = false := by
  refine Bool.eq_false_iff.mpr fun hseq => ?_
  obtain ⟨a, b, rfl, ha, -⟩ := seq_iff.mp hseq
  obtain rfl := lit_iff.mp ha
  exact h rfl

theorem strntol_zero (ds : List Byte) {base : Nat} (hbase : 0 < base) :
    strntol (chr '0' :: ds) base = strntol ds base := by
  have hvalue : digitOf (chr '0') = 0 := by decide
  have hzero : digitIn base (chr '0') = true := by
    rw [digitIn, hvalue, decide_eq_true hbase]
    decide
  rw [strntol, List.takeWhile_cons_of_pos hzero, List.foldl_cons, hvalue, Nat.zero_mul]
  rfl

theorem digitIn_decimal (h : digit c = true) : digitIn 10 c = true := by
  revert c
  decide +kernel

theorem numberOf_int (hk : k.WF) : numberOf k.text = BitVec.ofNat 32 k.value := by
  match k, hk.2 with
  | .decimal ds, ⟨hne, hzero, hds⟩ =>
      refine (numberOf_of (n := 2) rfl (List.forall_mem_cons.mpr ⟨seq_zero_ne hzero,
        List.forall_mem_cons.mpr ⟨seq_zero_ne hzero, List.forall_mem_nil _⟩⟩)
        (many1_iff.mpr ⟨hne, hds⟩)).trans ?_
      exact congrArg (BitVec.ofNat 32) (strntol_eq fun d hd => digitIn_decimal (hds d hd))
  | .octal [], _ => decide
  | .octal (o :: os), hos =>
      have hx : seq (lit [chr '0']) (seq (one isX) (many1 hex)) (chr '0' :: o :: os) = false := by
        refine Bool.eq_false_iff.mpr fun h => ?_
        have hisX := (seq_one_head (seq_lit_head h).2).1
        rw [(of_octal (hos o List.mem_cons_self)).1] at hisX
        cases hisX
      refine (numberOf_of (n := 1) rfl (List.forall_mem_cons.mpr ⟨hx, List.forall_mem_nil _⟩)
        (seq_iff.mpr ⟨[chr '0'], o :: os, rfl, lit_iff.mpr rfl,
          many1_iff.mpr ⟨List.cons_ne_nil o os, hos⟩⟩)).trans ?_
      exact congrArg (BitVec.ofNat 32) ((strntol_zero (o :: os) (by decide)).trans
        (strntol_eq fun d hd => digitIn_octal (hos d hd)))
  | .hex y hs, ⟨hy, hne, hall⟩ =>
      refine (numberOf_of (n := 0) rfl (List.forall_mem_nil _)
        (seq_iff.mpr ⟨[chr '0'], y :: hs, rfl, lit_iff.mpr rfl,
          seq_iff.mpr ⟨[y], hs, rfl, one_iff.mpr ⟨y, rfl, hy⟩,
            many1_iff.mpr ⟨hne, hall⟩⟩⟩)).trans ?_
      exact congrArg (BitVec.ofNat 32) (strntol_eq fun d hd => digitIn_hex (hall d hd))

theorem seq_escape_ne {Q : Pattern Byte} (hc : c ≠ backslash) :
    seq (lit [apostrophe, backslash]) Q (apostrophe :: c :: w) = false := by
  refine Bool.eq_false_iff.mpr fun hseq => ?_
  obtain ⟨v, hv, -⟩ := seq_two_head hseq
  exact hc (List.cons.inj hv).1

/-- The first escape of those with their own quotes. -/
theorem times_escape {Q R : Pattern Byte} {lo hi : Nat} {v : List Byte}
    (h : seq (times (lo + 1) hi (seq (lit [apostrophe, backslash]) Q)) R (apostrophe :: v) = true) :
    ∃ z w, v = backslash :: (z ++ w) ∧ Q z = true := by
  obtain ⟨u, w, huw, hu, -⟩ := times_head_iff h
  obtain ⟨z, rfl, hz⟩ := escape_head u hu
  exact ⟨z, w, (List.cons.inj huw).2, hz⟩

theorem times_hex_ne {R : Pattern Byte} (hx : isX c = false) :
    seq (times 2 2 (seq (lit [apostrophe, backslash]) (seq (one isX) (one hex)))) R
      (apostrophe :: backslash :: c :: w) = false := by
  refine Bool.eq_false_iff.mpr fun h => ?_
  obtain ⟨z, v, heq, hz⟩ := times_escape h
  obtain ⟨y, e, rfl, hy, -⟩ := seq_iff.mp hz
  obtain ⟨d, rfl, hd⟩ := one_iff.mp hy
  rw [(List.cons.inj (List.cons.inj heq).2).1, hd] at hx
  cases hx

theorem times_octal_ne {R : Pattern Byte} (hc : octal c = false) :
    seq (times 1 3 (seq (lit [apostrophe, backslash]) (one octal))) R
      (apostrophe :: backslash :: c :: w) = false := by
  refine Bool.eq_false_iff.mpr fun h => ?_
  obtain ⟨z, v, heq, hz⟩ := times_escape h
  obtain ⟨d, rfl, hd⟩ := one_iff.mp hz
  rw [(List.cons.inj (List.cons.inj heq).2).1, hd] at hc
  cases hc

/-- No rule for a number matches a character constant. -/
theorem number_ne : ∀ b ∈ numberActs.take 3, b.1 (apostrophe :: w) = false := by
  have hzero (Q : Pattern Byte) : seq (lit [chr '0']) Q (apostrophe :: w) = false :=
    seq_zero_ne fun h => absurd (Option.some.inj h) (by decide)
  refine List.forall_mem_cons.mpr ⟨hzero _, List.forall_mem_cons.mpr ⟨hzero _,
    List.forall_mem_cons.mpr ⟨Bool.eq_false_iff.mpr fun h => ?_, List.forall_mem_nil _⟩⟩⟩
  have hall : many1 digit (apostrophe :: w) = true := h
  exact absurd ((many1_iff.mp hall).2 apostrophe List.mem_cons_self) (by decide)

theorem numberOf_quoted {n : Nat} {a : Pattern Byte × NumberAct}
    (ha : numberActs[3 + n]? = some a)
    (hbefore : ∀ b ∈ (numberActs.drop 3).take n, b.1 (apostrophe :: w) = false)
    (htext : a.1 (apostrophe :: w) = true) :
    numberOf (apostrophe :: w) = a.2.lnum (apostrophe :: w) := by
  refine numberOf_of ha ?_ htext
  rw [List.take_add]
  exact List.forall_mem_append.mpr ⟨number_ne, hbefore⟩

theorem setWidth_ofNat {n : Nat} (hn : n < 256) :
    BitVec.ofNat 32 n = (BitVec.ofNat 8 n).setWidth 32 := by
  refine BitVec.eq_of_toNat_eq ?_
  rw [BitVec.toNat_setWidth, BitVec.toNat_ofNat, BitVec.toNat_ofNat, Nat.mod_eq_of_lt hn]

/-- The character between the quotes, but for `\a`. -/
theorem numberOf_char (hx : x.WF) (hrule : (CTok.operand (.char x)).HasRule) :
    numberOf x.text = x.bare.setWidth 32 := by
  match x, hx, hrule with
  | .plain c, ⟨_, hback, hdot⟩, _ =>
      have htimes (lo hi : Nat) {Q R : Pattern Byte} :
          seq (times (lo + 1) hi (seq (lit [apostrophe, backslash]) Q)) R
            [apostrophe, c, apostrophe] = false := by
        refine Bool.eq_false_iff.mpr fun h => ?_
        obtain ⟨z, v, heq, -⟩ := times_escape h
        exact hback (List.cons.inj heq).1
      refine numberOf_quoted (n := 3) rfl (List.forall_mem_cons.mpr ⟨htimes 1 2,
        List.forall_mem_cons.mpr ⟨htimes 0 3,
          List.forall_mem_cons.mpr ⟨seq_escape_ne hback, List.forall_mem_nil _⟩⟩⟩) ?_
      exact seq_iff.mpr ⟨[apostrophe], [c, apostrophe], rfl, lit_iff.mpr rfl,
        seq_iff.mpr ⟨[c], [apostrophe], rfl, one_iff.mpr ⟨c, rfl, hdot⟩, lit_iff.mpr rfl⟩⟩
  | .escape (.simple c v), ⟨hwf, _⟩, _ =>
      obtain ⟨hoctal, hx, hdot, hvalue⟩ := of_simpleEscapes _ hwf
      refine (numberOf_quoted (n := 2) rfl
        (List.forall_mem_cons.mpr ⟨times_hex_ne hx,
          List.forall_mem_cons.mpr ⟨times_octal_ne hoctal, List.forall_mem_nil _⟩⟩)
        (seq_iff.mpr ⟨[apostrophe, backslash], [c, apostrophe], rfl, lit_iff.mpr rfl,
          seq_iff.mpr ⟨[c], [apostrophe], rfl, one_iff.mpr ⟨c, rfl, hdot⟩,
            lit_iff.mpr rfl⟩⟩)).trans ?_
      have hbare : cCharEscape c = if c = chr 'a' then c else v := by
        split
        · next ha =>
            subst ha
            decide
        · next ha => exact hvalue.mpr ha
      exact congrArg (BitVec.setWidth 32) hbare
  | .escape (.octal ds), ⟨⟨_, hds, hvalue⟩, _⟩, hlen =>
      obtain ⟨d, rfl⟩ := List.length_eq_one_iff.mp hlen
      have hd := hds d List.mem_cons_self
      have hone : times 1 3 (seq (lit [apostrophe, backslash]) (one octal))
          [apostrophe, backslash, d] = true :=
        times_iff.mpr ⟨[[apostrophe, backslash, d]], ⟨Nat.le_refl 1, Nat.le_add_left 1 2⟩,
          List.forall_mem_singleton.mpr (seq_iff.mpr ⟨[apostrophe, backslash], [d], rfl,
            lit_iff.mpr rfl, one_iff.mpr ⟨d, rfl, hd⟩⟩), rfl⟩
      refine (numberOf_quoted (n := 1) rfl
        (List.forall_mem_cons.mpr ⟨times_hex_ne (of_octal hd).1, List.forall_mem_nil _⟩)
        (seq_iff.mpr ⟨[apostrophe, backslash, d], [apostrophe], rfl, hone,
          lit_iff.mpr rfl⟩)).trans ?_
      have hdigit : strntol [d, apostrophe] 8 = number 8 [d] := by
        rw [number_one]
        exact strntol_one (digitIn_octal hd) (by rintro e ⟨⟩; decide)
      refine (congrArg (BitVec.ofNat 32) hdigit).trans ?_
      exact setWidth_ofNat hvalue
  | .escape (.hex ds), _, hfalse => exact hfalse.elim
  | .escape (.chunk cs), ⟨_, hchunk⟩, _ => exact absurd rfl (hchunk cs)

/-- A token that is read is what the parser should get. -/
theorem symOf_scanned (ht : t.WF mnemonic) (hrule : t.HasRule) (hread : t.Read s) :
    (t.scanned s).map (symOf mnemonic names) = [t.sym (Operand.read names)] := by
  match t, ht, hrule, hread with
  | .operand (.int k suffix), ⟨hk, _⟩, _, ⟨hnil, hl⟩ =>
      rw [CTok.scanned, if_pos hnil, hnil, List.nil_append, hl]
      exact congrArg (fun n => [Sym.operand (.const n)]) (numberOf_int hk)
  | .operand (.char x), hx, hrule, _ =>
      exact congrArg (fun n => [Sym.operand (.const n)]) (numberOf_char hx hrule)
  | .operand (.name text), ⟨_, hname⟩, _, _ =>
      rw [CTok.scanned, List.map_singleton, symOf, hname]
      rfl
  | .binop t, ht, _, _ =>
      cases t with
      | quest => cases ht
      | colon => cases ht
      | _ => rfl
  | .not, _, hfalse, _ => exact hfalse.elim
  | .compl, _, _, _ => rfl
  | .lparen, _, _, _ => rfl
  | .rparen, _, _, _ => rfl
  | .quest, _, _, _ => rfl
  | .colon, _, _, _ => rfl

end

/-! ### Parsing the text -/

section

variable {mnemonic : List Byte → Bool} {names : List Byte → NameId} {post : List Byte}
  {l : List (List Byte × CTok)}

theorem Source.symOf_scannedAll (h : Source mnemonic post l) (hrule : ∀ p ∈ l, p.2.HasRule)
    (hread : ReadAll post l) : (scannedAll post l).map (symOf mnemonic names) =
      (l.map Prod.snd).map (CTok.sym (Operand.read names)) := by
  induction l with
  | nil => rfl
  | cons p l ih =>
      rw [scannedAll, List.map_append, symOf_scanned (h.tok p List.mem_cons_self)
        (hrule p List.mem_cons_self) hread.1,
        ih h.tail (fun q hq => hrule q (List.mem_cons_of_mem p hq)) hread.2]
      rfl

theorem expects_concat (as : List Sym) (s : Sym) : expects (as ++ [s]) = s.opens := by
  rw [expects, List.getLast?_concat]
  rfl

/-- A token in the wrong place. -/
def Wrong (ss : List Sym) : Prop :=
  ∃ as s bs, ss = as ++ s :: bs ∧ (expects as = true ∧ s = .diglab ∨
    expects as = false ∧ (s = .other ∨ ∃ x, s = .operand x))

theorem wrong_int {as bs : List Sym} {k : IntConst} {suffix s : List Byte}
    (hexp : expects as = true) (hread : ¬(CTok.operand (.int k suffix)).Read s) :
    Wrong (as ++ ((CTok.operand (.int k suffix)).scanned s).map (symOf mnemonic names) ++ bs) := by
  rw [CTok.scanned, List.map_cons, List.append_assoc, List.cons_append]
  cases hl : labels k.text (suffix ++ s) with
  | true => exact ⟨as, _, _, rfl, .inl ⟨hexp, rfl⟩⟩
  | false =>
      have hne : suffix ≠ [] := by
        rintro rfl
        exact hread ⟨rfl, hl⟩
      have hword : symOf mnemonic names (.word, suffix) = .other ∨
          ∃ x, symOf mnemonic names (.word, suffix) = .operand x := by
        rw [symOf]
        split
        · exact .inl rfl
        · exact .inr ⟨_, rfl⟩
      rw [if_neg hne]
      refine ⟨as ++ [.operand (.const (numberOf k.text))], _, bs, ?_,
        .inr ⟨expects_concat as _, hword⟩⟩
      rw [List.append_assoc]
      rfl

theorem int_of_not_read {t : CTok} {s : List Byte} (h : ¬t.Read s) :
    ∃ k suffix, t = .operand (.int k suffix) := by
  cases t with
  | operand o =>
      cases o with
      | int k suffix => exact ⟨k, suffix, rfl⟩
      | _ => exact absurd trivial h
  | _ => exact absurd trivial h

/-- A label, or a suffix, is in the wrong place. -/
theorem Source.wrong (h : Source mnemonic post l) (hrule : ∀ p ∈ l, p.2.HasRule)
    (hread : ¬ReadAll post l) {as : List Sym}
    (hexp : ∀ o, (l.map Prod.snd).head? = some (.operand o) → expects as = true) (bs : List Sym) :
    Wrong (as ++ (scannedAll post l).map (symOf mnemonic names) ++ bs) := by
  induction l generalizing as with
  | nil => exact absurd trivial hread
  | cons p l ih =>
      rw [scannedAll, List.map_append, ← List.append_assoc]
      by_cases hp : p.2.Read (spaced l ++ post)
      · rw [symOf_scanned (h.tok p List.mem_cons_self) (hrule p List.mem_cons_self) hp]
        refine ih h.tail (fun q hq => hrule q (List.mem_cons_of_mem p hq))
          (fun hall => hread ⟨hp, hall⟩) fun o ho => ?_
        rw [expects_concat]
        obtain ⟨us, hus⟩ := List.head?_eq_some_iff.mp ho
        have hadjacent := h.chain
        rw [List.map_cons, hus] at hadjacent
        have hopens := (List.isChain_cons_cons.mp hadjacent).1
        rw [Adjacent] at hopens
        split at hopens
        · next htrue =>
            revert htrue
            cases p.2 <;> exact id
        · cases hopens
      · obtain ⟨k, suffix, hint⟩ := int_of_not_read hp
        have hhead : ((p :: l).map Prod.snd).head? = some (.operand (.int k suffix)) :=
          congrArg some hint
        rw [hint] at hp ⊢
        rw [List.append_assoc _ _ bs]
        exact wrong_int (hexp _ hhead) hp

end

/-! ### The value of the text -/

/-- An expression of C written with white space before the tokens, before another text. -/
structure CExpr.Written (mnemonic : List Byte → Bool) (post : List Byte) (e : CExpr Operand)
    (l : List (List Byte × CTok)) : Prop where
  wf : e.WF
  operands : ∀ o, CTok.operand o ∈ e.toks → o.WF mnemonic
  toks : l.map Prod.snd = e.toks
  white : ∀ p ∈ l, ∀ c ∈ p.1, (space c || c == newline) = true
  ends : ∀ d ∈ post.head?, nameChar d = false ∧ d ≠ backslash

/-- Wherever the text is in a file, tokens are returned for it, and the parser takes these, and no
more, for an expression with the value of C. -/
def Means (mnemonic : List Byte → Bool) (names : List Byte → NameId) (lone : Tree → Bool)
    (e : CExpr Operand) (l : List (List Byte × CTok)) (post : List Byte) (rest : List Sym) : Prop :=
  ∀ bol acc, ∃ toks tree x,
    ScansTo post ⟨.scan .initial, bol, spaced l ++ post, acc⟩ (acc ++ toks) ∧
      parse [] none (toks.map (symOf mnemonic names) ++ rest) = some (tree, rest) ∧
        tree.build lone = some x ∧ ∀ ρ, x.value ρ true = (e.value (Operand.value names ρ)).word

section

variable {mnemonic : List Byte → Bool} {names : List Byte → NameId} {lone : Tree → Bool}
  {e : CExpr Operand} {l : List (List Byte × CTok)} {post : List Byte} {rest : List Sym}

theorem toks_wf (he : e.WF) (h : ∀ o, CTok.operand o ∈ e.toks → o.WF mnemonic) :
    ∀ t ∈ e.toks, t.WF mnemonic := by
  induction e with
  | operand o =>
      rintro t ht
      obtain rfl := List.mem_singleton.mp ht
      exact h o ht
  | paren e ih =>
      have hright := ih he fun o ho =>
        h o (List.mem_cons_of_mem _ (List.mem_append_left _ ho))
      exact List.forall_mem_cons.mpr ⟨trivial, List.forall_mem_append.mpr ⟨hright,
        List.forall_mem_singleton.mpr trivial⟩⟩
  | un op e ih =>
      have hplus : 1 ≤ cLevel .plus := by decide
      have hminus : 1 ≤ cLevel .minus := by decide
      obtain ⟨t, htoks, ht⟩ : ∃ t, (CExpr.un op e).toks = t :: e.toks ∧ t.WF mnemonic := by
        rcases op with _ | (_ | _ | _)
        · exact ⟨_, rfl, hplus⟩
        · exact ⟨_, rfl, hminus⟩
        · exact ⟨_, rfl, trivial⟩
        · exact ⟨_, rfl, trivial⟩
      rw [htoks] at h ⊢
      exact List.forall_mem_cons.mpr ⟨ht, ih he.1 fun o ho => h o (List.mem_cons_of_mem _ ho)⟩
  | bin t l r ihl ihr =>
      obtain ⟨⟨hl, -⟩, ⟨hr, -⟩, ht⟩ := he
      exact List.forall_mem_append.mpr ⟨ihl hl fun o ho => h o (List.mem_append_left _ ho),
        List.forall_mem_cons.mpr ⟨ht, ihr hr fun o ho =>
          h o (List.mem_append_right _ (List.mem_cons_of_mem _ ho))⟩⟩
  | cond c a b ihc iha ihb =>
      obtain ⟨⟨hc, -⟩, ha, hb⟩ := he
      have hright : ∀ o, CTok.operand o ∈ a.toks ++ .colon :: b.toks → o.WF mnemonic := fun o ho =>
        h o (List.mem_append_right _ (List.mem_cons_of_mem _ ho))
      exact List.forall_mem_append.mpr ⟨ihc hc fun o ho => h o (List.mem_append_left _ ho),
        List.forall_mem_cons.mpr ⟨trivial, List.forall_mem_append.mpr
          ⟨iha ha fun o ho => hright o (List.mem_append_left _ ho),
            List.forall_mem_cons.mpr ⟨trivial, ihb hb fun o ho =>
              hright o (List.mem_append_right _ (List.mem_cons_of_mem _ ho))⟩⟩⟩⟩

theorem CExpr.Written.source (h : e.Written mnemonic post l) : Source mnemonic post l := by
  have halternates := alternates_toks e
  rw [← h.toks] at halternates
  refine ⟨h.white, fun p hp => ?_, halternates.chain, halternates.last, h.ends⟩
  refine toks_wf h.wf h.operands p.2 ?_
  rw [← h.toks]
  exact List.mem_map_of_mem hp

theorem parse_end {tree : Tree} (hrest : lookahead rest = none) :
    parse [] (some tree) rest = some (tree, rest) := by
  cases rest with
  | nil => rfl
  | cons s ss =>
      refine parse_stop ?_
      cases s with
      | binop t => cases hrest
      | quest => cases hrest
      | _ => rfl

theorem not_means (h : e.Written mnemonic post l)
    (hbad : ¬((∀ p ∈ l, p.2.HasRule) ∧ ReadAll post l)) :
    ¬Means mnemonic names lone e l post rest := by
  intro hmeans
  obtain ⟨toks, tree, x, hscans, hparse, -⟩ := hmeans true []
  by_cases hrule : ∀ p ∈ l, p.2.HasRule
  · obtain rfl := List.append_cancel_left ((h.source.scansTo_iff hrule).mp hscans)
    have hexp : ∀ o, (l.map Prod.snd).head? = some (.operand o) → expects [] = true :=
      fun o ho => rfl
    obtain ⟨as, s, bs, heq, hs⟩ : Wrong ([] ++ (scannedAll post l).map (symOf mnemonic names) ++
        []) := h.source.wrong hrule (fun hread => hbad ⟨hrule, hread⟩) hexp []
    rw [List.nil_append, List.append_nil] at heq
    rw [heq, List.append_assoc] at hparse
    exact parse_wrong hs tree hparse
  · exact h.source.not_scansTo hrule hscans

theorem read_proper (names : List Byte → NameId) (o : Operand) : Proper (o.read names) := by
  cases o <;> exact fun l r h => nomatch h

/-- The types of the constants do not matter. -/
theorem word_value_read (hbell : e.All Operand.NoBell) (hsigned : e.Signed Operand.unsigned)
    (ρ : Valuation) : (e.value (Operand.value names ρ)).word =
      (e.value fun o => ⟨false, (o.read names).value ρ true⟩).word := by
  have htype : (fun o => (Operand.value names ρ o).unsigned) = Operand.unsigned := by
    funext o
    cases o <;> rfl
  refine word_value (htype ▸ hsigned) (fun _ => rfl) (hbell.imp fun o ho => ?_)
  cases o with
  | int k suffix => rfl
  | char c => exact congrArg (BitVec.setWidth 32) (Eq.symm ho)
  | name text => rfl

/-- The text of an expression of C is read, and only then, if there is no `!`, for which there is no
rule, no hexadecimal escape and no octal one of more than one digit, no constant has a suffix, which
is taken for a name, no digit is taken for a label, and no division of constants traps.  Then it
means what it means in C where no constant is `\a`, and no operator that depends on it has an
unsigned operand. -/
theorem expression_means (h : e.Written mnemonic post l) (hrest : lookahead rest = none) :
    (Means mnemonic names lone e l post rest →
      ((∀ p ∈ l, p.2.HasRule) ∧ ReadAll post l) ∧ e.Fits (Operand.read names)) ∧
    (((∀ p ∈ l, p.2.HasRule) ∧ ReadAll post l) ∧ e.Fits (Operand.read names) →
      e.All Operand.NoBell ∧ e.Signed Operand.unsigned →
        Means mnemonic names lone e l post rest) := by
  by_cases hgood : (∀ p ∈ l, p.2.HasRule) ∧ ReadAll post l
  · have hsyms : (scannedAll post l).map (symOf mnemonic names) = e.syms (Operand.read names) := by
      rw [h.source.symOf_scannedAll hgood.1 hgood.2, h.toks, toks_sym]
    have hparse : parse [] none (e.syms (Operand.read names) ++ rest) =
        some (e.tree (Operand.read names), rest) := by
      rw [parse_syms (Operand.read names) h.wf (show Admits e.level [] from trivial)
        (closes_of_none hrest), parse_end hrest]
    constructor
    · intro hmeans
      obtain ⟨toks, tree, x', hscans, hparse', hx', -⟩ := hmeans true []
      obtain rfl := List.append_cancel_left ((h.source.scansTo_iff hgood.1).mp hscans)
      rw [hsyms, hparse] at hparse'
      obtain ⟨rfl, -⟩ := Prod.mk.inj (Option.some.inj hparse')
      refine ⟨hgood, by_contra fun hfits => ?_⟩
      rw [build_eq_none (read_proper names) h.wf lone hfits] at hx'
      cases hx'
    · rintro ⟨-, hfits⟩ ⟨hbell, hsigned⟩ bol acc
      obtain ⟨x, hx, -, hvalue⟩ := build_value (read_proper names) h.wf lone hfits
      refine ⟨scannedAll post l, e.tree (Operand.read names), x,
        (h.source.scansTo_iff hgood.1).mpr rfl, ?_, hx, fun ρ => ?_⟩
      · rw [hsyms, hparse]
      · rw [word_value_read hbell hsigned ρ, hvalue ρ]
  · exact ⟨fun hmeans => absurd hmeans (not_means h hgood), fun hall => absurd hall.1 hgood⟩

end

/-- A decimal digit as an operand. -/
def digitOperand (c : Char) : CExpr Operand := .operand (.int (.decimal [chr c]) [])

/-- `1 + 2`. -/
def onePlusTwo : CExpr Operand := .bin .plus (digitOperand '1') (digitOperand '2')

/-- `c ? 2 : 3`. -/
def twoOrThree : CExpr Operand :=
  .cond (.operand (.name [chr 'c'])) (digitOperand '2') (digitOperand '3')

/-- A blank before each token. -/
def blanked (e : CExpr Operand) : List (List Byte × CTok) := e.toks.map fun t => ([0x20], t)

theorem written_blanked {e : CExpr Operand} (he : e.WF)
    (htoks : ∀ t ∈ e.toks, t.WF fun _ => false) :
    e.Written (fun _ => false) [chr ';'] (blanked e) := by
  refine ⟨he, fun o ho => htoks _ ho, ?_, fun p hp => ?_, ?_⟩
  · rw [blanked, List.map_map]
    exact List.map_id _
  · obtain ⟨t, -, rfl⟩ := List.mem_map.mp hp
    exact List.forall_mem_singleton.mpr rfl
  · rintro d ⟨⟩
    decide

theorem digit_wf {c : Byte} (hc : digit c = true) (hzero : c ≠ chr '0') :
    (CTok.operand (.int (.decimal [c]) [])).WF fun _ => false := by
  have hvalue : number 10 [c] < 2 ^ 32 := by
    clear hzero
    revert c
    decide +kernel
  refine ⟨⟨hvalue, List.cons_ne_nil c [], fun h => hzero (Option.some.inj h),
    List.forall_mem_singleton.mpr hc⟩, by decide⟩

theorem onePlusTwo_means : Means (fun _ => false) (fun _ => 0) (fun _ => false) onePlusTwo
    (blanked onePlusTwo) [chr ';'] [.other] := by
  have hwritten : onePlusTwo.Written (fun _ => false) [chr ';'] (blanked onePlusTwo) := by
    refine written_blanked ⟨⟨trivial, by decide⟩, ⟨trivial, by decide⟩, by decide⟩ ?_
    exact List.forall_mem_cons.mpr ⟨digit_wf (by decide) (by decide), List.forall_mem_cons.mpr
      ⟨(by decide : 1 ≤ cLevel .plus), List.forall_mem_singleton.mpr
        (digit_wf (by decide) (by decide))⟩⟩
  refine (expression_means hwritten rfl).2 ⟨⟨?_, ?_⟩, trivial, trivial, rfl⟩
    ⟨⟨trivial, trivial⟩, ⟨trivial, nofun⟩, trivial, nofun⟩
  · exact List.forall_mem_cons.mpr ⟨trivial, List.forall_mem_cons.mpr ⟨trivial,
      List.forall_mem_singleton.mpr trivial⟩⟩
  · exact ⟨⟨rfl, by decide⟩, trivial, ⟨rfl, by decide⟩, trivial⟩

/-- In `c ? 2 : 3;` the 2 is taken for a label. -/
theorem twoOrThree_not_meant :
    (twoOrThree.Written (fun _ => false) [chr ';'] (blanked twoOrThree) ∧
      lookahead [.other] = none) ∧
      ¬Means (fun _ => false) (fun _ => 0) (fun _ => false) twoOrThree (blanked twoOrThree)
        [chr ';'] [.other] := by
  have hwritten : twoOrThree.Written (fun _ => false) [chr ';'] (blanked twoOrThree) := by
    refine written_blanked ⟨⟨trivial, by decide⟩, trivial, trivial⟩ ?_
    exact List.forall_mem_cons.mpr ⟨⟨by decide, rfl⟩, List.forall_mem_cons.mpr ⟨trivial,
      List.forall_mem_cons.mpr ⟨digit_wf (by decide) (by decide), List.forall_mem_cons.mpr
        ⟨trivial, List.forall_mem_singleton.mpr (digit_wf (by decide) (by decide))⟩⟩⟩⟩
  have hlabel : labels [chr '2'] (spaced [([0x20], .colon), ([0x20],
      .operand (.int (.decimal [chr '3']) []))] ++ [chr ';']) = true := by decide
  refine ⟨⟨hwritten, rfl⟩, not_means hwritten fun hgood => ?_⟩
  obtain ⟨-, -, ⟨-, hread⟩, -⟩ := hgood.2
  exact Bool.eq_false_iff.mp hread hlabel

end Ttools.Ast
