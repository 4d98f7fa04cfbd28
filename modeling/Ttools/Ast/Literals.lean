import Mathlib.Data.List.TakeWhile
import Mathlib.Data.Nat.Digits.Defs
import Ttools.Ast.Rules

/-!
# String literals

The rules of `ast/scan.l` for what is inside a string, with the buffer that they fill.  The manual
has the contents "parsed according to the rules of the C language".

* `scan_chunk`, `scan_escape`: which rule is taken, and what it stores.
* `string_token_iff`: where no escape is read otherwise than in C, the token is the C meaning of the
  literal, and nothing is stored outside the buffer, exactly when no piece begins within one size of
  the buffer and ends beyond the double of it.
* `allAsInC_iff`: the escapes that are read otherwise are `\a`, the hexadecimal ones, the octal ones
  of more than one digit, and an octal one after another.
-/

namespace Ttools.Ast

open Support Support.Pattern

/-! ### The actions -/

/-- What `c_char_escape` has a case for. -/
def charEscapes : List (Byte × Byte) :=
  [(dquote, dquote), (apostrophe, apostrophe), (backslash, backslash), (chr '0', 0x00),
    (chr 'b', 0x08), (chr 'f', 0x0c), (chr 'n', 0x0a), (chr 'r', 0x0d), (chr 't', 0x09),
    (chr 'v', 0x0b)]

/-- `c_char_escape`; an unknown escape is the character, with a warning. -/
def cCharEscape (c : Byte) : Byte := (charEscapes.lookup c).getD c

/-- The value of a digit. -/
def digitOf (c : Byte) : Nat :=
  if digit c then c.toNat - 0x30 else if range 'a' 'f' c then c.toNat - 0x57 else c.toNat - 0x37

/-- A digit of a base up to 16. -/
def digitIn (base : Nat) (c : Byte) : Bool := hex c && decide (digitOf c < base)

/-- `strntol`, and `strtoul`: the text begins with a digit, and what is after the digits is not
looked at. -/
def strntol (text : List Byte) (base : Nat) : Nat :=
  (text.takeWhile (digitIn base)).foldl (fun n d => n * base + digitOf d) 0

/-- `string` with `stringlen` bytes in it, and `stringlenmax`. -/
structure StringBuf where
  bytes : List Byte
  max : Nat
  deriving DecidableEq, Repr

/-- The greatest `int`. -/
def intMax : Nat := 2 ^ 31 - 1

/-- `stringlenmax` is doubled. -/
def doubled (max : Nat) : Nat := if max = 0 then 80 else max * 2

/-- `mk_string_space`; `none` is an overflow of `stringlenmax`. -/
def mkStringSpace (requested : Nat) (b : StringBuf) : Option StringBuf :=
  if (b.max : Int) - b.bytes.length < requested then
    if doubled b.max ≤ intMax then some { b with max := doubled b.max } else none
  else some b

/-- Bytes are stored at `stringlen`; `none` if one of them is outside the buffer. -/
def StringBuf.store (b : StringBuf) (bytes : List Byte) : Option StringBuf :=
  if b.bytes.length + bytes.length ≤ b.max then some { b with bytes := b.bytes ++ bytes } else none

/-- Room is made, and the bytes are stored. -/
def StringBuf.put (b : StringBuf) (bytes : List Byte) : Option StringBuf :=
  (mkStringSpace bytes.length b).bind fun b => b.store bytes

/-- The actions of the rules. -/
inductive StringAct where
  | close | chunk | octal | hex | escape | echo
  deriving DecidableEq, Repr

/-- The patterns of the start condition, in the order of the rules, with their actions. -/
def stringActs : List (Pattern Byte × StringAct) :=
  ((stringRules ++ [defaultRule]).map (·.pattern)).zip
    [.close, .chunk, .octal, .hex, .escape, .echo]

/-- These are the rules that are active inside a string. -/
theorem stringActs_active (bol : Bool) :
    stringActs.map Prod.fst = (rules.filter (active .string bol)).map (·.pattern) := by
  cases bol <;> rfl

/-- The scanner inside a string, for so many rules: the token, the buffer as it is left for the
next string, and what has not been read.  At the end of the file there is only an error. -/
def stringScan : Nat → StringBuf → List Byte → Option (List Byte × StringBuf × List Byte)
  | 0, _, _ => none
  | turns + 1, b, s =>
      match best Prod.fst stringActs s with
      | none => none
      | some (n, _, a) =>
          let text := s.take n
          let rest := s.drop n
          match a with
          | .close => some (b.bytes, { b with bytes := [] }, rest)
          | .chunk => (b.put text).bind fun b => stringScan turns b rest
          | .octal =>
              (b.put [BitVec.ofNat 8 (strntol (text.drop 1) 8)]).bind fun b =>
                stringScan turns b rest
          | .hex =>
              (b.put [BitVec.ofNat 8 (strntol (text.drop 2) 16)]).bind fun b =>
                stringScan turns b rest
          | .escape => (b.put [cCharEscape (text.getD 1 0)]).bind fun b => stringScan turns b rest
          | .echo => stringScan turns b rest

/-! ### The rule that is taken -/

/-- The byte of an escape, and what is after it; `none` if a backslash is no escape.  Up to two more
octal escapes of one digit are taken with one, and a second hexadecimal one with the first; the
digit of the first is the value. -/
def escape : List Byte → Option (Byte × List Byte)
  | [] => none
  | c :: s =>
      if octal c = true then
        some (BitVec.ofNat 8 (digitOf c), s.drop (2 * repeats octalEscape 2 2 s))
      else if repeats hexEscape 3 2 (backslash :: c :: s) = 2 then
        some (BitVec.ofNat 8 (digitOf (s.headD 0)), s.drop 4)
      else if dot c = true then some (cCharEscape c, s)
      else none

section

variable {b : StringBuf} {s t u : List Byte} {c : Byte}

theorem lit_singleton (c : Byte) : lit [c] = one (· == c) := by
  funext w
  refine Bool.eq_iff_iff.mpr ?_
  rw [one_iff, lit, beq_iff_eq]
  constructor
  · rintro rfl
    exact ⟨c, rfl, beq_self_eq_true c⟩
  · rintro ⟨d, rfl, hd⟩
    rw [beq_iff_eq.mp hd]

theorem octalEscape_length (u : List Byte) (h : octalEscape u = true) : u.length = 2 := by
  obtain ⟨d, rfl, -⟩ := octalEscape_iff.mp h
  rfl

theorem hexEscape_length (u : List Byte) (h : hexEscape u = true) : u.length = 3 := by
  obtain ⟨x, d, rfl, -⟩ := hexEscape_iff.mp h
  rfl

/-- The rules one by one at a text that is not empty. -/
theorem best_string_eq (c : Byte) (s : List Byte) :
    best Prod.fst stringActs (c :: s) =
      longer ((if c = dquote then some 1 else none).map (·, lit [dquote], .close))
        (longer ((longest (many1 plainChar) (c :: s)).map (·, many1 plainChar, .chunk))
          (longer ((longest (times 1 3 octalEscape) (c :: s)).map
              (·, times 1 3 octalEscape, .octal))
            (longer ((longest (times 2 2 hexEscape) (c :: s)).map
                (·, times 2 2 hexEscape, .hex))
              (longer ((if c = backslash then (longest (one dot) s).map (· + 1) else none).map
                  (·, seq (lit [backslash]) (one dot), .escape))
                (some (1, one fun _ => true, .echo)))))) := by
  have hdquote : longest (lit [dquote]) (c :: s) = if c = dquote then some 1 else none := by
    rw [lit_singleton, longest_one]
    simp only [beq_iff_eq]
  have hback (Q : Pattern Byte) : longest (seq (lit [backslash]) Q) (c :: s) =
      if c = backslash then (longest Q s).map (· + 1) else none := by
    rw [lit_singleton, longest_seq_one]
    simp only [beq_iff_eq]
  rw [← hdquote, ← hback]
  simp only [stringActs, stringRules, defaultRule, List.cons_append, List.nil_append, List.map_cons,
    List.map_nil, List.zip_cons_cons, List.zip_nil_left, best, longest_one, if_true,
    Option.map_some]
  rfl

/-- There is no escape without a backslash. -/
theorem repeats_escape (h : c ≠ backslash) (n : Nat) :
    repeats octalEscape 2 n (c :: s) = 0 ∧ repeats hexEscape 3 n (c :: s) = 0 := by
  refine ⟨repeats_of_not (Bool.eq_false_iff.mpr fun hu => ?_) n,
    repeats_of_not (Bool.eq_false_iff.mpr fun hu => ?_) n⟩
  · obtain ⟨d, heq, -⟩ := octalEscape_iff.mp hu
    exact h (List.cons.inj heq).1
  · obtain ⟨x, d, heq, -⟩ := hexEscape_iff.mp hu
    exact h (List.cons.inj heq).1

theorem longest_octal (s : List Byte) : longest (times 1 3 octalEscape) s =
    if 1 ≤ repeats octalEscape 2 3 s then some (2 * repeats octalEscape 2 3 s) else none :=
  longest_times octalEscape_length 1 3 s

theorem longest_hex (s : List Byte) : longest (times 2 2 hexEscape) s =
    if 2 ≤ repeats hexEscape 3 2 s then some (3 * repeats hexEscape 3 2 s) else none :=
  longest_times hexEscape_length 2 2 s

theorem plain_ne (h : plainChar c = true) : c ≠ backslash ∧ c ≠ dquote := by
  simpa only [plainChar, Bool.and_eq_true, bne_iff_ne] using h

theorem takeWhile_of_head {p : Byte → Bool} (h : ∀ c ∈ s.head?, p c = false) :
    s.takeWhile p = [] := by
  cases s with
  | nil => rfl
  | cons c s => exact List.takeWhile_cons_of_neg (Bool.eq_false_iff.mp (h c rfl))

theorem dot_of_isX (h : isX c = true) : dot c = true := by
  simp only [isX, Bool.or_eq_true, beq_iff_eq] at h
  obtain rfl | rfl := h
  all_goals decide

theorem of_octal (h : octal c = true) : isX c = false ∧ dot c = true := by
  revert c
  decide +kernel

theorem scan_close (turns : Nat) (b : StringBuf) (t : List Byte) :
    stringScan (turns + 1) b (dquote :: t) = some (b.bytes, { b with bytes := [] }, t) := by
  have hplain : (dquote :: t).takeWhile plainChar = [] :=
    List.takeWhile_cons_of_neg (by decide)
  have hne : dquote ≠ backslash := by decide
  rw [stringScan, best_string_eq, longest_many1, hplain, longest_octal, longest_hex,
    (repeats_escape hne 3).1, (repeats_escape hne 2).2]
  simp only [if_pos, if_neg hne, Option.map_some, Option.map_none, longer]
  rfl

/-- A chunk is everything up to a backslash or the quote. -/
theorem scan_chunk (turns : Nat) (b : StringBuf) (hne : u ≠ [])
    (hu : ∀ c ∈ u, plainChar c = true) (hs : ∀ c ∈ s.head?, plainChar c = false) :
    stringScan (turns + 1) b (u ++ s) = (b.put u).bind fun b => stringScan turns b s := by
  have hall : (u ++ s).takeWhile plainChar = u := by
    rw [List.takeWhile_append_of_pos hu, takeWhile_of_head hs, List.append_nil]
  have htake : (u ++ s).take u.length = u := List.take_left
  have hdrop : (u ++ s).drop u.length = s := List.drop_left
  obtain ⟨c, v, rfl⟩ := List.exists_cons_of_ne_nil hne
  obtain ⟨hback, hquote⟩ := plain_ne (hu c List.mem_cons_self)
  rw [List.cons_append] at hall htake hdrop ⊢
  rw [stringScan, best_string_eq, longest_many1, hall, longest_octal, longest_hex,
    (repeats_escape hback 3).1, (repeats_escape hback 2).2]
  have hnone (n : Nat) : ¬n + 1 ≤ 0 := Nat.not_succ_le_zero n
  simp only [if_neg hback, if_neg hquote, if_neg (List.cons_ne_nil c v), Option.map_some,
    Option.map_none, longer, List.length_cons, Nat.not_lt.mpr (Nat.le_add_left 1 v.length),
    if_false, if_neg (hnone 0), if_neg (hnone 1)]
  rw [List.length_cons] at htake hdrop
  rw [htake, hdrop]

/-- The longest of the escapes is taken, the octal one before one character. -/
theorem best_backslash (c : Byte) (s : List Byte) :
    best Prod.fst stringActs (backslash :: c :: s) =
      longer ((longest (times 1 3 octalEscape) (backslash :: c :: s)).map
          (·, times 1 3 octalEscape, .octal))
        (longer ((longest (times 2 2 hexEscape) (backslash :: c :: s)).map
            (·, times 2 2 hexEscape, .hex))
          (longer ((if dot c = true then some 2 else none).map
              (·, seq (lit [backslash]) (one dot), .escape))
            (some (1, one fun _ => true, .echo)))) := by
  have hplain : (backslash :: c :: s).takeWhile plainChar = [] :=
    List.takeWhile_cons_of_neg (by decide)
  have hne : backslash ≠ dquote := by decide
  have hdot : (if dot c = true then some 1 else none).map (· + 1) =
      if dot c = true then some 2 else none := by
    split <;> rfl
  rw [best_string_eq, longest_many1, hplain, longest_one]
  simp only [if_neg hne, if_pos, Option.map_none, longer, hdot]

theorem strntol_one {base : Nat} (hc : digitIn base c = true)
    (hs : ∀ d ∈ s.head?, digitIn base d = false) : strntol (c :: s) base = digitOf c := by
  rw [strntol, List.takeWhile_cons_of_pos hc, takeWhile_of_head hs, List.foldl_cons,
    List.foldl_nil, Nat.zero_mul, Nat.zero_add]

theorem digitIn_octal (h : octal c = true) : digitIn 8 c = true := by
  revert c
  decide +kernel

theorem digitIn_hex (h : hex c = true) : digitIn 16 c = true := by
  revert c
  decide +kernel

/-- How many octal escapes of one digit there are. -/
theorem repeats_octal (c : Byte) (n : Nat) (s : List Byte) :
    repeats octalEscape 2 (n + 1) (backslash :: c :: s) =
      if octal c = true then repeats octalEscape 2 n s + 1 else 0 := by
  have hiff : octalEscape [backslash, c] = true ↔ octal c = true := by
    rw [octalEscape_iff]
    constructor
    · rintro ⟨d, heq, hd⟩
      rwa [(List.cons.inj (List.cons.inj heq).2).1]
    · exact fun hc => ⟨c, rfl, hc⟩
  rw [repeats]
  exact if_congr hiff rfl rfl

/-- Further escapes begin with a backslash. -/
theorem head_take_repeats {d : Byte} {n : Nat}
    (hd : d ∈ (s.take (2 * repeats octalEscape 2 n s)).head?) : d = backslash := by
  by_contra hne
  cases s with
  | nil =>
      rw [List.take_nil] at hd
      cases hd
  | cons e s =>
      by_cases he : e = backslash
      · subst he
        rcases hrep : 2 * repeats octalEscape 2 n (backslash :: s) with _ | k
        · rw [hrep] at hd
          cases hd
        · rw [hrep] at hd
          exact hne (Option.some.inj hd).symm
      · rw [(repeats_escape he n).1] at hd
        cases hd

/-- Two hexadecimal escapes of one digit. -/
theorem repeats_hex (h : repeats hexEscape 3 2 (backslash :: c :: s) = 2) :
    isX c = true ∧ ∃ d s', s = d :: backslash :: s' ∧ hex d = true := by
  rw [repeats] at h
  split at h
  · next hfirst =>
      obtain ⟨x, d, heq, hx, hd⟩ := hexEscape_iff.mp hfirst
      rw [repeats] at h
      split at h
      · next hsecond =>
          obtain ⟨y, e, heq', -⟩ := hexEscape_iff.mp hsecond
          obtain ⟨rfl, hs⟩ : c = x ∧ s.take 1 = [d] := by simpa using heq
          have hs' : (s.drop 1).take 3 = [backslash, y, e] := heq'
          obtain ⟨s', hs'⟩ : ∃ s', s.drop 1 = backslash :: s' :=
            ⟨_, (List.take_append_drop 3 (s.drop 1)).symm.trans (by rw [hs']; rfl)⟩
          refine ⟨hx, d, s', ?_, hd⟩
          rw [← List.take_append_drop 1 s, hs, hs']
          rfl
      · cases h
  · cases h

theorem scan_escape (turns : Nat) (b : StringBuf) (h : escape s = some (c, t)) :
    stringScan (turns + 1) b (backslash :: s) = (b.put [c]).bind fun b => stringScan turns b t := by
  cases s with
  | nil => cases h
  | cons d s =>
      rw [stringScan, best_backslash, longest_octal, longest_hex, repeats_octal]
      rw [escape] at h
      by_cases hoctal : octal d = true
      · rw [if_pos hoctal] at h ⊢
        obtain ⟨rfl, rfl⟩ := Prod.mk.inj (Option.some.inj h)
        obtain ⟨hx, hdot⟩ := of_octal hoctal
        have hhex : ¬2 ≤ repeats hexEscape 3 2 (backslash :: d :: s) := fun hle => by
          rw [(repeats_hex (Nat.le_antisymm (repeats_le 2) hle)).1] at hx
          cases hx
        have hvalue : strntol (d :: s.take (2 * repeats octalEscape 2 2 s)) 8 = digitOf d :=
          strntol_one (digitIn_octal hoctal) fun e he => by
            rw [head_take_repeats he]
            decide
        generalize repeats octalEscape 2 2 s = r at hvalue ⊢
        simp only [if_neg hhex, hdot, Nat.le_add_left, if_pos, Option.map_some, Option.map_none,
          longer]
        rw [← hvalue]
        rfl
      · rw [if_neg hoctal] at h ⊢
        split at h
        · next hhex =>
            obtain ⟨rfl, rfl⟩ := Prod.mk.inj (Option.some.inj h)
            obtain ⟨hx, e, s, rfl, he⟩ := repeats_hex hhex
            have hdot : dot d = true := dot_of_isX hx
            have hvalue : strntol (e :: backslash :: s.take 2) 16 = digitOf e :=
              strntol_one (digitIn_hex he) (by rintro d ⟨⟩; decide)
            simp only [hhex, hdot, Nat.le_refl, if_pos, Option.map_some, longer]
            rw [List.headD_cons, ← hvalue]
            rfl
        · next hhex =>
            split at h
            · next hdot =>
                obtain ⟨rfl, rfl⟩ := Prod.mk.inj (Option.some.inj h)
                have hhex : ¬2 ≤ repeats hexEscape 3 2 (backslash :: d :: s) := fun hle =>
                  hhex (Nat.le_antisymm (repeats_le 2) hle)
                simp only [if_neg hhex, hdot, if_pos, Option.map_some, Option.map_none, longer]
                rfl
            · cases h

end

/-! ### The literals of C -/

/-- The simple escapes of C, with their values. -/
def simpleEscapes : List (Byte × Byte) :=
  [(apostrophe, apostrophe), (dquote, dquote), (chr '?', chr '?'), (backslash, backslash),
    (chr 'a', 0x07), (chr 'b', 0x08), (chr 'f', 0x0c), (chr 'n', 0x0a), (chr 'r', 0x0d),
    (chr 't', 0x09), (chr 'v', 0x0b)]

/-- The number that digits stand for. -/
def number (base : Nat) (ds : List Byte) : Nat := Nat.ofDigits base (ds.map digitOf).reverse

/-- What a literal consists of: chunks without a backslash, and escapes. -/
inductive Piece where
  | chunk (cs : List Byte)
  | simple (c value : Byte)
  | octal (ds : List Byte)
  | hex (ds : List Byte)
  deriving DecidableEq, Repr

namespace Piece

/-- How it is written. -/
def text : Piece → List Byte
  | chunk cs => cs
  | simple c _ => [backslash, c]
  | octal ds => backslash :: ds
  | hex ds => backslash :: chr 'x' :: ds

/-- What it means. -/
def value : Piece → List Byte
  | chunk cs => cs
  | simple _ value => [value]
  | octal ds => [BitVec.ofNat 8 (number 8 ds)]
  | hex ds => [BitVec.ofNat 8 (number 16 ds)]

/-- What is in it: the value of a number is that of a character. -/
def WF : Piece → Prop
  | chunk cs => cs ≠ [] ∧ ∀ c ∈ cs, plainChar c = true ∧ dot c = true
  | simple c value => (c, value) ∈ simpleEscapes
  | octal ds =>
      (1 ≤ ds.length ∧ ds.length ≤ 3) ∧ (∀ d ∈ ds, Ast.octal d = true) ∧ number 8 ds < 256
  | hex ds => ds ≠ [] ∧ (∀ d ∈ ds, Ast.hex d = true) ∧ number 16 ds < 256

/-- It ends before the text: a chunk before a backslash or the quote, an octal escape after three
digits or the last one, a hexadecimal escape after the last. -/
def EndsAt (s : List Byte) : Piece → Prop
  | chunk _ => ∀ c ∈ s.head?, plainChar c = false
  | simple _ _ => True
  | octal ds => ds.length = 3 ∨ ∀ c ∈ s.head?, Ast.octal c = false
  | hex _ => ∀ c ∈ s.head?, Ast.hex c = false

/-- The room that is asked for. -/
def requested : Piece → Nat
  | chunk cs => cs.length
  | _ => 1

/-- Read as in C by itself: not `\a`, one digit in an octal escape, and no hexadecimal escape. -/
def AsInC : Piece → Prop
  | chunk _ => True
  | simple c _ => c ≠ chr 'a'
  | octal ds => ds.length = 1
  | hex _ => False

/-- It is an octal escape. -/
def isOctal : Piece → Bool
  | octal _ => true
  | _ => false

end Piece

/-- A literal after its first quote. -/
def literal : List Piece → List Byte
  | [] => [dquote]
  | p :: ps => p.text ++ literal ps

/-- The pieces of a literal. -/
def Formed : List Piece → Prop
  | [] => True
  | p :: ps => p.WF ∧ p.EndsAt (literal ps) ∧ Formed ps

/-- What a literal means. -/
def meaning (ps : List Piece) : List Byte := ps.flatMap Piece.value

/-- Every piece is read as in C, and no octal escape is taken with the one before it. -/
structure AllAsInC (ps : List Piece) : Prop where
  piece : ∀ p ∈ ps, p.AsInC
  apart : ps.IsChain fun p q => ¬(p.isOctal = true ∧ q.isOctal = true)

/-- In a buffer of the size the token of a literal is its C meaning, and no byte is stored outside
the buffer. -/
def Decoded (max : Nat) (ps : List Piece) (t : List Byte) : Prop :=
  ∃ turns b, stringScan turns ⟨[], max⟩ (literal ps ++ t) = some (meaning ps, b, t)

/-- The sizes of the buffer, beginning with the one that it has. -/
def bufferSize (max : Nat) : Nat → Nat
  | 0 => max
  | j + 1 => doubled (bufferSize max j)

/-- No request begins within one of the sizes and ends beyond the next, or beyond the one if the
next is too big for an `int`. -/
def OneStep (max : Nat) (ns : List Nat) : Prop :=
  ∀ before n after, ns = before ++ n :: after → ∀ j, before.sum ≤ bufferSize max j →
    before.sum + n ≤ bufferSize max j ∨
      bufferSize max (j + 1) ≤ intMax ∧ before.sum + n ≤ bufferSize max (j + 1)

/-- There is room for one request after the other in a buffer that is doubled at most once for
each. -/
def Room : Nat → Nat → List Nat → Prop
  | _, _, [] => True
  | max, len, n :: ns =>
      if len + n ≤ max then Room max (len + n) ns
      else doubled max ≤ intMax ∧ len + n ≤ doubled max ∧ Room (doubled max) (len + n) ns

/-! ### The escapes -/

section

variable {b b' : StringBuf} {s t u v : List Byte} {ds : List Byte} {p : Piece} {ps : List Piece}
  {c : Byte} {turns : Nat}

theorem strntol_eq {base : Nat} (h : ∀ d ∈ ds, digitIn base d = true) :
    strntol ds base = number base ds := by
  rw [strntol, List.takeWhile_eq_self_iff.mpr h, number, Nat.ofDigits_eq_foldr,
    List.foldr_reverse, List.foldl_map]
  congr 1
  funext n d
  rw [Nat.add_comm, Nat.mul_comm]
  rfl

theorem number_one (base : Nat) (d : Byte) : number base [d] = digitOf d := by
  rw [number, List.map_singleton, List.reverse_singleton, Nat.ofDigits_singleton]

theorem escape_octal {d : Byte} (hd : octal d = true) (hs : repeats octalEscape 2 2 s = 0) :
    escape (d :: s) = some (BitVec.ofNat 8 (digitOf d), s) := by
  rw [escape, if_pos hd, hs]
  rfl

/-- What is neither an octal digit nor the beginning of two hexadecimal escapes. -/
theorem escape_other (hoctal : octal c = false) (hdot : dot c = true)
    (hhex : repeats hexEscape 3 2 (backslash :: c :: s) ≠ 2) :
    escape (c :: s) = some (cCharEscape c, s) := by
  rw [escape, if_neg (Bool.eq_false_iff.mp hoctal), if_neg hhex, if_pos hdot]

theorem plain_of_octal (h : octal c = true) : plainChar c = true := by
  revert c
  decide +kernel

theorem of_hex (h : hex c = true) : plainChar c = true ∧ c ≠ backslash := by
  revert c
  decide +kernel

theorem of_simpleEscapes :
    ∀ q ∈ simpleEscapes, octal q.1 = false ∧ isX q.1 = false ∧ dot q.1 = true ∧
      (cCharEscape q.1 = q.2 ↔ q.1 ≠ chr 'a') := by
  simp only [simpleEscapes, List.forall_mem_cons]
  exact ⟨by decide, by decide, by decide, by decide, by decide, by decide, by decide, by decide,
    by decide, by decide, by decide, List.forall_mem_nil _⟩

theorem escape_simple {value : Byte} (h : (c, value) ∈ simpleEscapes) :
    escape (c :: s) = some (cCharEscape c, s) := by
  obtain ⟨hoctal, hx, hdot, -⟩ := of_simpleEscapes _ h
  refine escape_other hoctal hdot fun hhex => ?_
  rw [(repeats_hex hhex).1] at hx
  cases hx

theorem literal_cons_head (hwf : p.WF) (ps : List Piece) (t : List Byte) :
    (literal (p :: ps) ++ t).head? = p.text.head? := by
  have hne : p.text ≠ [] := by
    cases p with
    | chunk cs => exact hwf.1
    | simple c value => exact List.cons_ne_nil _ _
    | octal ds => exact List.cons_ne_nil _ _
    | hex ds => exact List.cons_ne_nil _ _
  obtain ⟨c, w, hw⟩ := List.exists_cons_of_ne_nil hne
  rw [literal, hw]
  rfl

theorem literal_head (ps : List Piece) (t : List Byte) (hps : Formed ps) :
    (literal ps ++ t).head? = (literal ps).head? := by
  cases ps with
  | nil => rfl
  | cons p ps =>
      rw [literal_cons_head hps.1 ps t, ← literal_cons_head hps.1 ps [], List.append_nil]

theorem Piece.EndsAt.congr (h : p.EndsAt s) (hst : t.head? = s.head?) : p.EndsAt t := by
  cases p with
  | simple c value => trivial
  | chunk cs => rwa [EndsAt, hst]
  | octal ds => rwa [EndsAt, hst]
  | hex ds => rwa [EndsAt, hst]

theorem Piece.endsAt_quote (p : Piece) (t : List Byte) : p.EndsAt (dquote :: t) := by
  cases p with
  | simple c value => trivial
  | chunk cs =>
      rintro c ⟨⟩
      rfl
  | octal ds =>
      refine .inr ?_
      rintro c ⟨⟩
      decide
  | hex ds =>
      rintro c ⟨⟩
      decide

/-- No octal escape is taken with the one before the rest of the literal. -/
theorem repeats_literal (hps : Formed ps) (hhead : ∀ p ∈ ps.head?, p.isOctal = false) :
    repeats octalEscape 2 2 (literal ps ++ t) = 0 := by
  cases ps with
  | nil => exact (repeats_escape (by decide) 2).1
  | cons p ps =>
      obtain ⟨hwf, -, -⟩ := hps
      rw [literal, List.append_assoc]
      cases p with
      | chunk cs =>
          obtain ⟨c, cs, rfl⟩ := List.exists_cons_of_ne_nil hwf.1
          exact (repeats_escape (plain_ne (hwf.2 c List.mem_cons_self).1).1 2).1
      | simple c value =>
          have hoctal : ¬octal c = true := Bool.eq_false_iff.mp (of_simpleEscapes _ hwf).1
          exact (repeats_octal c 1 _).trans (if_neg hoctal)
      | hex ds => exact (repeats_octal (chr 'x') 1 _).trans (if_neg (by decide))
      | octal ds => cases hhead _ rfl

/-! ### The buffer -/

/-- Room is made and the bytes are stored if they fit after the buffer has been doubled once. -/
theorem put_eq (b : StringBuf) (bytes : List Byte) :
    b.put bytes =
      if b.bytes.length + bytes.length ≤ b.max then some ⟨b.bytes ++ bytes, b.max⟩
      else if doubled b.max ≤ intMax ∧ b.bytes.length + bytes.length ≤ doubled b.max then
        some ⟨b.bytes ++ bytes, doubled b.max⟩
      else none := by
  unfold StringBuf.put mkStringSpace
  by_cases hroom : b.bytes.length + bytes.length ≤ b.max
  · rw [if_neg (by omega), if_pos hroom, Option.bind_some, StringBuf.store, if_pos hroom]
  · rw [if_pos (by omega), if_neg hroom]
    by_cases hmax : doubled b.max ≤ intMax
    · rw [if_pos hmax, Option.bind_some, StringBuf.store]
      simp only [hmax, true_and]
    · rw [if_neg hmax, Option.bind_none, if_neg fun h => hmax h.1]

theorem bufferSize_le {i j : Nat} (max : Nat) (h : i ≤ j) :
    bufferSize max i ≤ bufferSize max j := by
  refine monotone_nat_of_le_succ (fun n => ?_) h
  rw [bufferSize, doubled]
  split <;> omega

/-- A property of every request, at the first one and at the others. -/
theorem forall_split_cons (P : List Nat → Nat → Prop) (n : Nat) (ns : List Nat) :
    (∀ before m after, n :: ns = before ++ m :: after → P before m) ↔
      P [] n ∧ ∀ before m after, ns = before ++ m :: after → P (n :: before) m := by
  constructor
  · intro h
    exact ⟨h [] n ns rfl, fun before m after heq =>
      h (n :: before) m after (congrArg (n :: ·) heq)⟩
  · rintro ⟨hhead, htail⟩ before m after heq
    cases before with
    | nil =>
        obtain ⟨rfl, -⟩ := List.cons.inj heq
        exact hhead
    | cons k before =>
        obtain ⟨rfl, htl⟩ := List.cons.inj heq
        exact htail before m after htl

/-- The buffer is always the first of its sizes that is big enough. -/
theorem room_iff_of_size {max len j : Nat} (hlen : len ≤ bufferSize max j)
    (hfirst : ∀ i < j, bufferSize max i < len) (ns : List Nat) :
    Room (bufferSize max j) len ns ↔
      ∀ before n after, ns = before ++ n :: after → ∀ i, len + before.sum ≤ bufferSize max i →
        len + before.sum + n ≤ bufferSize max i ∨
          bufferSize max (i + 1) ≤ intMax ∧ len + before.sum + n ≤ bufferSize max (i + 1) := by
  induction ns generalizing len j with
  | nil =>
      exact iff_of_true trivial fun before n after h => nomatch List.append_eq_nil_iff.mp h.symm
  | cons n ns ih =>
      rw [forall_split_cons fun before m => ∀ i, len + before.sum ≤ bufferSize max i →
        len + before.sum + m ≤ bufferSize max i ∨
          bufferSize max (i + 1) ≤ intMax ∧ len + before.sum + m ≤ bufferSize max (i + 1)]
      simp only [List.sum_nil, List.sum_cons, Nat.add_zero, ← Nat.add_assoc]
      rw [Room]
      split
      · next hroom =>
          rw [ih hroom fun i hi => (hfirst i hi).trans_le (Nat.le_add_right len n)]
          refine (and_iff_right fun i hi => .inl ?_).symm
          have hj : j ≤ i := Nat.le_of_not_lt fun hlt => absurd (hfirst i hlt) hi.not_gt
          exact hroom.trans (bufferSize_le max hj)
      · next hroom =>
          have hfirst' (i : Nat) (hi : i < j + 1) : bufferSize max i < len + n :=
            (bufferSize_le max (Nat.le_of_lt_succ hi)).trans_lt (not_le.mp hroom)
          constructor
          · rintro ⟨hmax, hnext, hrest⟩
            refine ⟨fun i hi => ?_, (ih hnext hfirst').mp hrest⟩
            have hj : j ≤ i := Nat.le_of_not_lt fun hlt => absurd (hfirst i hlt) hi.not_gt
            rcases hj.eq_or_lt with rfl | hlt
            · exact .inr ⟨hmax, hnext⟩
            · exact .inl (hnext.trans (bufferSize_le max hlt))
          · rintro ⟨hhead, hrest⟩
            obtain ⟨hmax, hnext⟩ := (hhead j hlen).resolve_left hroom
            exact ⟨hmax, hnext, (ih hnext hfirst').mpr hrest⟩

/-- There is room if and only if no request passes two sizes. -/
theorem room_iff_oneStep (max : Nat) (ns : List Nat) : Room max 0 ns ↔ OneStep max ns := by
  refine (room_iff_of_size (j := 0) (Nat.zero_le _) (fun i hi => nomatch hi) ns).trans ?_
  simp only [Nat.zero_add]
  rfl

theorem put_bytes {bytes : List Byte} (h : b.put bytes = some b') :
    b'.bytes = b.bytes ++ bytes := by
  rw [put_eq] at h
  split at h
  · obtain rfl := Option.some.inj h
    rfl
  · split at h
    · obtain rfl := Option.some.inj h
      rfl
    · cases h

/-- What a request needs is what the buffer has for it. -/
theorem room_cons_iff (bytes : List Byte) (ns : List Nat) :
    Room b.max b.bytes.length (bytes.length :: ns) ↔
      ∃ b', b.put bytes = some b' ∧ Room b'.max b'.bytes.length ns := by
  rw [put_eq, Room]
  split
  · simp only [Option.some.injEq, exists_eq_left', List.length_append]
  · split
    · next h => simp only [Option.some.injEq, exists_eq_left', List.length_append, h, true_and]
    · next h => simpa [not_and] using fun h₁ h₂ => absurd ⟨h₁, h₂⟩ h

/-! ### What is scanned -/

/-- A piece that is read as in C is one request. -/
theorem scan_piece (hp : Formed (p :: ps)) (hC : AllAsInC (p :: ps)) (turns : Nat)
    (b : StringBuf) :
    stringScan (turns + 1) b (literal (p :: ps) ++ t) =
        (b.put p.value).bind (fun b => stringScan turns b (literal ps ++ t)) ∧
      p.value.length = p.requested := by
  obtain ⟨hwf, hends, hps⟩ := hp
  have hasInC := hC.piece p List.mem_cons_self
  rw [literal, List.append_assoc]
  cases p with
  | chunk cs =>
      refine ⟨scan_chunk turns b hwf.1 (fun c hc => (hwf.2 c hc).1) fun c hc => ?_, rfl⟩
      rw [literal_head ps t hps] at hc
      exact hends c hc
  | simple c value =>
      obtain ⟨-, -, -, hiff⟩ := of_simpleEscapes _ hwf
      have hvalue : cCharEscape c = value := hiff.mpr hasInC
      rw [← hvalue] at hwf ⊢
      exact ⟨scan_escape turns b (escape_simple hwf), rfl⟩
  | octal ds =>
      obtain ⟨d, rfl⟩ := List.length_eq_one_iff.mp hasInC
      obtain ⟨-, hd, -⟩ := hwf
      have hhead : ∀ q ∈ ps.head?, q.isOctal = false := by
        intro q hq
        obtain ⟨qs, rfl⟩ := List.head?_eq_some_iff.mp hq
        refine Bool.eq_false_iff.mpr fun hoctal => ?_
        exact (List.isChain_cons_cons.mp hC.apart).1 ⟨rfl, hoctal⟩
      rw [Piece.value, number_one]
      exact ⟨scan_escape turns b (escape_octal (hd d List.mem_cons_self)
        (repeats_literal hps hhead)), rfl⟩
  | hex ds => exact hasInC.elim

theorem AllAsInC.tail (h : AllAsInC (p :: ps)) : AllAsInC ps :=
  ⟨fun q hq => h.piece q (List.mem_cons_of_mem p hq), h.apart.tail⟩

/-- The scanner gets to the end of the string, with the meaning of the pieces stored, if and only
if there is room for every piece. -/
theorem scan_room_iff (hps : Formed ps) (hC : AllAsInC ps) :
    (∃ turns b', stringScan turns b (literal ps ++ t) = some (b.bytes ++ meaning ps, b', t)) ↔
      Room b.max b.bytes.length (ps.map Piece.requested) := by
  induction ps generalizing b with
  | nil =>
      refine iff_of_true ⟨1, { b with bytes := [] }, ?_⟩ trivial
      rw [meaning, List.flatMap_nil, List.append_nil]
      exact scan_close 0 b t
  | cons p ps ih =>
      have hmeaning : b.bytes ++ meaning (p :: ps) = b.bytes ++ p.value ++ meaning ps := by
        rw [meaning, List.flatMap_cons, ← List.append_assoc]
        rfl
      rw [List.map_cons, ← (scan_piece (t := t) hps hC 0 b).2, room_cons_iff, hmeaning]
      constructor
      · rintro ⟨turns, b', hr⟩
        cases turns with
        | zero => cases hr
        | succ turns =>
            rw [(scan_piece hps hC turns b).1] at hr
            obtain ⟨b₁, hput, hrest⟩ := Option.bind_eq_some_iff.mp hr
            rw [← put_bytes hput] at hrest
            exact ⟨b₁, hput, (ih hps.2.2 hC.tail).mp ⟨turns, b', hrest⟩⟩
      · rintro ⟨b₁, hput, hroom⟩
        obtain ⟨turns, b', hr⟩ := (ih hps.2.2 hC.tail).mpr hroom
        refine ⟨turns + 1, b', ?_⟩
        rw [(scan_piece hps hC turns b).1, hput, Option.bind_some, hr, put_bytes hput]

/-- A buffer that is big enough for all. -/
theorem room_of_sum {max len : Nat} {ns : List Nat} (h : len + ns.sum ≤ max) : Room max len ns := by
  induction ns generalizing len with
  | nil => trivial
  | cons n ns ih =>
      rw [List.sum_cons, ← Nat.add_assoc] at h
      rw [Room, if_pos ((Nat.le_add_right _ _).trans h)]
      exact ih h

/-- An escape, the plain characters that are left of it, and the quote. -/
theorem scan_single {max : Nat} {w t' : List Byte}
    (hesc : escape (w ++ dquote :: t) = some (c, u ++ dquote :: t))
    (hu : ∀ d ∈ u, plainChar d = true)
    (h : stringScan turns ⟨[], max⟩ (backslash :: w ++ dquote :: t) = some (v, b', t')) :
    v = c :: u := by
  have hclose {turns : Nat} {b : StringBuf}
      (h : stringScan turns b (dquote :: t) = some (v, b', t')) : v = b.bytes := by
    cases turns with
    | zero => cases h
    | succ turns =>
        rw [scan_close] at h
        exact (Prod.mk.inj (Option.some.inj h)).1.symm
  cases turns with
  | zero => cases h
  | succ turns =>
      rw [List.cons_append, scan_escape turns _ hesc] at h
      obtain ⟨b₁, hput, h⟩ := Option.bind_eq_some_iff.mp h
      have hbytes : b₁.bytes = [c] := put_bytes hput
      by_cases hne : u = []
      · subst hne
        exact (hclose h).trans hbytes
      · cases turns with
        | zero => cases h
        | succ turns =>
            rw [scan_chunk turns b₁ hne hu (by rintro d ⟨⟩; rfl)] at h
            obtain ⟨b₂, hput₂, h⟩ := Option.bind_eq_some_iff.mp h
            rw [hclose h, put_bytes hput₂, hbytes]
            rfl

/-- A piece that is not read as in C is not decoded in a literal of its own. -/
theorem not_decoded_piece {max : Nat} (hwf : p.WF) (hC : ¬p.AsInC) : ¬Decoded max [p] t := by
  rintro ⟨turns, b, h⟩
  cases p with
  | chunk cs => exact hC trivial
  | simple c value =>
      have hv := scan_single (w := [c]) (u := []) (escape_simple hwf) (List.forall_mem_nil _) h
      exact hC ((of_simpleEscapes _ hwf).2.2.2.mp (List.cons.inj hv).1.symm)
  | octal ds =>
      obtain ⟨⟨hlen, -⟩, hds, -⟩ := hwf
      obtain ⟨d, ds, rfl⟩ := List.exists_cons_of_length_pos hlen
      obtain ⟨hd, hds⟩ := List.forall_mem_cons.mp hds
      have hhex : ∀ e ∈ ds, plainChar e = true := fun e he => plain_of_octal (hds e he)
      have hne : ds ≠ [] := fun hnil => hC (by rw [hnil]; rfl)
      obtain ⟨e, es, rfl⟩ := List.exists_cons_of_ne_nil hne
      have hrep : repeats octalEscape 2 2 (e :: es ++ dquote :: t) = 0 :=
        (repeats_escape (plain_ne (hhex e List.mem_cons_self)).1 2).1
      have hv := scan_single (w := d :: e :: es) (u := e :: es) (escape_octal hd hrep) hhex
        (by simpa [literal, Piece.text] using h)
      exact absurd (congrArg List.length hv) (by simp [meaning, Piece.value])
  | hex ds =>
      obtain ⟨hne, hds, -⟩ := hwf
      obtain ⟨d, ds, rfl⟩ := List.exists_cons_of_ne_nil hne
      have hesc : escape (chr 'x' :: (d :: ds ++ dquote :: t)) =
          some (cCharEscape (chr 'x'), d :: ds ++ dquote :: t) := by
        refine escape_other (by decide) (by decide) fun hhex => ?_
        obtain ⟨-, e, s', heq, -⟩ := repeats_hex hhex
        obtain ⟨-, heq⟩ := List.cons.inj heq
        cases ds with
        | nil => exact absurd (List.cons.inj heq).1 (by decide)
        | cons f ds =>
            have hf := hds f (List.mem_cons_of_mem d List.mem_cons_self)
            exact (of_hex hf).2 (List.cons.inj heq).1
      have hv := scan_single (w := chr 'x' :: d :: ds) (u := d :: ds) hesc
        (fun e he => (of_hex (hds e he)).1) (by simpa [literal, Piece.text] using h)
      exact absurd (congrArg List.length hv) (by simp [meaning, Piece.value])

/-- Of two octal escapes of one digit only one is stored. -/
theorem not_decoded_pair {max : Nat} {d e : Byte} (hd : Ast.octal d = true)
    (he : Ast.octal e = true) : ¬Decoded max [.octal [d], .octal [e]] t := by
  rintro ⟨turns, b, h⟩
  have hrep : repeats octalEscape 2 2 (backslash :: e :: dquote :: t) = 1 := by
    rw [repeats_octal, if_pos he, (repeats_escape (by decide) 1).1]
  have hesc : escape (d :: backslash :: e :: dquote :: t) =
      some (BitVec.ofNat 8 (digitOf d), dquote :: t) := by
    rw [escape, if_pos hd, hrep]
    rfl
  have hv := scan_single (w := [d, backslash, e]) (u := []) hesc (List.forall_mem_nil _)
    (by simpa [literal, Piece.text] using h)
  cases hv

/-! ### Parts of a literal -/

theorem Formed.within {qs : List Piece} (hps : Formed ps) (h : qs <:+: ps) : Formed qs := by
  obtain ⟨as, bs, rfl⟩ := h
  rw [List.append_assoc] at hps
  have hqs : Formed (qs ++ bs) := by
    induction as with
    | nil => exact hps
    | cons a as ih => exact ih hps.2.2
  clear hps
  induction qs with
  | nil => trivial
  | cons q qs ih =>
      obtain ⟨hwf, hends, hrest⟩ := hqs
      refine ⟨hwf, ?_, ih hrest⟩
      cases qs with
      | nil => exact q.endsAt_quote []
      | cons r qs =>
          refine hends.congr ?_
          have hr : r.WF := hrest.1
          have hhead := literal_cons_head hr qs []
          rw [List.append_nil] at hhead
          have hhead' := literal_cons_head hr (qs ++ bs) []
          rw [List.append_nil] at hhead'
          exact hhead.trans hhead'.symm

theorem AllAsInC.within {qs : List Piece} (hC : AllAsInC ps) (h : qs <:+: ps) : AllAsInC qs :=
  ⟨fun p hp => hC.piece p (h.mem hp), hC.apart.infix h⟩

end

/-- Every part of a literal that is a literal of its own is decoded, in a buffer that is big
enough, if and only if every piece is read as in C and no octal escape is after another. -/
theorem allAsInC_iff {ps : List Piece} (hps : Formed ps) (t : List Byte) :
    AllAsInC ps ↔ ∀ qs, qs <:+: ps → ∃ max, Decoded max qs t := by
  constructor
  · intro hC qs hqs
    refine ⟨(qs.map Piece.requested).sum, ?_⟩
    exact (scan_room_iff (b := ⟨[], _⟩) (hps.within hqs) (hC.within hqs)).mpr
      (room_of_sum (by rw [List.length_nil, Nat.zero_add]))
  · intro hall
    induction ps with
    | nil => exact ⟨List.forall_mem_nil _, .nil⟩
    | cons p ps ih =>
        obtain ⟨hwf, -, hrest⟩ := id hps
        have htail := ih hrest fun qs hqs => hall qs (hqs.trans (List.suffix_cons p ps).isInfix)
        have hp : p.AsInC := by
          by_contra hC
          obtain ⟨max, hmax⟩ := hall [p] ⟨[], ps, rfl⟩
          exact not_decoded_piece hwf hC hmax
        refine ⟨List.forall_mem_cons.mpr ⟨hp, htail.piece⟩, ?_⟩
        cases ps with
        | nil => exact .singleton p
        | cons q ps =>
            refine List.isChain_cons_cons.mpr ⟨?_, htail.apart⟩
            rintro ⟨hpo, hqo⟩
            have hq := htail.piece q List.mem_cons_self
            have hwfq := hrest.1
            obtain ⟨max, hmax⟩ := hall [p, q] ⟨[], ps, rfl⟩
            cases p <;> cases hpo
            cases q <;> cases hqo
            obtain ⟨d, rfl⟩ := List.length_eq_one_iff.mp hp
            obtain ⟨e, rfl⟩ := List.length_eq_one_iff.mp hq
            exact not_decoded_pair (hwf.2.1 d List.mem_cons_self) (hwfq.2.1 e List.mem_cons_self)
              hmax

/-- If no escape is read otherwise than in C, the token of a string literal is its C meaning, and no
byte is stored outside the buffer, exactly when no piece passes two sizes of the buffer; and an
escape that is read otherwise is decoded wrongly where it stands alone, or with the one before. -/
theorem string_token_iff (max : Nat) {ps : List Piece} (hps : Formed ps) (t : List Byte) :
    (AllAsInC ps → (Decoded max ps t ↔ OneStep max (ps.map Piece.requested))) ∧
      (AllAsInC ps ↔ ∀ qs, qs <:+: ps → ∃ max, Decoded max qs t) := by
  refine ⟨fun hC => ?_, allAsInC_iff hps t⟩
  rw [← room_iff_oneStep]
  exact scan_room_iff (b := ⟨[], max⟩) hps hC

/-- `"A\7\n"`. -/
theorem string_token_iff_two :
    Formed [.chunk [0x41], .octal [chr '7'], .simple (chr 'n') 0x0a] ∧
      Decoded 0 [.chunk [0x41], .octal [chr '7'], .simple (chr 'n') 0x0a] [] := by
  have hformed : Formed [.chunk [0x41], .octal [chr '7'], .simple (chr 'n') 0x0a] := by
    have hn : (chr 'n', 0x0a) ∈ simpleEscapes := by decide
    refine ⟨⟨by decide, by decide⟩, ?_, ⟨by decide, by decide, by decide⟩, .inr ?_, hn, trivial,
      trivial⟩
    · rintro c ⟨⟩
      rfl
    · rintro c ⟨⟩
      rfl
  have hC : AllAsInC [.chunk [0x41], .octal [chr '7'], .simple (chr 'n') 0x0a] := by
    refine ⟨List.forall_mem_cons.mpr ⟨trivial, List.forall_mem_cons.mpr ⟨rfl,
      List.forall_mem_singleton.mpr ?_⟩⟩, ?_⟩
    · exact (by decide : chr 'n' ≠ chr 'a')
    · simp [Piece.isOctal]
  refine ⟨hformed, ((string_token_iff 0 hformed []).1 hC).mpr ((room_iff_oneStep 0 _).mp ?_)⟩
  simp [Room, Piece.requested, doubled, intMax]

/-- The first string of a file has a chunk of 81 characters, and the buffer 80 bytes. -/
theorem string_overrun :
    Formed [.chunk (List.replicate 81 (chr 'a'))] ∧
      ¬Decoded 0 [.chunk (List.replicate 81 (chr 'a'))] [] := by
  have hplain : ∀ c ∈ List.replicate 81 (chr 'a'), plainChar c = true ∧ dot c = true := by
    intro c hc
    obtain rfl := List.eq_of_mem_replicate hc
    decide
  refine ⟨⟨⟨by decide, hplain⟩, by rintro c ⟨⟩; rfl, trivial⟩, ?_⟩
  rintro ⟨turns, b, h⟩
  cases turns with
  | zero => cases h
  | succ turns =>
      rw [literal, Piece.text, List.append_assoc, scan_chunk turns _ (by decide)
        (fun c hc => (hplain c hc).1) (by rintro c ⟨⟩; rfl)] at h
      have hput : StringBuf.put ⟨[], 0⟩ (List.replicate 81 (chr 'a')) = none := by
        rw [put_eq]
        decide
      rw [hput] at h
      cases h

end Ttools.Ast
