import Ttools.Ast.Rules

/-!
# The scanner ends

What the scanner reads is a sequence of elements: strings, comments, lines that begin with a hash,
character constants and single characters.  A string has to be closed, and a line that is skipped
needs its newline.

* `WellEnded`: the input is such a sequence.
* `scanStep_fits`: a step of the scanner stays inside an element or goes to the next one.
* `scanner_ends_iff`: the end of the file is reached exactly when every element is closed.
-/

namespace Ttools.Ast

open Support Support.Pattern

variable {s t u w : List Byte} {c d : Byte} {bol b : Bool} {n : Nat} {r : Rule}

/-! ### Elements -/

/-- What is after the newline. -/
def afterLine : List Byte → Option (List Byte)
  | [] => none
  | c :: s => if c = newline then some s else afterLine s

/-- What is after the quote that closes a string. -/
def afterString : List Byte → Option (List Byte)
  | [] => none
  | [c] => if c = dquote then some [] else none
  | c :: d :: s =>
      if c = dquote then some (d :: s)
      else if c = backslash then afterString s
      else afterString (d :: s)

/-- What is after the end of a comment. -/
def afterComment : List Byte → Option (List Byte)
  | [] => none
  | c :: s => if c = star ∧ s.head? = some slash then some s.tail else afterComment s

/-- The length of a character constant. -/
def charLength (s : List Byte) : Option Nat := longest (fun w => charPatterns.any (· w)) s

/-- What is after the element that begins with the character, and whether that is at the beginning
of a line; `none` is an element that is not closed.  A comment may be open at the end. -/
def element (bol : Bool) (c : Byte) (s : List Byte) : Option (Bool × List Byte) :=
  if c = dquote then (afterString s).map (false, ·)
  else if c = slash ∧ s.head? = some slash then (afterLine s.tail).map (true, ·)
  else if c = slash ∧ s.head? = some star then some (false, (afterComment s.tail).getD [])
  else if c = hash ∧ bol = true ∧ s ≠ [] ∧ s.head? ≠ some newline then (afterLine s).map (true, ·)
  else
    match charLength (c :: s) with
    | some n => some (false, (c :: s).drop n)
    | none => some (c == newline, s)

/-- The input is a sequence of closed elements. -/
inductive WellEnded : Bool → List Byte → Prop
  | nil (bol : Bool) : WellEnded bol []
  | cons {bol b : Bool} {c : Byte} {s t : List Byte} (h : element bol c s = some (b, t))
      (hrest : WellEnded b t) : WellEnded bol (c :: s)

theorem wellEnded_cons :
    WellEnded bol (c :: s) ↔ ∃ b t, element bol c s = some (b, t) ∧ WellEnded b t := by
  constructor
  · rintro (_ | ⟨h, hrest⟩)
    exact ⟨_, _, h, hrest⟩
  · rintro ⟨b, t, h, hrest⟩
    exact .cons h hrest

theorem wellEnded_of_element (h : element bol c s = some (b, t)) :
    WellEnded bol (c :: s) ↔ WellEnded b t := by
  rw [wellEnded_cons]
  constructor
  · rintro ⟨b', t', h', hrest⟩
    cases h.symm.trans h'
    exact hrest
  · exact fun hrest => ⟨b, t, h, hrest⟩

/-! ### Texts without a beginning of an element -/

/-- The characters that begin no element of more than one character. -/
def calm (c : Byte) : Bool := c != dquote && c != slash && c != hash && c != apostrophe

@[simp] theorem calm_iff :
    calm c = true ↔ ((c ≠ dquote ∧ c ≠ slash) ∧ c ≠ hash) ∧ c ≠ apostrophe := by
  simp [calm]

/-- What begins with a text of a pattern, if there is one at least. -/
theorem times_head {P : Pattern Byte} {lo hi : Nat} (h : times (lo + 1) hi P w = true) :
    ∃ u v, w = u ++ v ∧ P u = true := by
  obtain ⟨us, ⟨hlo, -⟩, hus, rfl⟩ := times_iff.mp h
  obtain ⟨u, us, rfl⟩ := List.exists_cons_of_length_pos (Nat.zero_lt_of_lt hlo)
  exact ⟨u, us.flatten, rfl, hus u List.mem_cons_self⟩

theorem charPattern_head {P : Pattern Byte} (hP : P ∈ charPatterns) (h : P w = true) :
    ∃ v, w = apostrophe :: v := by
  have hseq {t w : List Byte} {Q : Pattern Byte} (h : seq (lit (apostrophe :: t)) Q w = true) :
      ∃ v, w = apostrophe :: v := by
    obtain ⟨a, b, rfl, ha, -⟩ := seq_iff.mp h
    rw [beq_iff_eq.mp ha]
    exact ⟨_, rfl⟩
  have htimes {lo hi : Nat} {t w : List Byte} {Q R : Pattern Byte}
      (h : seq (times (lo + 1) hi (seq (lit (apostrophe :: t)) Q)) R w = true) :
      ∃ v, w = apostrophe :: v := by
    obtain ⟨a, b, rfl, ha, -⟩ := seq_iff.mp h
    obtain ⟨u, v, rfl, hu⟩ := times_head ha
    obtain ⟨v', rfl⟩ := hseq hu
    exact ⟨_, rfl⟩
  simp only [charPatterns, List.mem_cons, List.not_mem_nil, or_false] at hP
  obtain rfl | rfl | rfl | rfl := hP
  · exact htimes h
  · exact htimes h
  · exact hseq h
  · exact hseq h

theorem charLength_ne (h : c ≠ apostrophe) : charLength (c :: s) = none := by
  refine longest_eq_none.mpr fun m hm => Bool.eq_false_iff.mpr fun hany => ?_
  obtain ⟨P, hP, hw⟩ := List.any_eq_true.mp hany
  obtain ⟨v, hv⟩ := charPattern_head hP hw
  cases m with
  | zero => cases hv
  | succ m => exact h (List.cons.inj hv).1

theorem element_calm (h : calm c = true) : element bol c s = some (c == newline, s) := by
  obtain ⟨⟨⟨hq, hs⟩, hh⟩, ha⟩ := calm_iff.mp h
  simp [element, hq, hs, hh, charLength_ne ha]

theorem wellEnded_calm (h : ∀ c ∈ w, calm c = true) (hw : w ≠ []) :
    WellEnded bol (w ++ s) ↔ WellEnded (w.getLast? == some newline) s := by
  induction w generalizing bol with
  | nil => exact absurd rfl hw
  | cons c w ih =>
      obtain ⟨hc, hrest⟩ := List.forall_mem_cons.mp h
      rw [List.cons_append, wellEnded_of_element (element_calm hc)]
      cases w with
      | nil => simp
      | cons d w => rw [ih hrest (by simp), List.getLast?_cons_cons]

/-! ### Inside a line, a string and a comment -/

theorem afterLine_newline : afterLine (newline :: s) = some s := if_pos rfl

theorem afterLine_append (h : newline ∉ u) : afterLine (u ++ s) = afterLine s := by
  induction u with
  | nil => rfl
  | cons c u ih =>
      obtain ⟨hc, hu⟩ := not_or.mp (mt List.mem_cons.mpr h)
      rw [List.cons_append, afterLine, if_neg (Ne.symm hc), ih hu]

theorem afterString_plain (h : plainChar c = true) : afterString (c :: s) = afterString s := by
  obtain ⟨hb, hq⟩ : c ≠ backslash ∧ c ≠ dquote := by simpa [plainChar] using h
  cases s with
  | nil => simp [afterString, hq]
  | cons d s => simp [afterString, hb, hq]

theorem afterString_append (h : ∀ c ∈ u, plainChar c = true) :
    afterString (u ++ s) = afterString s := by
  induction u with
  | nil => rfl
  | cons c u ih =>
      obtain ⟨hc, hu⟩ := List.forall_mem_cons.mp h
      rw [List.cons_append, afterString_plain hc, ih hu]

theorem afterString_escape : afterString (backslash :: d :: s) = afterString s := by
  rw [afterString, if_neg (by decide), if_pos rfl]

theorem afterString_quote : afterString (dquote :: s) = some s := by
  cases s with
  | nil => rfl
  | cons d s => exact if_pos rfl

theorem afterComment_append (h : star ∉ u) : afterComment (u ++ s) = afterComment s := by
  induction u with
  | nil => rfl
  | cons c u ih =>
      obtain ⟨hc, hu⟩ := not_or.mp (mt List.mem_cons.mpr h)
      have hnot : ¬(c = star ∧ (u ++ s).head? = some slash) := fun hcs => hc hcs.1.symm
      rw [List.cons_append, afterComment, if_neg hnot, ih hu]

/-- Asterisks that no slash follows. -/
theorem afterComment_stars (hu : ∀ c ∈ u, isStar c = true) (hs : s.head? ≠ some slash) :
    afterComment (u ++ s) = afterComment s := by
  induction u with
  | nil => rfl
  | cons c u ih =>
      obtain ⟨hc, hu⟩ := List.forall_mem_cons.mp hu
      have hhead : (u ++ s).head? ≠ some slash := by
        cases u with
        | nil => exact hs
        | cons d u =>
            have hd : d = star := by simpa [isStar] using hu d List.mem_cons_self
            rw [List.cons_append, List.head?_cons, hd]
            decide
      rw [List.cons_append, afterComment, if_neg (fun h => hhead h.2), ih hu]

theorem afterComment_end (hu : ∀ c ∈ u, isStar c = true) (hne : u ≠ []) :
    afterComment (u ++ slash :: s) = some s := by
  induction u with
  | nil => exact absurd rfl hne
  | cons c u ih =>
      obtain ⟨hc, hu⟩ := List.forall_mem_cons.mp hu
      have hc : c = star := by simpa [isStar] using hc
      cases u with
      | nil =>
          rw [List.cons_append, afterComment, if_pos ⟨hc, rfl⟩, List.nil_append, List.tail_cons]
      | cons d u =>
          have hd : d = star := by simpa [isStar] using hu d List.mem_cons_self
          have hnot : ¬(c = star ∧ (d :: u ++ slash :: s).head? = some slash) := by
            rw [List.cons_append, List.head?_cons, hd]
            exact fun h => absurd h.2 (by decide)
          rw [List.cons_append, afterComment, if_neg hnot, ih hu (by simp)]

/-! ### The texts of the rules -/

/-- All texts of the pattern are calm. -/
def Calm (P : Pattern Byte) : Prop := ∀ u, P u = true → ∀ c ∈ u, calm c = true

variable {P Q : Pattern Byte} {p : Byte → Bool}

theorem calm_of (h : ∀ x ∈ [dquote, slash, hash, apostrophe], p x = false) (hc : p c = true) :
    calm c = true := by
  rw [calm_iff]
  refine ⟨⟨⟨?_, ?_⟩, ?_⟩, ?_⟩
  all_goals
    rintro rfl
    simp [h] at hc

theorem calm_one (h : ∀ x ∈ [dquote, slash, hash, apostrophe], p x = false) : Calm (one p) := by
  intro u hu
  obtain ⟨c, rfl, hc⟩ := one_iff.mp hu
  simpa using calm_of h hc

theorem calm_many (h : ∀ x ∈ [dquote, slash, hash, apostrophe], p x = false) : Calm (many p) :=
  fun _ hu _ hc => calm_of h (many_iff.mp hu _ hc)

theorem calm_many1 (h : ∀ x ∈ [dquote, slash, hash, apostrophe], p x = false) : Calm (many1 p) :=
  fun _ hu _ hc => calm_of h ((many1_iff.mp hu).2 _ hc)

theorem calm_lit (h : ∀ c ∈ t, calm c = true) : Calm (lit t) := fun _ hu => lit_iff.mp hu ▸ h

theorem calm_seq (hP : Calm P) (hQ : Calm Q) : Calm (seq P Q) := by
  intro w hw c hc
  obtain ⟨u, v, rfl, hu, hv⟩ := seq_iff.mp hw
  exact (List.mem_append.mp hc).elim (hP u hu c) (hQ v hv c)

theorem calm_labelRules (hr : r ∈ labelRules) : Calm r.pattern := by
  simp only [labelRules, List.mem_cons, List.not_mem_nil, or_false] at hr
  obtain rfl | rfl | rfl := hr
  · exact calm_seq (calm_one (by decide))
      (calm_seq (calm_many (by decide)) (calm_lit (by decide)))
  · exact calm_seq (calm_one (by decide)) (calm_lit (by decide))
  · exact calm_seq (calm_one (by decide)) (calm_lit (by decide))

theorem calm_numberRules (hr : r ∈ numberRules) : Calm r.pattern := by
  simp only [numberRules, List.mem_cons, List.not_mem_nil, or_false] at hr
  obtain rfl | rfl | rfl := hr
  · exact calm_seq (calm_lit (by decide))
      (calm_seq (calm_one (by decide)) (calm_many1 (by decide)))
  · exact calm_seq (calm_lit (by decide)) (calm_many1 (by decide))
  · exact calm_many1 (by decide)

theorem calm_newlineRule : Calm newlineRule.pattern :=
  calm_seq (calm_many (by decide)) (calm_seq (calm_lit (by decide)) (calm_many (by decide)))

theorem calm_spaceRule : Calm spaceRule.pattern := calm_many (by decide)

theorem calm_dotWordRule : Calm dotWordRule.pattern :=
  calm_seq (calm_lit (by decide)) (calm_many1 (by decide))

theorem calm_wordRule : Calm wordRule.pattern :=
  calm_seq (calm_one (by decide)) (calm_many (by decide))

/-- Every operator but the slash. -/
theorem calm_operatorRules (hr : r ∈ operatorRules) : r.pattern = lit [slash] ∨ Calm r.pattern := by
  obtain ⟨o, ho, rfl⟩ := List.mem_map.mp hr
  have hops : (operators.all fun o => o.map chr == [slash] || (o.map chr).all calm) = true := by
    decide
  have hop := List.all_eq_true.mp hops o ho
  simp only [Bool.or_eq_true, beq_iff_eq, List.all_eq_true] at hop
  exact hop.imp (fun h => by rw [h]) calm_lit

/-! ### The rule that is taken -/

variable {k : Cond} {a : Action} {x : Scanner}

/-- The rule that is taken at the beginning of `u ++ t`, with the text `u`. -/
structure Taken (k : Cond) (bol : Bool) (u t : List Byte) (r : Rule) : Prop where
  mem : r ∈ rules
  isActive : active k bol r = true
  matched : r.pattern u = true
  nonempty : u ≠ []
  longest : ∀ r' ∈ rules, active k bol r' = true → ∀ u' t', u ++ t = u' ++ t' →
    r'.pattern u' = true → u'.length ≤ u.length
  first : r ∈ properRules ∨ (r = dotRule ∨ r = defaultRule) ∧
    ∀ r' ∈ properRules, active k bol r' = true → ∀ u' t', u ++ t = u' ++ t' →
      r'.pattern u' = true → u'.length < u.length

theorem exists_taken (k : Cond) (bol : Bool) (hs : s ≠ []) :
    ∃ u t r, s = u ++ t ∧ Taken k bol u t r ∧
      best Rule.pattern (rules.filter (active k bol)) s = some (u.length, r) := by
  obtain ⟨c, l, rfl⟩ := List.exists_cons_of_ne_nil hs
  have hdefault : defaultRule ∈ rules.filter (active k bol) := by
    refine List.mem_filter.mpr ⟨by simp [rules], ?_⟩
    cases k <;> cases bol <;> rfl
  obtain ⟨d, hd, hle⟩ := exists_longest (P := defaultRule.pattern) (u := [c]) rfl l
  cases hb : best Rule.pattern (rules.filter (active k bol)) (c :: l) with
  | none =>
      have := best_eq_none.mp hb _ hdefault
      rw [show c :: l = [c] ++ l from rfl, hd] at this
      cases this
  | some p =>
      obtain ⟨n, r⟩ := p
      obtain ⟨hr, hlong, hmax⟩ := best_spec hb
      obtain ⟨hmem, hactive⟩ := List.mem_filter.mp hr
      obtain ⟨u, t, hut, rfl, hu⟩ := longest_split hlong
      have hlongest : ∀ r' ∈ rules, active k bol r' = true → ∀ u' t', u ++ t = u' ++ t' →
          r'.pattern u' = true → u'.length ≤ u.length := by
        intro r' hr' ha' u' t' heq hu'
        obtain ⟨m, hm, hle'⟩ := exists_longest hu' t'
        rw [← heq, ← hut] at hm
        exact hle'.trans (hmax r' (List.mem_filter.mpr ⟨hr', ha'⟩) m hm)
      refine ⟨u, t, r, hut, ⟨hmem, hactive, hu, ?_, hlongest, ?_⟩, rfl⟩
      · rintro rfl
        have := hmax _ hdefault d (by simpa using hd)
        simp at hle this
        omega
      · rw [rules, List.filter_append] at hb
        refine (best_last hb).imp (fun h => List.mem_of_mem_filter h) ?_
        rintro ⟨hlast, hlt⟩
        refine ⟨by simpa using List.mem_of_mem_filter hlast, fun r' hr' ha' u' t' heq hu' => ?_⟩
        obtain ⟨m, hm, hle'⟩ := exists_longest hu' t'
        rw [← heq, ← hut] at hm
        exact hle'.trans_lt (hlt r' (List.mem_filter.mpr ⟨hr', ha'⟩) m hm)

/-- What is left to read is well ended, whatever the scanner is in. -/
def Fits (x : Scanner) : Prop :=
  match x.mode with
  | .scan .initial => WellEnded x.bol x.rest
  | .scan .string => ∃ t, afterString x.rest = some t ∧ WellEnded false t
  | .scan .comment => ∀ t, afterComment x.rest = some t → WellEnded false t
  | .scan .linedir | .skipLine _ => ∃ t, afterLine x.rest = some t ∧ WellEnded true t

/-- What the scanner is after a rule. -/
def after (k : Cond) (u t : List Byte) (r : Rule) (x : Scanner) : Scanner :=
  act k ((u ++ t).take (r.keep.getD u.length)) ((u ++ t).drop (r.keep.getD u.length))
    { x with bol := ((u ++ t).take (r.keep.getD u.length)).getLast? == some newline } r.action

theorem scanStep_scan (hmode : x.mode = .scan k) (hrest : x.rest ≠ []) :
    ∃ u t r, x.rest = u ++ t ∧ Taken k x.bol u t r ∧ scanStep x = .inl (after k u t r x) := by
  obtain ⟨u, t, r, hut, htaken, hbest⟩ := exists_taken k x.bol hrest
  refine ⟨u, t, r, hut, htaken, ?_⟩
  obtain ⟨c, l, hl⟩ := List.exists_cons_of_ne_nil hrest
  obtain ⟨mode, bol, rest, tokens⟩ := x
  obtain rfl : mode = .scan k := hmode
  obtain rfl : rest = c :: l := hl
  rw [after, ← hut]
  -- the end of a file is the only place where the kinds of scanning differ
  cases k <;> simp only [scanStep, hbest]

theorem after_eq (h : r.keep = none) :
    after k u t r x = act k u t { x with bol := u.getLast? == some newline } r.action := by
  rw [after, h, Option.getD_none, List.take_left, List.drop_left]

/-! ### The rules of a start condition -/

/-- The rules of `INITIAL` only, but for the last. -/
def initialRules : List Rule :=
  labelRules ++ numberRules ++ charRules ++ [quoteRule, lineCommentRule, commentRule] ++
    directiveRules ++ [unrecognizedRule, dotWordRule] ++ operatorRules ++ [wordRule]

theorem proper_cases (h : r ∈ properRules) :
    r ∈ initialRules ∨ r ∈ stringRules ∨ r ∈ [newlineRule, spaceRule] ∨ r ∈ commentRules ∨
      r ∈ linedirRules := by
  simp only [properRules, initialRules, List.mem_append, List.mem_cons, List.not_mem_nil,
    or_false] at h ⊢
  tauto

theorem conds_initialRules : ∀ r ∈ initialRules, r.conds = [.initial] := by decide

theorem conds_stringRules : ∀ r ∈ stringRules, r.conds = [.string] := by decide

theorem conds_spaceRules : ∀ r ∈ [newlineRule, spaceRule], r.conds = [.initial, .comment] := by
  decide

theorem conds_commentRules : ∀ r ∈ commentRules, r.conds = [.comment] := by decide

theorem conds_linedirRules : ∀ r ∈ linedirRules, r.conds = [.linedir] := by decide

theorem Taken.mem_conds (h : Taken k bol u t r) : k ∈ r.conds := by
  have hactive := h.isActive
  simp only [active, Bool.and_eq_true, decide_eq_true_eq] at hactive
  exact hactive.1

/-- The rule that flex adds is taken when nothing of the start condition matches. -/
def Unmatched (rs : List Rule) (s : List Byte) : Prop :=
  ∀ r ∈ rs, ∀ u t, s = u ++ t → r.pattern u = true → u = []

theorem unmatched_of {rs : List Rule} (hproper : ∀ r ∈ rs, r ∈ properRules)
    (hactive : ∀ r ∈ rs, active k false r = true)
    (h : ∀ r' ∈ properRules, active k bol r' = true → ∀ u' t', [c] ++ t = u' ++ t' →
      r'.pattern u' = true → u'.length < [c].length) : Unmatched rs (c :: t) := by
  intro r hr u' t' heq hu'
  have hr' : active k bol r = true := by
    have := hactive r hr
    simp only [active, Bool.false_or, Bool.and_eq_true] at this ⊢
    exact ⟨this.1, by rw [this.2, Bool.or_true]⟩
  have hlt := h r (hproper r hr) hr' u' t' heq hu'
  exact List.eq_nil_of_length_eq_zero (by simpa using hlt)

theorem default_text (h : Taken k bol u t r) (hr : r = dotRule ∨ r = defaultRule) :
    ∃ c, u = [c] := by
  have hu := h.matched
  obtain rfl | rfl := hr
  · obtain ⟨c, hc, -⟩ := one_iff.mp hu
    exact ⟨c, hc⟩
  · obtain ⟨c, hc, -⟩ := one_iff.mp hu
    exact ⟨c, hc⟩

theorem Taken.string_rules (h : Taken .string bol u t r) :
    r ∈ stringRules ∨ r = defaultRule ∧ ∃ c, u = [c] ∧ Unmatched stringRules (c :: t) := by
  have hconds := h.mem_conds
  obtain hr | ⟨hlast, hfirst⟩ := h.first
  · obtain hr | hr | hr | hr | hr := proper_cases hr
    · simp [conds_initialRules r hr] at hconds
    · exact .inl hr
    · simp [conds_spaceRules r hr] at hconds
    · simp [conds_commentRules r hr] at hconds
    · simp [conds_linedirRules r hr] at hconds
  · obtain ⟨c, rfl⟩ := default_text h hlast
    obtain rfl | rfl := hlast
    · exact absurd hconds (by decide)
    · refine .inr ⟨rfl, c, rfl, unmatched_of (fun r hr => ?_) (by decide) hfirst⟩
      simp only [properRules, List.mem_append]
      tauto

theorem Taken.comment_rules (h : Taken .comment bol u t r) :
    r ∈ [newlineRule, spaceRule] ∨ r ∈ commentRules ∨
      r = defaultRule ∧ ∃ c, u = [c] ∧ Unmatched commentRules (c :: t) := by
  have hconds := h.mem_conds
  obtain hr | ⟨hlast, hfirst⟩ := h.first
  · obtain hr | hr | hr | hr | hr := proper_cases hr
    · simp [conds_initialRules r hr] at hconds
    · simp [conds_stringRules r hr] at hconds
    · exact .inl hr
    · exact .inr (.inl hr)
    · simp [conds_linedirRules r hr] at hconds
  · obtain ⟨c, rfl⟩ := default_text h hlast
    obtain rfl | rfl := hlast
    · exact absurd hconds (by decide)
    · refine .inr (.inr ⟨rfl, c, rfl, unmatched_of (fun r hr => ?_) (by decide) hfirst⟩)
      simp only [properRules, List.mem_append]
      tauto

theorem Taken.linedir_rules (h : Taken .linedir bol u t r) :
    r ∈ linedirRules ∨ r = defaultRule ∧ ∃ c, u = [c] ∧ Unmatched linedirRules (c :: t) := by
  have hconds := h.mem_conds
  obtain hr | ⟨hlast, hfirst⟩ := h.first
  · obtain hr | hr | hr | hr | hr := proper_cases hr
    · simp [conds_initialRules r hr] at hconds
    · simp [conds_stringRules r hr] at hconds
    · simp [conds_spaceRules r hr] at hconds
    · simp [conds_commentRules r hr] at hconds
    · exact .inl hr
  · obtain ⟨c, rfl⟩ := default_text h hlast
    obtain rfl | rfl := hlast
    · exact absurd hconds (by decide)
    · refine .inr ⟨rfl, c, rfl, unmatched_of (fun r hr => ?_) (by decide) hfirst⟩
      simp only [properRules, List.mem_append]
      tauto

/-! ### Inside a string, a comment and a line directive -/

theorem plain_of (h : ∀ x ∈ [backslash, dquote], p x = false) (hc : p c = true) :
    plainChar c = true := by
  simp only [plainChar, Bool.and_eq_true, bne_iff_ne]
  constructor
  all_goals
    rintro rfl
    simp [h] at hc

/-- Escapes one after the other. -/
theorem afterString_times {P : Pattern Byte} {lo hi : Nat}
    (hP : ∀ v, P v = true → ∀ t, afterString (v ++ t) = afterString t)
    (h : times lo hi P u = true) : afterString (u ++ t) = afterString t := by
  obtain ⟨us, -, hus, rfl⟩ := times_iff.mp h
  clear h
  induction us with
  | nil => rfl
  | cons v us ih =>
      obtain ⟨hv, hus⟩ := List.forall_mem_cons.mp hus
      rw [List.flatten_cons, List.append_assoc, hP v hv]
      exact ih hus

theorem fits_string (h : Taken .string bol u t r) (x : Scanner) :
    Fits (after .string u t r x) ↔ ∃ s, afterString (u ++ t) = some s ∧ WellEnded false s := by
  have hu := h.matched
  obtain hr | ⟨rfl, c, rfl, hnone⟩ := h.string_rules
  · simp only [stringRules, List.mem_cons, List.not_mem_nil, or_false] at hr
    obtain rfl | rfl | rfl | rfl | rfl := hr
    · obtain rfl := lit_iff.mp hu
      rw [after_eq rfl, List.singleton_append, afterString_quote]
      simp only [Fits, act, Option.some.injEq, exists_eq_left']
      rfl
    · rw [after_eq rfl, afterString_append (many1_iff.mp hu).2]
      rfl
    · rw [after_eq rfl, afterString_times (fun v hv t => ?_) hu]
      · rfl
      · obtain ⟨d, rfl, -⟩ := octalEscape_iff.mp hv
        exact afterString_escape
    · rw [after_eq rfl, afterString_times (fun v hv t => ?_) hu]
      · rfl
      · obtain ⟨x, d, rfl, -, hd⟩ := hexEscape_iff.mp hv
        have hplain : plainChar d = true := plain_of (by decide) hd
        exact afterString_escape.trans (afterString_plain hplain)
    · obtain ⟨v, w, rfl, hv, hw⟩ := seq_iff.mp hu
      obtain rfl := lit_iff.mp hv
      obtain ⟨d, rfl, -⟩ := one_iff.mp hw
      have hskip : afterString ([backslash] ++ [d] ++ t) = afterString t := afterString_escape
      rw [after_eq rfl, hskip]
      rfl
  · -- only a backslash before a newline or at the end of the file is left
    have hplain : plainChar c = false := by
      refine Bool.eq_false_iff.mpr fun hc => ?_
      have hmem : ⟨[.string], many1 plainChar, .eat, none, false⟩ ∈ stringRules := .tail _ (.head _)
      have hmany : many1 plainChar [c] = true := many1_iff.mpr ⟨by simp, by simpa using hc⟩
      have hnil := hnone _ hmem [c] t rfl hmany
      cases hnil
    have hq : c ≠ dquote := by
      rintro rfl
      have hnil := hnone _ List.mem_cons_self [dquote] t rfl rfl
      cases hnil
    obtain rfl : c = backslash := by simpa [plainChar, hq] using hplain
    have hskip : afterString (backslash :: t) = afterString t := by
      cases t with
      | nil => rfl
      | cons d t =>
          have hd : d = newline := by
            by_contra hd
            have hmem : ⟨[.string], seq (lit [backslash]) (one dot), .eat, none, false⟩ ∈
                stringRules := .tail _ (.tail _ (.tail _ (.tail _ (.head _))))
            have hdot : one dot [d] = true := one_iff.mpr ⟨d, rfl, by simpa [dot] using hd⟩
            have hnil := hnone _ hmem [backslash, d] t rfl
              (seq_iff.mpr ⟨[backslash], [d], rfl, rfl, hdot⟩)
            cases hnil
          rw [afterString_escape, hd, afterString_plain (by decide)]
    rw [after_eq rfl, List.singleton_append, hskip]
    rfl

theorem fits_comment (h : Taken .comment bol u t r) (x : Scanner) :
    Fits (after .comment u t r x) ↔ ∀ s, afterComment (u ++ t) = some s → WellEnded false s := by
  have hu := h.matched
  have heat : ∀ {u : List Byte}, star ∉ u →
      afterComment (u ++ t) = afterComment t := fun h => afterComment_append h
  obtain hr | hr | ⟨rfl, c, rfl, hnone⟩ := h.comment_rules
  · have hstar : star ∉ u := by
      simp only [List.mem_cons, List.not_mem_nil, or_false] at hr
      obtain rfl | rfl := hr
      · obtain ⟨v, w, rfl, hv, hw⟩ := seq_iff.mp hu
        obtain ⟨w₁, w₂, rfl, hw₁, hw₂⟩ := seq_iff.mp hw
        obtain rfl := lit_iff.mp hw₁
        intro hmem
        simp only [List.mem_append, List.mem_cons, List.not_mem_nil, or_false] at hmem
        obtain hm | hm | hm := hmem
        · exact absurd (many_iff.mp hv _ hm) (by decide)
        · exact absurd hm (by decide)
        · exact absurd (many_iff.mp hw₂ _ hm) (by decide)
      · exact fun hm => absurd (many_iff.mp hu _ hm) (by decide)
    have hafter : after .comment u t r x =
        { x with mode := .scan .comment, bol := u.getLast? == some newline, rest := t } := by
      simp only [List.mem_cons, List.not_mem_nil, or_false] at hr
      obtain rfl | rfl := hr
      · rw [after_eq rfl]
        rfl
      · rw [after_eq rfl]
        rfl
    rw [hafter, heat hstar]
    rfl
  · simp only [commentRules, List.mem_cons, List.not_mem_nil, or_false] at hr
    obtain rfl | rfl | rfl := hr
    · rw [after_eq rfl, heat fun hm => absurd (many_iff.mp hu _ hm) (by decide)]
      rfl
    · obtain ⟨v, w, rfl, hv, hw⟩ := seq_iff.mp hu
      obtain ⟨hne, hstars⟩ := many1_iff.mp hv
      have hhead : (w ++ t).head? ≠ some slash := by
        cases w with
        | nil =>
            -- a slash would have been taken with the asterisks
            intro hhead
            obtain ⟨t, rfl⟩ : ∃ t', t = slash :: t' := by
              cases t with
              | nil => cases hhead
              | cons d t => exact ⟨t, by simpa using hhead⟩
            have hmem :
                ⟨[.comment], seq (many1 isStar) (lit [slash]), .begin .initial, none, false⟩ ∈
                  rules := by
              simp only [rules, properRules, List.mem_append]
              simp [commentRules]
            have hlong := h.longest _ hmem (by cases bol <;> rfl) (v ++ [slash]) t (by simp)
              (seq_iff.mpr ⟨v, [slash], rfl, hv, rfl⟩)
            simp at hlong
        | cons d w =>
            have hd := many_iff.mp hw d List.mem_cons_self
            rw [List.cons_append, List.head?_cons]
            rintro ⟨rfl⟩
            exact absurd hd (by decide)
      have hw' : star ∉ w := fun hm => absurd (many_iff.mp hw _ hm) (by decide)
      rw [after_eq rfl, List.append_assoc, afterComment_stars hstars hhead, heat hw']
      rfl
    · obtain ⟨v, w, rfl, hv, hw⟩ := seq_iff.mp hu
      obtain ⟨hne, hstars⟩ := many1_iff.mp hv
      obtain rfl := lit_iff.mp hw
      rw [after_eq rfl, List.append_assoc, List.singleton_append, afterComment_end hstars hne]
      simp [Fits, act, show (slash == newline) = false from rfl]
  · have hc : star ∉ [c] := by
      intro hm
      obtain rfl := List.mem_singleton.mp hm
      have hmem : ⟨[.comment], seq (many1 isStar) (many notStarSlash), .eat, none, false⟩ ∈
          commentRules := .tail _ (.head _)
      have hnil := hnone _ hmem [star] t rfl (seq_iff.mpr ⟨[star], [], rfl, rfl, rfl⟩)
      cases hnil
    rw [after_eq rfl, heat hc]
    rfl

theorem fits_linedir (h : Taken .linedir bol u t r) (x : Scanner) (hline : newline ∈ u ++ t) :
    (Fits (after .linedir u t r x) ↔ ∃ s, afterLine (u ++ t) = some s ∧ WellEnded true s) ∧
      ((after .linedir u t r x).mode = .scan .linedir →
        newline ∈ (after .linedir u t r x).rest) := by
  have hu := h.matched
  have heat : newline ∉ u → afterLine (u ++ t) = afterLine t := fun h => afterLine_append h
  have hrest : newline ∉ u → newline ∈ t := fun hnot =>
    (List.mem_append.mp hline).resolve_left hnot
  obtain hr | ⟨rfl, c, rfl, hnone⟩ := h.linedir_rules
  · simp only [linedirRules, List.mem_cons, List.not_mem_nil, or_false] at hr
    obtain rfl | rfl | rfl | rfl | rfl := hr
    · have hnot : newline ∉ u := fun hm => absurd (many_iff.mp hu _ hm) (by decide)
      rw [after_eq rfl, heat hnot]
      exact ⟨Iff.rfl, fun _ => hrest hnot⟩
    · have hnot : newline ∉ u := by
        rw [lit_iff.mp hu]
        decide
      rw [after_eq rfl, heat hnot]
      exact ⟨Iff.rfl, fun _ => hrest hnot⟩
    · have hnot : newline ∉ u := by
        obtain ⟨v, w, rfl, hv, hw⟩ := seq_iff.mp hu
        intro hm
        obtain hm | hm := List.mem_append.mp hm
        · exact absurd ((many1_iff.mp hv).2 _ hm) (by decide)
        · exact absurd ((many1_iff.mp hw).2 _ hm) (by decide)
      rw [after_eq rfl, heat hnot]
      exact ⟨Iff.rfl, fun _ => hrest hnot⟩
    · obtain ⟨v, w, rfl, hv, hw⟩ := seq_iff.mp hu
      obtain rfl := lit_iff.mp hw
      have hnot : newline ∉ v := fun hm => absurd (many_iff.mp hv _ hm) (by decide)
      rw [after_eq rfl, List.append_assoc, List.singleton_append, afterLine_append hnot,
        afterLine_newline]
      simp [Fits, act]
    · have hnot : newline ∉ u := by
        obtain ⟨v, w, rfl, hv, hw⟩ := seq_iff.mp hu
        obtain ⟨w₁, w₂, rfl, hw₁, hw₂⟩ := seq_iff.mp hw
        rw [lit_iff.mp hv, lit_iff.mp hw₂]
        intro hm
        simp only [List.mem_append, List.mem_cons, List.not_mem_nil, or_false] at hm
        obtain hm | hm | hm := hm
        · exact absurd hm (by decide)
        · exact absurd ((many1_iff.mp hw₁).2 _ hm) (by decide)
        · exact absurd hm (by decide)
      rw [after_eq rfl, heat hnot]
      exact ⟨Iff.rfl, by simp [act]⟩
  · have hnot : newline ∉ [c] := by
      intro hm
      obtain rfl := List.mem_singleton.mp hm
      have hmem : ⟨[.linedir], seq (many isCr) (lit [newline]), .begin .initial, none, false⟩ ∈
          linedirRules := .tail _ (.tail _ (.tail _ (.head _)))
      have hnil := hnone _ hmem [newline] t rfl (seq_iff.mpr ⟨[], [newline], rfl, rfl, rfl⟩)
      cases hnil
    rw [after_eq rfl, heat hnot]
    exact ⟨Iff.rfl, fun _ => hrest hnot⟩

/-! ### Between the elements -/

theorem fits_calm {v : List Byte} (h : after .initial u t r x = act .initial w v
      { x with bol := w.getLast? == some newline } a) (hut : u ++ t = w ++ v)
    (hcalm : ∀ c ∈ w, calm c = true) (hw : w ≠ []) (ha : a = .eat ∨ ∃ t, a = .token t) :
    Fits (after .initial u t r x) ↔ WellEnded bol (u ++ t) := by
  rw [h, hut, wellEnded_calm hcalm hw]
  obtain rfl | ⟨t, rfl⟩ := ha
  · rfl
  · rfl

theorem Taken.initial_rules (h : Taken .initial bol u t r) :
    r ∈ initialRules ∨ r ∈ [newlineRule, spaceRule] ∨ r.keep = none ∧ r.action = .eat ∧
      ∃ c, u = [c] ∧ Unmatched ([quoteRule, newlineRule] ++ operatorRules) (c :: t) := by
  have hconds := h.mem_conds
  obtain hr | ⟨hlast, hfirst⟩ := h.first
  · obtain hr | hr | hr | hr | hr := proper_cases hr
    · exact .inl hr
    · simp [conds_stringRules r hr] at hconds
    · exact .inr (.inl hr)
    · simp [conds_commentRules r hr] at hconds
    · simp [conds_linedirRules r hr] at hconds
  · obtain ⟨c, rfl⟩ := default_text h hlast
    have heat : r.keep = none ∧ r.action = .eat := by obtain rfl | rfl := hlast <;> exact ⟨rfl, rfl⟩
    refine .inr (.inr ⟨heat.1, heat.2, c, rfl, unmatched_of (fun r hr => ?_) (by decide) hfirst⟩)
    simp only [properRules, List.mem_append, List.mem_cons, List.not_mem_nil, or_false] at hr ⊢
    tauto

theorem newline_mem_directive (hP : P ∈ directivePatterns) (h : P u = true) : newline ∈ u := by
  have hseq : ∀ {P Q : Pattern Byte}, (∀ u, Q u = true → newline ∈ u) →
      ∀ u, seq P Q u = true → newline ∈ u := by
    intro P Q hQ u hu
    obtain ⟨v, w, rfl, -, hw⟩ := seq_iff.mp hu
    exact List.mem_append_right v (hQ w hw)
  have hlit : ∀ u, lit [newline] u = true → newline ∈ u := by
    intro u hu
    rw [lit_iff.mp hu]
    exact List.mem_cons_self
  simp only [directivePatterns, List.mem_cons, List.not_mem_nil, or_false] at hP
  obtain rfl | rfl | rfl | rfl | rfl := hP
  · exact hseq (hseq (hseq (hseq (hseq (hseq (hseq hlit)))))) u h
  · exact hseq (hseq (hseq (hseq (hseq hlit)))) u h
  · exact hseq (hseq (hseq (hseq (hseq (hseq (hseq hlit)))))) u h
  · exact hseq (hseq (hseq (hseq (hseq hlit)))) u h
  · exact hseq (hseq (hseq hlit)) u h

theorem head_directive (hP : P ∈ directivePatterns) (h : P u = true) :
    u.head? ≠ some newline := by
  have hblanks : ∀ {Q : Pattern Byte}, (∀ u, Q u = true → u.head? ≠ some newline) →
      ∀ u, seq (many blank) Q u = true → u.head? ≠ some newline := by
    intro Q hQ u hu
    obtain ⟨v, w, rfl, hv, hw⟩ := seq_iff.mp hu
    cases v with
    | nil => exact hQ w hw
    | cons c v =>
        rintro ⟨rfl⟩
        exact absurd (many_iff.mp hv newline List.mem_cons_self) (by decide)
  have hline : ∀ {Q : Pattern Byte} u,
      seq (lit [chr 'l', chr 'i', chr 'n', chr 'e']) Q u = true → u.head? ≠ some newline := by
    intro Q u hu
    obtain ⟨v, w, rfl, hv, -⟩ := seq_iff.mp hu
    rw [lit_iff.mp hv, List.cons_append, List.head?_cons]
    decide
  have hnumber : ∀ {Q : Pattern Byte} u,
      seq (many1 digit) Q u = true → u.head? ≠ some newline := by
    intro Q u hu
    obtain ⟨v, w, rfl, hv, -⟩ := seq_iff.mp hu
    obtain ⟨hne, hdigits⟩ := many1_iff.mp hv
    cases v with
    | nil => exact absurd rfl hne
    | cons c v =>
        rintro ⟨rfl⟩
        exact absurd (hdigits newline List.mem_cons_self) (by decide)
  simp only [directivePatterns, List.mem_cons, List.not_mem_nil, or_false] at hP
  obtain rfl | rfl | rfl | rfl | rfl := hP
  · exact hblanks hline u h
  · exact hblanks hline u h
  · exact hblanks hnumber u h
  · exact hblanks hnumber u h
  · exact hblanks hnumber u h

theorem charPattern_last (hP : P ∈ charPatterns) (h : P u = true) :
    u.getLast? = some apostrophe := by
  have hseq : ∀ {P Q : Pattern Byte}, (∀ u, Q u = true → u.getLast? = some apostrophe) →
      ∀ u, seq P Q u = true → u.getLast? = some apostrophe := by
    intro P Q hQ u hu
    obtain ⟨v, w, rfl, -, hw⟩ := seq_iff.mp hu
    rw [List.getLast?_append, hQ w hw, Option.some_or]
  have hlit : ∀ u, lit [apostrophe] u = true → u.getLast? = some apostrophe := by
    intro u hu
    rw [lit_iff.mp hu]
    rfl
  simp only [charPatterns, List.mem_cons, List.not_mem_nil, or_false] at hP
  obtain rfl | rfl | rfl | rfl := hP
  · exact hseq hlit u h
  · exact hseq hlit u h
  · exact hseq (hseq hlit) u h
  · exact hseq (hseq hlit) u h

/-- A rule that returns a calm text, or eats it. -/
theorem fits_calmRule (h : Taken .initial bol u t r) (x : Scanner) (hcalm : Calm r.pattern)
    (hkeep : r.keep = none) (ha : r.action = .eat ∨ ∃ t, r.action = .token t) :
    Fits (after .initial u t r x) ↔ WellEnded bol (u ++ t) :=
  fits_calm (after_eq hkeep) rfl (hcalm u h.matched) h.nonempty ha

theorem fits_label (h : Taken .initial bol u t r) (x : Scanner) (hr : r ∈ labelRules) :
    Fits (after .initial u t r x) ↔ WellEnded bol (u ++ t) := by
  have hcalm := calm_labelRules hr
  simp only [labelRules, List.mem_cons, List.not_mem_nil, or_false] at hr
  obtain rfl | rfl | rfl := hr
  · -- only the digit is read: what comes before the colon is read again
    obtain ⟨v, w, rfl, hv, hw⟩ := seq_iff.mp h.matched
    obtain ⟨c, rfl, -⟩ := one_iff.mp hv
    exact fits_calm (w := [c]) (v := w ++ t) rfl rfl
      (fun d hd => hcalm _ h.matched d (List.mem_append_left _ hd)) (by simp) (.inr ⟨_, rfl⟩)
  · exact fits_calmRule h x hcalm rfl (.inr ⟨_, rfl⟩)
  · exact fits_calmRule h x hcalm rfl (.inr ⟨_, rfl⟩)

theorem fits_number (h : Taken .initial bol u t r) (x : Scanner) (hr : r ∈ numberRules) :
    Fits (after .initial u t r x) ↔ WellEnded bol (u ++ t) := by
  have hcalm := calm_numberRules hr
  simp only [numberRules, List.mem_cons, List.not_mem_nil, or_false] at hr
  obtain rfl | rfl | rfl := hr
  · exact fits_calmRule h x hcalm rfl (.inr ⟨_, rfl⟩)
  · exact fits_calmRule h x hcalm rfl (.inr ⟨_, rfl⟩)
  · exact fits_calmRule h x hcalm rfl (.inr ⟨_, rfl⟩)

theorem charPattern_length (hP : P ∈ charPatterns) (h : P u = true) : 2 ≤ u.length := by
  obtain ⟨v, rfl⟩ := charPattern_head hP h
  cases v with
  | nil =>
      simp only [charPatterns, List.mem_cons, List.not_mem_nil, or_false] at hP
      obtain rfl | rfl | rfl | rfl := hP <;> cases h
  | cons c v => simp

theorem charRule_mem (hP : P ∈ charPatterns) :
    ⟨[.initial], P, .token .number, none, false⟩ ∈ rules := by
  have hmem : ⟨[.initial], P, .token .number, none, false⟩ ∈ charRules :=
    List.mem_map.mpr ⟨P, hP, rfl⟩
  simp only [rules, properRules, List.mem_append]
  tauto

theorem fits_char (h : Taken .initial bol u t r) (x : Scanner) (hr : r ∈ charRules) :
    Fits (after .initial u t r x) ↔ WellEnded bol (u ++ t) := by
  have hlen : charLength (u ++ t) = some u.length := by
    obtain ⟨P, hP, rfl⟩ := List.mem_map.mp hr
    refine longest_eq_some.mpr ⟨by simp, ?_, fun m hm hany => ?_⟩
    · rw [List.take_left]
      exact List.any_eq_true.mpr ⟨P, hP, h.matched⟩
    · obtain ⟨P', hP', hw⟩ := List.any_eq_true.mp hany
      have hle := h.longest _ (charRule_mem hP') (by cases bol <;> rfl) ((u ++ t).take m) ((u ++ t).drop m)
        (List.take_append_drop m _).symm hw
      rwa [List.length_take_of_le hm] at hle
  obtain ⟨P, hP, rfl⟩ := List.mem_map.mp hr
  obtain ⟨v, rfl⟩ := charPattern_head hP h.matched
  have hlast : ((apostrophe :: v).getLast? == some newline) = false := by
    rw [charPattern_last hP h.matched]
    rfl
  have helement : element bol apostrophe (v ++ t) = some (false, t) := by
    rw [List.cons_append] at hlen
    have hdrop : (apostrophe :: (v ++ t)).drop (apostrophe :: v).length = t := by
      rw [← List.cons_append, List.drop_left]
    simp only [element, hlen, hdrop]
    rfl
  rw [after_eq rfl, hlast, List.cons_append, wellEnded_of_element helement]
  rfl

theorem fits_operator (h : Taken .initial bol u t r) (x : Scanner) (hr : r ∈ operatorRules) :
    Fits (after .initial u t r x) ↔ WellEnded bol (u ++ t) := by
  have hform : r.keep = none ∧ ∃ t, r.action = .token t := by
    obtain ⟨o, ho, rfl⟩ := List.mem_map.mp hr
    exact ⟨rfl, _, rfl⟩
  obtain hslash | hcalm := calm_operatorRules hr
  · have hu := h.matched
    rw [hslash] at hu
    obtain rfl := lit_iff.mp hu
    -- a second slash or an asterisk would have been taken with the first
    have hnot : ∀ {d}, t.head? = some d → ∀ {r' : Rule}, r' ∈ rules →
        active .initial bol r' = true → r'.pattern [slash, d] = false := by
      intro d hd r' hr' ha'
      refine Bool.eq_false_iff.mpr fun hmatch => ?_
      obtain ⟨t', rfl⟩ : ∃ t', t = d :: t' := by
        cases t with
        | nil => cases hd
        | cons e t => exact ⟨t, by simpa using hd⟩
      have hle := h.longest r' hr' ha' [slash, d] t' rfl hmatch
      simp at hle
    have hslash₂ : t.head? ≠ some slash := fun hd => by
      have hrule : lineCommentRule ∈ rules := by simp [rules, properRules]
      have hfalse := hnot hd hrule (by cases bol <;> rfl)
      cases hfalse
    have hstar₂ : t.head? ≠ some star := fun hd => by
      have hrule : commentRule ∈ rules := by simp [rules, properRules]
      have hfalse := hnot hd hrule (by cases bol <;> rfl)
      cases hfalse
    have helement : element bol slash t = some (false, t) := by
      have hlen : charLength (slash :: t) = none := charLength_ne (by decide)
      have hd : slash ≠ dquote := by decide
      have hh : slash ≠ hash := by decide
      simp only [element, hd, hh, hslash₂, hstar₂, hlen, if_false, and_false, false_and]
      rfl
    rw [after_eq hform.1, List.singleton_append, wellEnded_of_element helement]
    obtain ⟨-, tok, htok⟩ := hform
    rw [htok]
    rfl
  · exact fits_calmRule h x hcalm hform.1 (.inr hform.2)

theorem directive_spec (h : Taken .initial bol u t r) (x : Scanner) (hr : r ∈ directiveRules) :
    (Fits (after .initial u t r x) ↔ WellEnded bol (u ++ t)) ∧
      newline ∈ (after .initial u t r x).rest := by
  have hbol := h.isActive
  obtain ⟨P, hP, rfl⟩ := List.mem_map.mp hr
  obtain rfl : bol = true := by simpa [active] using hbol
  obtain ⟨v, w, rfl, hv, hw⟩ := seq_iff.mp h.matched
  obtain rfl := lit_iff.mp hv
  have hline := newline_mem_directive hP hw
  have hne : w ++ t ≠ [] := by
    rintro hnil
    rw [(List.append_eq_nil_iff.mp hnil).1] at hline
    cases hline
  have hhead : (w ++ t).head? ≠ some newline := by
    cases w with
    | nil => cases hline
    | cons c w => simpa using head_directive hP hw
  refine ⟨?_, List.mem_append_left t hline⟩
  have hfits : Fits (after .initial ([hash] ++ w) t
      ⟨[.initial], seq (lit [hash]) P, .begin .linedir, some 1, true⟩ x) ↔
      ∃ s, afterLine (w ++ t) = some s ∧ WellEnded true s := Iff.rfl
  have helement : element true hash (w ++ t) = (afterLine (w ++ t)).map (true, ·) := by
    have h₁ : hash ≠ dquote := by decide
    have h₂ : hash ≠ slash := by decide
    rw [element, if_neg h₁, if_neg (fun h => h₂ h.1), if_neg (fun h => h₂ h.1),
      if_pos ⟨rfl, rfl, hne, hhead⟩]
  rw [hfits, List.append_assoc, List.singleton_append, wellEnded_cons, helement]
  simp

theorem fits_special (h : Taken .initial bol u t r) (x : Scanner)
    (hr : r ∈ [quoteRule, lineCommentRule, commentRule, unrecognizedRule]) :
    Fits (after .initial u t r x) ↔ WellEnded bol (u ++ t) := by
  have hu := h.matched
  have hq₁ : slash ≠ dquote := by decide
  have hq₂ : star ≠ slash := by decide
  simp only [List.mem_cons, List.not_mem_nil, or_false] at hr
  obtain rfl | rfl | rfl | rfl := hr
  · obtain rfl := lit_iff.mp hu
    rw [after_eq rfl, List.singleton_append, wellEnded_cons]
    simp [element, Fits, act, quoteRule]
  · obtain ⟨v, w, rfl, hv, hw⟩ := seq_iff.mp hu
    obtain rfl := lit_iff.mp hv
    have hnot : newline ∉ w := fun hm => absurd (many_iff.mp hw _ hm) (by decide)
    rw [after_eq rfl]
    change _ ↔ WellEnded bol (slash :: slash :: (w ++ t))
    rw [wellEnded_cons]
    simp [element, Fits, act, lineCommentRule, hq₁, afterLine_append hnot]
  · obtain rfl := lit_iff.mp hu
    rw [after_eq rfl, List.cons_append, wellEnded_cons]
    simp only [element, Fits, act, commentRule, hq₁, hq₂, List.singleton_append, List.head?_cons,
      Option.some.injEq, and_false, if_false, and_self, if_true, List.tail_cons]
    cases hc : afterComment t with
    | none => simp [WellEnded.nil]
    | some s => simp
  · have hbol := h.isActive
    obtain rfl : bol = true := by simpa [active, unrecognizedRule] using hbol
    obtain ⟨v, w, rfl, hv, hw⟩ := seq_iff.mp hu
    obtain rfl := lit_iff.mp hv
    obtain ⟨c, rfl, hc⟩ := one_iff.mp hw
    have hc : c ≠ newline := by simpa [dot] using hc
    have h₁ : hash ≠ dquote := by decide
    have h₂ : hash ≠ slash := by decide
    have hline : afterLine (c :: t) = afterLine t := if_neg hc
    rw [after_eq rfl]
    change _ ↔ WellEnded true (hash :: c :: t)
    rw [wellEnded_cons]
    simp [element, Fits, act, unrecognizedRule, h₁, h₂, hc, hline]

/-- A character that nothing else matches begins no element of more than one. -/
theorem fits_single (h : Taken .initial bol [c] t r) (x : Scanner) (hkeep : r.keep = none)
    (ha : r.action = .eat)
    (hnone : Unmatched ([quoteRule, newlineRule] ++ operatorRules) (c :: t)) :
    Fits (after .initial [c] t r x) ↔ WellEnded bol ([c] ++ t) := by
  have hquote : c ≠ dquote := by
    rintro rfl
    have hnil := hnone quoteRule (by simp) [dquote] t rfl rfl
    cases hnil
  have hslash : c ≠ slash := by
    rintro rfl
    have hmem : ⟨[.initial], lit [slash], .token .op, none, false⟩ ∈ operatorRules :=
      List.mem_map.mpr ⟨['/'], by decide, rfl⟩
    have hnil := hnone _ (List.mem_append_right _ hmem) [slash] t rfl rfl
    cases hnil
  have hhash : ¬(c = hash ∧ bol = true ∧ t ≠ [] ∧ t.head? ≠ some newline) := by
    rintro ⟨rfl, rfl, hne, hhead⟩
    obtain ⟨d, t, rfl⟩ := List.exists_cons_of_ne_nil hne
    have hdot : one dot [d] = true := one_iff.mpr ⟨d, rfl, by simpa [dot] using hhead⟩
    have hle := h.longest unrecognizedRule (by simp [rules, properRules]) rfl [hash, d] t rfl
      (seq_iff.mpr ⟨[hash], [d], rfl, rfl, hdot⟩)
    simp at hle
  have hchar : charLength (c :: t) = none := by
    refine longest_eq_none.mpr fun m hm => Bool.eq_false_iff.mpr fun hany => ?_
    obtain ⟨P, hP, hw⟩ := List.any_eq_true.mp hany
    have hle := h.longest _ (charRule_mem hP) (by cases bol <;> rfl) ((c :: t).take m)
      ((c :: t).drop m) (List.take_append_drop m _).symm hw
    exact absurd (hle.trans_lt (Nat.lt_succ_self 1)) (not_lt.mpr (charPattern_length hP hw))
  have helement : element bol c t = some (c == newline, t) := by
    simp only [element, hquote, hslash, hhash, hchar, if_false, false_and]
  rw [after_eq hkeep, ha, List.singleton_append, wellEnded_of_element helement]
  simp [Fits, act]

/-- Only a line directive goes to `LINEDIR`. -/
theorem Taken.action_ne (h : Taken k bol u t r) (hr : r ∉ directiveRules) :
    r.action ≠ .begin .linedir := by
  have hothers : ∀ r ∈ labelRules ++ numberRules ++ charRules ++
      [quoteRule, lineCommentRule, commentRule] ++ [unrecognizedRule, dotWordRule] ++
      operatorRules ++ [wordRule] ++ stringRules ++ [newlineRule, spaceRule] ++ commentRules ++
      linedirRules ++ [dotRule, defaultRule], r.action ≠ .begin .linedir := by
    decide
  refine hothers r ?_
  have hmem := h.mem
  simp only [rules, properRules, List.mem_append, List.mem_cons, List.not_mem_nil, or_false]
    at hmem ⊢
  tauto

theorem Taken.not_directive (h : Taken k bol u t r) (hk : k ≠ .initial) : r ∉ directiveRules := by
  intro hr
  have hconds : r.conds = [.initial] := by
    refine conds_initialRules r ?_
    simp only [initialRules, List.mem_append]
    tauto
  have hmem := h.mem_conds
  rw [hconds] at hmem
  exact hk (List.mem_singleton.mp hmem)

theorem after_mode (hk : k ≠ .linedir) (ha : r.action ≠ .begin .linedir) (x : Scanner) :
    (after k u t r x).mode ≠ .scan .linedir := by
  intro hmode
  unfold after act at hmode
  split at hmode <;> simp_all

theorem fits_initial (h : Taken .initial bol u t r) (x : Scanner) :
    (Fits (after .initial u t r x) ↔ WellEnded bol (u ++ t)) ∧
      ((after .initial u t r x).mode = .scan .linedir →
        newline ∈ (after .initial u t r x).rest) := by
  by_cases hdir : r ∈ directiveRules
  · exact (directive_spec h x hdir).imp_right fun hline _ => hline
  refine ⟨?_, fun hmode => absurd hmode (after_mode (by simp) (h.action_ne hdir) x)⟩
  obtain hr | hr | ⟨hkeep, ha, c, rfl, hnone⟩ := h.initial_rules
  · simp only [initialRules, List.mem_append, hdir, or_false, List.mem_cons, List.not_mem_nil]
      at hr
    obtain (((((((hr | hr) | hr) | hr) | rfl | rfl) | hr) | rfl)) := hr
    · exact fits_label h x hr
    · exact fits_number h x hr
    · exact fits_char h x hr
    · exact fits_special h x (by simp; tauto)
    · exact fits_special h x (by simp)
    · exact fits_calmRule h x calm_dotWordRule rfl (.inr ⟨_, rfl⟩)
    · exact fits_operator h x hr
    · exact fits_calmRule h x calm_wordRule rfl (.inr ⟨_, rfl⟩)
  · simp only [List.mem_cons, List.not_mem_nil, or_false] at hr
    obtain rfl | rfl := hr
    · exact fits_calmRule h x calm_newlineRule rfl (.inl rfl)
    · exact fits_calmRule h x calm_spaceRule rfl (.inl rfl)
  · exact fits_single h x hkeep ha hnone

/-! ### The run -/

/-- A line directive has its newline. -/
def Ready (x : Scanner) : Prop := x.mode = .scan .linedir → newline ∈ x.rest

/-- How much is left to do. -/
def Scanner.left (x : Scanner) : Nat :=
  2 * x.rest.length + if x.mode = .skipLine true ∨ x.mode = .skipLine false then 1 else 0

theorem after_rest : (after k u t r x).rest = (u ++ t).drop (r.keep.getD u.length) := by
  unfold after act
  split <;> rfl

theorem Scanner.left_le : x.left ≤ 2 * x.rest.length + 1 := by
  unfold Scanner.left
  split <;> omega

theorem Scanner.le_left : 2 * x.rest.length ≤ x.left := Nat.le_add_right _ _

/-- A rule reads something. -/
theorem after_left (h : Taken k bol u t r) (hrest : x.rest = u ++ t) :
    (after k u t r x).left < x.left := by
  have hkeep : ∀ r ∈ rules, r.keep = none ∨ r.keep = some 1 := by decide
  have hpos : 0 < u.length := List.length_pos_of_ne_nil h.nonempty
  have hread : 1 ≤ r.keep.getD u.length := by
    obtain hk | hk := hkeep r h.mem
    · rw [hk, Option.getD_none]
      exact hpos
    · rw [hk, Option.getD_some]
  have hlen : (after k u t r x).rest.length < x.rest.length := by
    rw [after_rest, hrest, List.length_drop, List.length_append]
    omega
  have h₁ := Scanner.left_le (x := after k u t r x)
  have h₂ := Scanner.le_left (x := x)
  omega

/-- A step goes on with what is as well ended as before, nearer to the end unless it does nothing
for ever, or it is the last. -/
theorem scanStep_fits (hx : Ready x) :
    (∃ x', scanStep x = .inl x' ∧ Ready x' ∧ (Fits x' ↔ Fits x) ∧
        (x'.left < x.left ∨ x' = x ∧ ¬Fits x)) ∨
      ∃ toks, scanStep x = .inr toks ∧ Fits x := by
  obtain ⟨mode, bol, rest, tokens⟩ := x
  match mode, rest with
  | .skipLine unput, [] =>
      refine .inl ⟨_, rfl, hx, Iff.rfl, .inr ⟨rfl, ?_⟩⟩
      rintro ⟨t, ht, -⟩
      cases ht
  | .skipLine unput, c :: l =>
      by_cases hc : c = newline
      · subst hc
        refine .inl ⟨⟨.scan .initial, true, if unput then newline :: l else l, tokens⟩, by simp [scanStep],
          fun h => (by cases h), ?_, .inl ?_⟩
        · have hline : WellEnded true (newline :: l) ↔ WellEnded true l :=
            wellEnded_of_element (element_calm (by decide))
          cases unput <;> simp [Fits, afterLine_newline, hline]
        · cases unput <;> simp [Scanner.left]
      · refine .inl ⟨⟨.skipLine unput, false, l, tokens⟩, if_neg hc, fun h => (by cases h), ?_,
          .inl ?_⟩
        · simp [Fits, afterLine, hc]
        · cases unput <;> simp [Scanner.left]
  | .scan .string, [] =>
      refine .inl ⟨_, rfl, hx, Iff.rfl, .inr ⟨rfl, ?_⟩⟩
      rintro ⟨t, ht, -⟩
      cases ht
  | .scan .initial, [] => exact .inr ⟨tokens, rfl, .nil bol⟩
  | .scan .comment, [] =>
      refine .inr ⟨tokens, rfl, fun t ht => ?_⟩
      cases ht
  | .scan .linedir, [] => exact absurd (hx rfl) (by simp)
  | .scan k, c :: l =>
      obtain ⟨u, t, r, hut, htaken, hstep⟩ :=
        scanStep_scan (x := ⟨.scan k, bol, c :: l, tokens⟩) (k := k) rfl (by simp)
      have hfits : Ready (after k u t r ⟨.scan k, bol, c :: l, tokens⟩) ∧
          (Fits (after k u t r ⟨.scan k, bol, c :: l, tokens⟩) ↔
            Fits ⟨.scan k, bol, c :: l, tokens⟩) := by
        cases k with
        | initial =>
            obtain ⟨hfits, hready⟩ := fits_initial htaken ⟨.scan .initial, bol, c :: l, tokens⟩
            exact ⟨hready, by rw [hfits, ← hut]; rfl⟩
        | string =>
            refine ⟨fun hmode => absurd hmode (after_mode (by simp) (htaken.action_ne ?_) _), ?_⟩
            · exact fun hr => htaken.not_directive (by simp) hr
            · rw [fits_string htaken, ← hut]
              rfl
        | comment =>
            refine ⟨fun hmode => absurd hmode (after_mode (by simp) (htaken.action_ne ?_) _), ?_⟩
            · exact fun hr => htaken.not_directive (by simp) hr
            · rw [fits_comment htaken, ← hut]
              rfl
        | linedir =>
            have hline : newline ∈ u ++ t := hut ▸ hx rfl
            obtain ⟨hfits, hready⟩ :=
              fits_linedir htaken ⟨.scan .linedir, bol, c :: l, tokens⟩ hline
            exact ⟨hready, by rw [hfits, ← hut]; rfl⟩
      exact .inl ⟨_, hstep, hfits.1, hfits.2, .inl (after_left htaken hut)⟩

theorem endless (hx : Ready x) (hnot : ¬Fits x) : ¬∃ toks, Ends scanStep x toks := by
  refine not_ends (I := fun x => Ready x ∧ ¬Fits x) (fun x hx => ?_) ⟨hx, hnot⟩
  obtain ⟨x', hstep, hx', hfits, -⟩ | ⟨toks, -, hfits⟩ := scanStep_fits hx.1
  · exact ⟨x', hstep, hx', mt hfits.mp hx.2⟩
  · exact absurd hfits hx.2

theorem ready_start (file : List Byte) : Ready (Scanner.start file) := fun h => (by cases h)

/-- The calls of `yylex` come to the end of the file exactly when no string, no comment up to the
end of a line and no other line that begins with a hash is open there. -/
theorem scanner_ends_iff (file : List Byte) :
    (∃ toks, Ends scanStep (Scanner.start file) toks) ↔ WellEnded true file := by
  constructor
  · intro hends
    by_contra hnot
    exact endless (ready_start file) hnot hends
  · intro hwell
    refine ends_of_measure (I := fun x => Ready x ∧ Fits x) Scanner.left (fun x hx x' hstep => ?_)
      ⟨ready_start file, hwell⟩
    obtain ⟨x₁, hstep₁, hx₁, hfits, hleft⟩ | ⟨toks, hstep₁, -⟩ := scanStep_fits hx.1
    · obtain rfl := Sum.inl.inj (hstep.symm.trans hstep₁)
      exact ⟨⟨hx₁, hfits.mpr hx.2⟩, hleft.resolve_right fun h => h.2 hx.2⟩
    · cases hstep.symm.trans hstep₁

/-- A comment on a last line that has no newline. -/
theorem lineComment_endless : ¬∃ toks, Ends scanStep (Scanner.start [slash, slash]) toks := by
  refine endless (ready_start _) fun hfits => ?_
  obtain ⟨b, t, helement, -⟩ := wellEnded_cons.mp hfits
  exact absurd helement (by simp [element, afterLine, show slash ≠ dquote by decide])

end Ttools.Ast
