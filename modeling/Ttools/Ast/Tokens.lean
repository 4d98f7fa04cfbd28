import Ttools.Ast.Literals
import Ttools.Ast.Scan

/-!
# The tokens of an expression

Which rule of `ast/scan.l` is taken at a number, a character constant, a name, an operator and
white space, and what it returns.
-/

namespace Ttools.Ast

open Support Support.Pattern

/-! ### The rule that is taken -/

/-- The scanner is at a character that only the rule for an unexpected one matches. -/
def Unexpected (x : Scanner) : Prop :=
  x.mode = .scan .initial ∧ ∃ n, ∃ r ∈ [dotRule, defaultRule],
    best Rule.pattern (rules.filter (active .initial x.bol)) x.rest = some (n, r)

/-- The rules whose patterns match texts that begin with the character. -/
def rulesAt (c : Byte) : List Rule :=
  if digit c = true then labelRules ++ numberRules
  else if letter c = true then [wordRule]
  else if space c = true ∨ c = newline then [newlineRule, spaceRule]
  else if c = apostrophe then charRules
  else if c = dquote then [quoteRule]
  else if c = slash then [lineCommentRule, commentRule] ++ operatorRules
  else if c = hash then directiveRules ++ [unrecognizedRule]
  else if c = chr '.' then dotWordRule :: operatorRules
  else operatorRules

section

variable {bol : Bool} {c d : Byte} {u v w s t rest : List Byte} {r : Rule} {k : Tok}
  {acc : List (Tok × List Byte)} {P Q : Pattern Byte} {p : Byte → Bool}

theorem seq_lit_head (h : seq (lit [d]) Q (c :: u) = true) : c = d ∧ Q u = true := by
  obtain ⟨a, b, hab, ha, hb⟩ := seq_iff.mp h
  obtain rfl := lit_iff.mp ha
  obtain ⟨rfl, rfl⟩ := List.cons.inj hab
  exact ⟨rfl, hb⟩

theorem seq_one_head (h : seq (one p) Q (c :: u) = true) : p c = true ∧ Q u = true := by
  obtain ⟨a, b, hab, ha, hb⟩ := seq_iff.mp h
  obtain ⟨d, rfl, hd⟩ := one_iff.mp ha
  obtain ⟨rfl, rfl⟩ := List.cons.inj hab
  exact ⟨hd, hb⟩

/-- What the classes of characters have in common. -/
theorem char_classes : ∀ c : Byte, (letter c = true → digit c = false) ∧
    (space c = true ∨ c = newline → digit c = false ∧ letter c = false) ∧
    (octal c = true → digit c = true) ∧ (isX c = true → digit c = false ∧ octal c = false) ∧
    (blank c = true ∨ c = chr ':' → digit c = false ∧ isX c = false ∧ hex c = false) ∧
    (digit c = true → hex c = true ∧ isX c = false ∧ c ≠ chr 'b' ∧ c ≠ chr 'f') := by
  decide +kernel

theorem of_letter (h : letter c = true) : digit c = false := (char_classes c).1 h

theorem of_space (h : space c = true ∨ c = newline) : digit c = false ∧ letter c = false :=
  (char_classes c).2.1 h

/-- The characters that operators begin with begin nothing else but comments and directives. -/
theorem operator_head : ∀ o ∈ operators, ∀ c ∈ (o.map chr).head?, digit c = false ∧
    letter c = false ∧ ¬(space c = true ∨ c = newline) ∧ c ≠ apostrophe ∧ c ≠ dquote ∧
      c ≠ hash := by
  decide +kernel

theorem mem_rulesAt_operator (hr : r ∈ operatorRules) (hu : r.pattern (c :: u) = true) :
    r ∈ rulesAt c := by
  have hop := hr
  obtain ⟨o, ho, rfl⟩ := List.mem_map.mp hop
  have hc : c ∈ (o.map chr).head? := by
    rw [← lit_iff.mp hu]
    rfl
  obtain ⟨hdigit, hletter, hspace, hapostrophe, hdquote, hhash⟩ := operator_head o ho c hc
  rw [rulesAt, if_neg (Bool.eq_false_iff.mp hdigit), if_neg (Bool.eq_false_iff.mp hletter),
    if_neg hspace, if_neg hapostrophe, if_neg hdquote, if_neg hhash]
  split
  · exact List.mem_append_right _ hr
  · split
    · exact List.mem_cons_of_mem _ hr
    · exact hr

theorem mem_rulesAt_digit (hr : r ∈ labelRules ++ numberRules) (hu : r.pattern (c :: u) = true) :
    r ∈ rulesAt c := by
  have hc : digit c = true := by
    have hmem := hr
    simp only [labelRules, numberRules, List.mem_append, List.mem_cons, List.not_mem_nil,
      or_false] at hmem
    obtain (rfl | rfl | rfl) | rfl | rfl | rfl := hmem
    · exact (seq_one_head hu).1
    · exact (seq_one_head hu).1
    · exact (seq_one_head hu).1
    · rw [(seq_lit_head hu).1]
      decide
    · rw [(seq_lit_head hu).1]
      decide
    · exact (many1_iff.mp hu).2 c List.mem_cons_self
  rwa [rulesAt, if_pos hc]

theorem mem_rulesAt_space (hr : r ∈ [newlineRule, spaceRule]) (hu : r.pattern (c :: u) = true) :
    r ∈ rulesAt c := by
  have hc : space c = true ∨ c = newline := by
    have hmem := hr
    simp only [List.mem_cons, List.not_mem_nil, or_false] at hmem
    obtain rfl | rfl := hmem
    · obtain ⟨a, b, hab, ha, hb⟩ := seq_iff.mp hu
      cases a with
      | nil =>
          rw [List.nil_append] at hab
          subst hab
          exact .inr (seq_lit_head hb).1
      | cons d a =>
          rw [(List.cons.inj hab).1]
          exact .inl (many_iff.mp ha d List.mem_cons_self)
    · exact .inl (many_iff.mp hu c List.mem_cons_self)
  obtain ⟨hdigit, hletter⟩ := of_space hc
  rwa [rulesAt, if_neg (Bool.eq_false_iff.mp hdigit), if_neg (Bool.eq_false_iff.mp hletter),
    if_pos hc]

/-- The rule that matches a text is one for its first character. -/
theorem mem_rulesAt (hr : r ∈ properRules) (ha : active .initial bol r = true)
    (hu : r.pattern (c :: u) = true) : r ∈ rulesAt c := by
  have hconds : Cond.initial ∈ r.conds := by
    simp only [active, Bool.and_eq_true, decide_eq_true_eq] at ha
    exact ha.1
  obtain hr | hr | hr | hr | hr := proper_cases hr
  · simp only [initialRules, List.mem_append, List.mem_cons, List.not_mem_nil, or_false] at hr
    obtain (((((((hr | hr) | hr) | hr) | hr) | hr) | hr) | hr) := hr
    · exact mem_rulesAt_digit (List.mem_append_left _ hr) hu
    · exact mem_rulesAt_digit (List.mem_append_right _ hr) hu
    · obtain ⟨P, hP, rfl⟩ := List.mem_map.mp hr
      obtain ⟨v, hv⟩ := charPattern_head hP hu
      rw [(List.cons.inj hv).1]
      exact hr
    · obtain rfl | rfl | rfl := hr
      · rw [(List.cons.inj (lit_iff.mp hu)).1]
        exact List.mem_cons_self
      · obtain ⟨a, b, hab, ha, -⟩ := seq_iff.mp hu
        obtain rfl := lit_iff.mp ha
        rw [(List.cons.inj hab).1]
        exact List.mem_append_left _ List.mem_cons_self
      · rw [(List.cons.inj (lit_iff.mp hu)).1]
        exact List.mem_append_left _ (List.mem_cons_of_mem _ List.mem_cons_self)
    · have hmem := hr
      obtain ⟨P, -, rfl⟩ := List.mem_map.mp hmem
      rw [(seq_lit_head hu).1]
      exact List.mem_append_left _ hr
    · obtain rfl | rfl := hr
      · rw [(seq_lit_head hu).1]
        exact List.mem_append_right _ List.mem_cons_self
      · rw [(seq_lit_head hu).1]
        exact List.mem_cons_self
    · exact mem_rulesAt_operator hr hu
    · subst hr
      have hc := (seq_one_head hu).1
      rw [rulesAt, if_neg (Bool.eq_false_iff.mp (of_letter hc)), if_pos hc]
      exact List.mem_cons_self
  · rw [conds_stringRules r hr] at hconds
    exact absurd hconds (by decide)
  · exact mem_rulesAt_space hr hu
  · rw [conds_commentRules r hr] at hconds
    exact absurd hconds (by decide)
  · rw [conds_linedirRules r hr] at hconds
    exact absurd hconds (by decide)

/-- The last two rules are none of the others. -/
theorem proper_not_last (hr : r ∈ properRules) : r ∉ [dotRule, defaultRule] := by
  have hall : ∀ r ∈ properRules,
      ¬(r.conds = [.initial] ∧ r.action = .eat) ∧ r.conds.length < 4 := by decide
  obtain ⟨hdot, hdefault⟩ := hall r hr
  simp only [List.mem_cons, List.not_mem_nil, or_false, not_or]
  constructor
  · rintro rfl
    exact hdot ⟨rfl, rfl⟩
  · rintro rfl
    exact absurd hdefault (by decide)

/-- A proper rule is taken where one matches, and matches at least as much. -/
theorem Taken.of_match {r₀ : Rule} {u₀ t₀ : List Byte} (htaken : Taken .initial bol u t r)
    (hr₀ : r₀ ∈ properRules) (ha₀ : active .initial bol r₀ = true) (hu₀ : r₀.pattern u₀ = true)
    (hne : u₀ ≠ []) (hut : u ++ t = u₀ ++ t₀) : r ∈ properRules ∧ u₀.length ≤ u.length := by
  have hle := htaken.longest r₀ (List.mem_append_left _ hr₀) ha₀ u₀ t₀ hut hu₀
  refine ⟨?_, hle⟩
  obtain hr | ⟨hlast, hfirst⟩ := htaken.first
  · exact hr
  · obtain ⟨c, rfl⟩ := default_text htaken hlast
    have hlt := hfirst r₀ hr₀ ha₀ u₀ t₀ hut hu₀
    exact absurd (List.length_eq_zero_iff.mp (Nat.lt_one_iff.mp hlt)) hne

/-- The step of the scanner where a rule matches, and all that match as much do the same. -/
theorem scanStep_of_match (acc : List (Tok × List Byte)) {r₀ : Rule} {u₀ t₀ : List Byte}
    {a : Action} {n : Nat}
    (hr₀ : r₀ ∈ properRules) (ha₀ : active .initial bol r₀ = true) (hu₀ : r₀.pattern u₀ = true)
    (hne : u₀ ≠ []) (hrest : rest = u₀ ++ t₀)
    (huniq : ∀ r ∈ properRules, active .initial bol r = true → ∀ u t, rest = u ++ t →
      r.pattern u = true → u₀.length ≤ u.length → r.action = a ∧ r.keep.getD u.length = n) :
    (∃ b, scanStep ⟨.scan .initial, bol, rest, acc⟩ =
      .inl (act .initial (rest.take n) (rest.drop n) ⟨.scan .initial, b, rest, acc⟩ a)) ∧
        ¬Unexpected ⟨.scan .initial, bol, rest, acc⟩ := by
  have hrest' : rest ≠ [] := by
    rw [hrest]
    exact List.append_ne_nil_of_left_ne_nil hne t₀
  constructor
  · obtain ⟨u, t, r, hut, htaken, hstep⟩ :=
      scanStep_scan (x := ⟨.scan .initial, bol, rest, acc⟩) (k := .initial) rfl hrest'
    obtain ⟨hr, hle⟩ := htaken.of_match hr₀ ha₀ hu₀ hne (hut.symm.trans hrest)
    obtain ⟨rfl, rfl⟩ := huniq r hr htaken.isActive u t hut htaken.matched hle
    exact ⟨_, by rw [hstep, after, ← hut]⟩
  · rintro ⟨-, n', r', hr', hbest'⟩
    obtain ⟨u, t, r, hut, htaken, hbest⟩ := exists_taken .initial bol hrest'
    obtain rfl := (Prod.mk.inj (Option.some.inj (hbest.symm.trans hbest'))).2
    exact proper_not_last (htaken.of_match hr₀ ha₀ hu₀ hne (hut.symm.trans hrest)).1 hr'

/-- Where no proper rule matches the character is unexpected. -/
theorem unexpected_of_no_match (hrest : rest ≠ [])
    (hnone : ∀ r ∈ properRules, active .initial bol r = true → ∀ u t, rest = u ++ t → u ≠ [] →
      r.pattern u = false) : Unexpected ⟨.scan .initial, bol, rest, acc⟩ := by
  obtain ⟨u, t, r, hut, htaken, hbest⟩ := exists_taken .initial bol hrest
  refine ⟨rfl, u.length, r, ?_, hbest⟩
  obtain hr | ⟨hr, -⟩ := htaken.first
  · have hfalse := hnone r hr htaken.isActive u t hut htaken.nonempty
    rw [htaken.matched] at hfalse
    cases hfalse
  · simpa using hr

/-! ### One token -/

/-- The scanner returns a token at the beginning of `u ++ s`, with the text `u`. -/
def Returns (k : Tok) (u s : List Byte) : Prop :=
  ∀ bol acc, (∃ b, scanStep ⟨.scan .initial, bol, u ++ s, acc⟩ =
    .inl ⟨.scan .initial, b, s, acc ++ [(k, u)]⟩) ∧
      ¬Unexpected ⟨.scan .initial, bol, u ++ s, acc⟩

/-- What is all in a class is no longer than what is before the end of the class. -/
theorem length_le_of_all (huv : u ++ t = v ++ s) (hu : ∀ c ∈ u, p c = true)
    (hs : ∀ c ∈ s.head?, p c = false) : u.length ≤ v.length := by
  obtain ⟨a, rfl, -⟩ | ⟨a, rfl, rfl⟩ := List.append_eq_append_iff.mp huv
  · rw [List.length_append]
    exact Nat.le_add_right _ _
  · cases a with
    | nil => simp
    | cons c a =>
        have htrue := hu c (List.mem_append_right _ List.mem_cons_self)
        rw [hs c rfl] at htrue
        cases htrue

/-- A token is returned if a rule matches, and all rules that match as much return the token for
the same text. -/
theorem returns_of {q : Rule} {z : List Byte} (hq : q ∈ properRules)
    (ha₀ : ∀ bol, active .initial bol q = true) (hw : q.pattern (c :: w) = true)
    (hrest : u ++ s = c :: (w ++ z))
    (huniq : ∀ r ∈ rulesAt c, ∀ v t, u ++ s = c :: (v ++ t) → r.pattern (c :: v) = true →
      w.length ≤ v.length → r.action = .token k ∧ r.keep.getD (v.length + 1) = u.length) :
    Returns k u s := by
  intro bol acc
  obtain ⟨⟨b, hstep⟩, hok⟩ := scanStep_of_match acc (a := .token k) (n := u.length)
    hq (ha₀ bol) hw (List.cons_ne_nil c w) hrest (by
      intro r hr ha v t hvt hv hle
      cases v with
      | nil => cases hle
      | cons d v =>
          obtain ⟨rfl, -⟩ := List.cons.inj (hvt.symm.trans hrest)
          exact huniq r (mem_rulesAt hr ha hv) v t hvt hv (Nat.le_of_succ_le_succ hle))
  refine ⟨⟨b, ?_⟩, hok⟩
  rw [hstep, List.take_left, List.drop_left]
  rfl

/-! ### Names and numbers -/

theorem returns_word (hc : letter c = true) (hw : ∀ d ∈ w, nameChar d = true)
    (hs : ∀ d ∈ s.head?, nameChar d = false) : Returns .word (c :: w) s := by
  refine returns_of (q := wordRule) (z := s) (by simp [properRules])
    (fun bol => by cases bol <;> rfl)
    (seq_iff.mpr ⟨[c], w, rfl, one_iff.mpr ⟨c, rfl, hc⟩, many_iff.mpr hw⟩) rfl ?_
  intro r hr v t hvt hv hle
  rw [rulesAt, if_neg (Bool.eq_false_iff.mp (of_letter hc)), if_pos hc, List.mem_singleton] at hr
  subst hr
  have hmax : v.length ≤ w.length :=
    length_le_of_all (List.cons.inj hvt).2.symm (many_iff.mp (seq_one_head hv).2) hs
  exact ⟨rfl, congrArg Nat.succ (Nat.le_antisymm hmax hle)⟩

/-- A digit before a colon, with only blanks between them, is a label. -/
def labels (text s : List Byte) : Bool :=
  text.length == 1 && (s.dropWhile blank).head? == some (chr ':')

theorem digit_of_octal (h : octal c = true) : digit c = true := (char_classes c).2.2.1 h

theorem hex_of_octal (h : octal c = true) : hex c = true := by
  rw [hex, digit_of_octal h]
  rfl

theorem of_isX (h : isX c = true) : digit c = false ∧ octal c = false := (char_classes c).2.2.2.1 h

theorem of_blank (h : blank c = true ∨ c = chr ':') :
    digit c = false ∧ isX c = false ∧ hex c = false :=
  (char_classes c).2.2.2.2.1 h

theorem of_digit (h : digit c = true) : hex c = true ∧ isX c = false ∧ c ≠ chr 'b' ∧
    c ≠ chr 'f' :=
  (char_classes c).2.2.2.2.2 h

/-- After the first digit of a number nothing is matched by a rule for labels. -/
theorem not_labelRules (hr : r ∈ labelRules) (hu : r.pattern (c :: u) = true)
    (hut : w ++ s = u ++ t) (hw : ∀ d ∈ w.head?, digit d = true ∨ isX d = true)
    (hs : ∀ d ∈ s.head?, hex d = false) (hl : labels (c :: w) s = false) : False := by
  simp only [labelRules, List.mem_cons, List.not_mem_nil, or_false] at hr
  -- a character of `w` is no blank, no colon and no `b` or `f`
  have hw' : ∀ d ∈ w.head?, ¬(blank d = true ∨ d = chr ':') ∧ d ≠ chr 'b' ∧ d ≠ chr 'f' := by
    intro d hd
    refine ⟨fun hblank => ?_, ?_, ?_⟩
    · obtain ⟨hdigit, hx, -⟩ := of_blank hblank
      have hd' := hw d hd
      rw [hdigit, hx] at hd'
      simp at hd'
    · rintro rfl
      exact absurd (hw _ hd) (by decide)
    · rintro rfl
      exact absurd (hw _ hd) (by decide)
  obtain rfl | rfl | rfl := hr
  · obtain ⟨bl, e, rfl, hbl, he⟩ := seq_iff.mp (seq_one_head hu).2
    obtain rfl := lit_iff.mp he
    cases w with
    | nil =>
        rw [List.nil_append] at hut
        subst hut
        have hdrop : ((bl ++ [chr ':'] ++ t).dropWhile blank).head? = some (chr ':') := by
          rw [List.append_assoc, List.dropWhile_append_of_pos (many_iff.mp hbl)]
          rfl
        rw [labels, hdrop] at hl
        cases hl
    | cons d w =>
        refine (hw' d rfl).1 ?_
        cases bl with
        | nil => exact .inr (List.cons.inj hut).1
        | cons e bl =>
            rw [(List.cons.inj hut).1]
            exact .inl (many_iff.mp hbl e List.mem_cons_self)
  · obtain rfl := lit_iff.mp (seq_one_head hu).2
    cases w with
    | nil =>
        rw [List.nil_append] at hut
        subst hut
        exact absurd (hs _ rfl) (by decide)
    | cons d w => exact (hw' d rfl).2.1 (List.cons.inj hut).1
  · obtain rfl := lit_iff.mp (seq_one_head hu).2
    cases w with
    | nil =>
        rw [List.nil_append] at hut
        subst hut
        exact absurd (hs _ rfl) (by decide)
    | cons d w => exact (hw' d rfl).2.2 (List.cons.inj hut).1

theorem returns_digits (hc : digit c = true) (hw : ∀ d ∈ w, digit d = true)
    (hs : ∀ d ∈ s.head?, hex d = false ∧ isX d = false) (hl : labels (c :: w) s = false) :
    Returns .number (c :: w) s := by
  have hall : ∀ d ∈ c :: w, digit d = true := List.forall_mem_cons.mpr ⟨hc, hw⟩
  refine returns_of
    (q := { conds := [.initial], action := .token .number, pattern := many1 digit }) (z := s)
    (by simp [properRules, numberRules]) (fun bol => by cases bol <;> rfl)
    (many1_iff.mpr ⟨List.cons_ne_nil c w, hall⟩) rfl ?_
  intro r hr v t hvt hv hle
  rw [rulesAt, if_pos hc] at hr
  have htail : w ++ s = v ++ t := (List.cons.inj hvt).2
  have hnot : ∀ d ∈ s.head?, digit d = false := fun d hd => by
    by_contra hdigit
    rw [Bool.not_eq_false] at hdigit
    have hhex := (hs d hd).1
    rw [(of_digit hdigit).1] at hhex
    cases hhex
  have hlength (hmax : v.length ≤ w.length) : v.length + 1 = (c :: w).length :=
    congrArg Nat.succ (Nat.le_antisymm hmax hle)
  obtain hr | hr := List.mem_append.mp hr
  · refine absurd (not_labelRules hr hv htail (fun d hd => .inl (hw d ?_)) (fun d hd => (hs d hd).1)
      hl) id
    exact List.mem_of_mem_head? hd
  · simp only [numberRules, List.mem_cons, List.not_mem_nil, or_false] at hr
    obtain rfl | rfl | rfl := hr
    · -- the second character is no `x`
      obtain ⟨a, b, rfl, ha, -⟩ := seq_iff.mp (seq_lit_head hv).2
      obtain ⟨x, rfl, hx⟩ := one_iff.mp ha
      cases w with
      | nil =>
          rw [List.nil_append] at htail
          subst htail
          have hx' := (hs x rfl).2
          rw [hx] at hx'
          cases hx'
      | cons d w =>
          have hd := hw d List.mem_cons_self
          rw [(List.cons.inj htail).1, (of_isX hx).1] at hd
          cases hd
    · have hoctal := (many1_iff.mp (seq_lit_head hv).2).2
      refine ⟨rfl, hlength (length_le_of_all htail.symm (p := digit) (fun d hd => ?_) hnot)⟩
      exact digit_of_octal (hoctal d hd)
    · refine ⟨rfl, hlength (length_le_of_all htail.symm (p := digit) (fun d hd => ?_) hnot)⟩
      exact (many1_iff.mp hv).2 d (List.mem_cons_of_mem _ hd)

theorem returns_hex {x : Byte} (hx : isX x = true) (hne : w ≠ []) (hw : ∀ d ∈ w, hex d = true)
    (hs : ∀ d ∈ s.head?, hex d = false) : Returns .number (chr '0' :: x :: w) s := by
  refine returns_of (z := s)
    (q := { conds := [.initial], action := .token .number
            pattern := seq (lit [chr '0']) (seq (one isX) (many1 hex)) })
    (by simp [properRules, numberRules]) (fun bol => by cases bol <;> rfl)
    (seq_iff.mpr ⟨[chr '0'], x :: w, rfl, lit_iff.mpr rfl,
      seq_iff.mpr ⟨[x], w, rfl, one_iff.mpr ⟨x, rfl, hx⟩, many1_iff.mpr ⟨hne, hw⟩⟩⟩) rfl ?_
  intro r hr v t hvt hv hle
  have hr : r ∈ labelRules ++ numberRules := hr
  have htail : x :: w ++ s = v ++ t := (List.cons.inj hvt).2
  obtain ⟨y, v, rfl⟩ : ∃ y v', v = y :: v' := by
    cases v with
    | nil => cases hle
    | cons y v => exact ⟨y, v, rfl⟩
  obtain ⟨rfl, htail'⟩ := List.cons.inj htail
  obtain hr | hr := List.mem_append.mp hr
  · refine absurd (not_labelRules hr hv htail (fun d hd => ?_) hs rfl) id
    rw [← Option.some.inj hd]
    exact .inr hx
  · simp only [numberRules, List.mem_cons, List.not_mem_nil, or_false] at hr
    obtain rfl | rfl | rfl := hr
    · have hhex := (many1_iff.mp (seq_one_head (seq_lit_head hv).2).2).2
      have hmax : v.length ≤ w.length := length_le_of_all htail'.symm hhex hs
      exact ⟨rfl, congrArg (· + 2) (Nat.le_antisymm hmax (Nat.le_of_succ_le_succ hle))⟩
    · have hoctal := (many1_iff.mp (seq_lit_head hv).2).2 x List.mem_cons_self
      rw [(of_isX hx).2] at hoctal
      cases hoctal
    · have hall : many1 digit (chr '0' :: x :: v) = true := hv
      have hdigit := (many1_iff.mp hall).2 x (List.mem_cons_of_mem _ List.mem_cons_self)
      rw [(of_isX hx).1] at hdigit
      cases hdigit

/-- The label is returned although the digit alone is a number: the text up to the colon is
longer. -/
theorem returns_label (hc : digit c = true) (hl : labels [c] s = true) : Returns .diglab [c] s := by
  obtain ⟨z, hcolon⟩ : ∃ z, s.dropWhile blank = chr ':' :: z := by
    simp only [labels, Bool.and_eq_true, beq_iff_eq] at hl
    exact List.head?_eq_some_iff.mp hl.2
  have hsplit : s = s.takeWhile blank ++ [chr ':'] ++ z := by
    rw [List.append_assoc, List.singleton_append, ← hcolon, List.takeWhile_append_dropWhile]
  have hblank : ∀ d ∈ s.takeWhile blank, blank d = true := List.all_eq_true.mp List.all_takeWhile
  refine returns_of (z := z) (w := s.takeWhile blank ++ [chr ':'])
    (q := { conds := [.initial], keep := some 1, action := .token .diglab
            pattern := seq (one digit) (seq (many blank) (lit [chr ':'])) })
    (by simp [properRules, labelRules]) (fun bol => by cases bol <;> rfl)
    (seq_iff.mpr ⟨[c], _, rfl, one_iff.mpr ⟨c, rfl, hc⟩,
      seq_iff.mpr ⟨_, _, rfl, many_iff.mpr hblank, lit_iff.mpr rfl⟩⟩)
    (by rw [List.singleton_append, ← hsplit]) ?_
  intro r hr v t hvt hv hle
  rw [rulesAt, if_pos hc] at hr
  have htail : s = v ++ t := (List.cons.inj hvt).2
  -- the second character is a blank or the colon
  obtain ⟨e, v, rfl⟩ : ∃ e v', v = e :: v' := by
    cases v with
    | nil =>
        rw [List.length_append, List.length_singleton] at hle
        cases hle
    | cons e v => exact ⟨e, v, rfl⟩
  have he : blank e = true ∨ e = chr ':' := by
    rw [hsplit] at htail
    cases hb : s.takeWhile blank with
    | nil =>
        rw [hb] at htail
        exact .inr (List.cons.inj htail).1.symm
    | cons d bl =>
        rw [hb] at htail hblank
        rw [← (List.cons.inj htail).1]
        exact .inl (hblank d List.mem_cons_self)
  obtain ⟨hdigit, hx, hhex⟩ := of_blank he
  simp only [labelRules, numberRules, List.mem_append, List.mem_cons, List.not_mem_nil,
    or_false] at hr
  obtain (rfl | rfl | rfl) | rfl | rfl | rfl := hr
  · exact ⟨rfl, rfl⟩
  · rw [(List.cons.inj (lit_iff.mp (seq_one_head hv).2)).1] at hhex
    exact absurd hhex (by decide)
  · rw [(List.cons.inj (lit_iff.mp (seq_one_head hv).2)).1] at hhex
    exact absurd hhex (by decide)
  · rw [(seq_one_head (seq_lit_head hv).2).1] at hx
    cases hx
  · have hoctal := (many1_iff.mp (seq_lit_head hv).2).2 e List.mem_cons_self
    rw [digit_of_octal hoctal] at hdigit
    cases hdigit
  · rw [(many1_iff.mp hv).2 e (List.mem_cons_of_mem _ List.mem_cons_self)] at hdigit
    cases hdigit

/-! ### Character constants -/

theorem seq_two_head (h : seq (lit [c, d]) Q (c :: v) = true) : ∃ w, v = d :: w ∧ Q w = true := by
  obtain ⟨a, b, hab, ha, hb⟩ := seq_iff.mp h
  obtain rfl := lit_iff.mp ha
  exact ⟨b, (List.cons.inj hab).2, hb⟩

/-- What begins with a text of a pattern, and goes on with more of them. -/
theorem times_head_iff {P R : Pattern Byte} {lo hi : Nat} (h : seq (times (lo + 1) hi P) R w = true) :
    ∃ u v, w = u ++ v ∧ P u = true ∧ seq (times lo hi P) R v = true := by
  obtain ⟨a, b, rfl, ha, hb⟩ := seq_iff.mp h
  obtain ⟨us, ⟨hlo, hhi⟩, hus, rfl⟩ := times_iff.mp ha
  obtain ⟨u, us, rfl⟩ := List.exists_cons_of_length_pos (Nat.zero_lt_of_lt hlo)
  obtain ⟨hu, hus⟩ := List.forall_mem_cons.mp hus
  rw [List.length_cons] at hlo hhi
  exact ⟨u, us.flatten ++ b, by rw [List.flatten_cons, List.append_assoc], hu,
    seq_iff.mpr ⟨us.flatten, b, rfl, times_iff.mpr ⟨us, ⟨by omega, by omega⟩, hus, rfl⟩, hb⟩⟩

/-- After any number of texts that begin with a quote comes the quote. -/
theorem times_quote {P : Pattern Byte} {lo hi : Nat} (hP : ∀ u, P u = true →
      ∃ v, u = apostrophe :: backslash :: v)
    (h : seq (times lo hi P) (lit [apostrophe]) w = true) :
    w = [apostrophe] ∨ ∃ v, w = apostrophe :: backslash :: v := by
  obtain ⟨a, b, rfl, ha, hb⟩ := seq_iff.mp h
  obtain rfl := lit_iff.mp hb
  obtain ⟨us, -, hus, rfl⟩ := times_iff.mp ha
  cases us with
  | nil => exact .inl rfl
  | cons u us =>
      obtain ⟨v, rfl⟩ := hP u (hus u List.mem_cons_self)
      exact .inr ⟨v ++ (us.flatten ++ [apostrophe]), by
        simp only [List.flatten_cons, List.cons_append, List.append_assoc]⟩

/-- A quote, a backslash and more. -/
theorem escape_head {Q : Pattern Byte} (u : List Byte)
    (h : seq (lit [apostrophe, backslash]) Q u = true) :
    ∃ v, u = apostrophe :: backslash :: v ∧ Q v = true := by
  obtain ⟨a, b, rfl, ha, hb⟩ := seq_iff.mp h
  obtain rfl := lit_iff.mp ha
  exact ⟨b, rfl, hb⟩

/-- The texts of the rules for character constants, after the first quote: the first rule and the
second want one digit, and then the quote or a further escape with its own quote. -/
theorem charRules_text (hr : r ∈ charRules) (hv : r.pattern (apostrophe :: v) = true) :
    (r.action = .token .number ∧ r.keep = none) ∧
      ((∃ x d w, isX x = true ∧ hex d = true ∧
          v = backslash :: x :: d :: apostrophe :: backslash :: w) ∨
        (∃ d w, octal d = true ∧ (w = [] ∨ w.head? = some backslash) ∧
          v = backslash :: d :: apostrophe :: w) ∨
        (∃ d, v = [backslash, d, apostrophe]) ∨ ∃ d, v = [d, apostrophe]) := by
  obtain ⟨P, hP, rfl⟩ := List.mem_map.mp hr
  refine ⟨⟨rfl, rfl⟩, ?_⟩
  simp only [charPatterns, List.mem_cons, List.not_mem_nil, or_false] at hP
  obtain rfl | rfl | rfl | rfl := hP
  · obtain ⟨u, w, huw, hu, hw⟩ := times_head_iff hv
    obtain ⟨u', w', rfl, hu', -⟩ := times_head_iff hw
    obtain ⟨z, rfl, hz⟩ := escape_head u hu
    obtain ⟨z', rfl, -⟩ := escape_head u' hu'
    obtain ⟨y, e, rfl, hy, he⟩ := seq_iff.mp hz
    obtain ⟨x, rfl, hx⟩ := one_iff.mp hy
    obtain ⟨d, rfl, hd⟩ := one_iff.mp he
    exact .inl ⟨x, d, z' ++ w', hx, hd, (List.cons.inj huw).2⟩
  · obtain ⟨u, w, huw, hu, hw⟩ := times_head_iff hv
    obtain ⟨z, rfl, hz⟩ := escape_head u hu
    obtain ⟨d, rfl, hd⟩ := one_iff.mp hz
    refine .inr (.inl ?_)
    obtain rfl | ⟨v', rfl⟩ := times_quote (fun u hu => (escape_head u hu).imp fun _ h => h.1) hw
    · exact ⟨d, [], hd, .inl rfl, (List.cons.inj huw).2⟩
    · exact ⟨d, backslash :: v', hd, .inr rfl, (List.cons.inj huw).2⟩
  · obtain ⟨w, rfl, hw⟩ := seq_two_head hv
    obtain ⟨a, e, rfl, ha, he⟩ := seq_iff.mp hw
    obtain ⟨d, rfl, -⟩ := one_iff.mp ha
    obtain rfl := lit_iff.mp he
    exact .inr (.inr (.inl ⟨d, rfl⟩))
  · obtain ⟨a, e, rfl, ha, he⟩ := seq_iff.mp (seq_lit_head hv).2
    obtain ⟨d, rfl, -⟩ := one_iff.mp ha
    obtain rfl := lit_iff.mp he
    exact .inr (.inr (.inr ⟨d, rfl⟩))

theorem charRule_proper {P : Pattern Byte} (hP : P ∈ charPatterns) :
    { conds := [.initial], action := .token .number, pattern := P } ∈ properRules := by
  have hr : { conds := [.initial], action := .token .number, pattern := P } ∈ charRules :=
    List.mem_map_of_mem hP
  simp only [properRules, List.mem_append]
  tauto

/-- A character constant is returned if one of its rules matches it, and the texts of its rules
that begin with the same characters are no longer and, if as long, no other. -/
theorem returns_char {P : Pattern Byte} (hP : P ∈ charPatterns) (hw : P (apostrophe :: w) = true)
    (huniq : ∀ r ∈ charRules, ∀ v t, w ++ s = v ++ t → r.pattern (apostrophe :: v) = true →
      w.length ≤ v.length → v.length = w.length) : Returns .number (apostrophe :: w) s := by
  refine returns_of (q := { conds := [.initial], action := .token .number, pattern := P })
    (z := s) (charRule_proper hP) (fun bol => by cases bol <;> rfl) hw rfl ?_
  intro r hr v t hvt hv hle
  have hr : r ∈ charRules := hr
  obtain ⟨⟨haction, hkeep⟩, -⟩ := charRules_text hr hv
  rw [haction, hkeep]
  exact ⟨rfl, congrArg Nat.succ (huniq r hr v t (List.cons.inj hvt).2 hv hle)⟩

theorem returns_plain (hback : c ≠ backslash) (hdot : dot c = true) :
    Returns .number [apostrophe, c, apostrophe] s := by
  refine returns_char (P := seq (lit [apostrophe]) (seq (one dot) (lit [apostrophe])))
    (by simp [charPatterns]) (seq_iff.mpr ⟨[apostrophe], [c, apostrophe], rfl, lit_iff.mpr rfl,
      seq_iff.mpr ⟨[c], [apostrophe], rfl, one_iff.mpr ⟨c, rfl, hdot⟩, lit_iff.mpr rfl⟩⟩) ?_
  intro r hr v t hvt hv _
  obtain ⟨-, ⟨x, d, w, -, -, rfl⟩ | ⟨d, w, -, -, rfl⟩ | ⟨d, rfl⟩ | ⟨d, rfl⟩⟩ :=
    charRules_text hr hv
  · exact absurd (List.cons.inj hvt).1 hback
  · exact absurd (List.cons.inj hvt).1 hback
  · exact absurd (List.cons.inj hvt).1 hback
  · rfl

theorem returns_simple (hoctal : octal c = false) (hx : isX c = false) (hdot : dot c = true) :
    Returns .number [apostrophe, backslash, c, apostrophe] s := by
  refine returns_char (P := seq (lit [apostrophe, backslash]) (seq (one dot) (lit [apostrophe])))
    (by simp [charPatterns])
    (seq_iff.mpr ⟨[apostrophe, backslash], [c, apostrophe], rfl, lit_iff.mpr rfl,
      seq_iff.mpr ⟨[c], [apostrophe], rfl, one_iff.mpr ⟨c, rfl, hdot⟩, lit_iff.mpr rfl⟩⟩) ?_
  intro r hr v t hvt hv hle
  obtain ⟨-, ⟨x, d, w, hx', -, rfl⟩ | ⟨d, w, hd, -, rfl⟩ | ⟨d, rfl⟩ | ⟨d, rfl⟩⟩ :=
    charRules_text hr hv
  · obtain ⟨-, htail⟩ := List.cons.inj hvt
    rw [(List.cons.inj htail).1, hx'] at hx
    cases hx
  · obtain ⟨-, htail⟩ := List.cons.inj hvt
    rw [(List.cons.inj htail).1, hd] at hoctal
    cases hoctal
  · rfl
  · exact absurd hle (by simp)

/-- An octal escape of one digit, before anything but a backslash. -/
theorem returns_octal {d : Byte} (hd : octal d = true) (hs : s.head? ≠ some backslash) :
    Returns .number [apostrophe, backslash, d, apostrophe] s := by
  have hone : times 1 3 (seq (lit [apostrophe, backslash]) (one octal))
      [apostrophe, backslash, d] = true :=
    times_iff.mpr ⟨[[apostrophe, backslash, d]], ⟨Nat.le_refl 1, Nat.le_add_left 1 2⟩,
      List.forall_mem_singleton.mpr (seq_iff.mpr ⟨[apostrophe, backslash], [d], rfl,
        lit_iff.mpr rfl, one_iff.mpr ⟨d, rfl, hd⟩⟩), rfl⟩
  refine returns_char (P := seq (times 1 3 (seq (lit [apostrophe, backslash]) (one octal)))
      (lit [apostrophe]))
    (by simp [charPatterns])
    (seq_iff.mpr ⟨[apostrophe, backslash, d], [apostrophe], rfl, hone, lit_iff.mpr rfl⟩) ?_
  intro r hr v t hvt hv hle
  obtain ⟨-, ⟨x, e, w, hx, -, rfl⟩ | ⟨e, w, -, hw, rfl⟩ | ⟨e, rfl⟩ | ⟨e, rfl⟩⟩ :=
    charRules_text hr hv
  · obtain ⟨-, htail⟩ := List.cons.inj hvt
    rw [(List.cons.inj htail).1, (of_isX hx).2] at hd
    cases hd
  · obtain ⟨-, htail⟩ := List.cons.inj hvt
    obtain ⟨-, htail⟩ := List.cons.inj htail
    obtain ⟨-, htail⟩ := List.cons.inj htail
    obtain rfl | hw := hw
    · rfl
    · obtain ⟨w, rfl⟩ := List.head?_eq_some_iff.mp hw
      have htail : s = backslash :: (w ++ t) := htail
      exact absurd (congrArg List.head? htail) hs
  · rfl
  · exact absurd hle (by simp)

/-- There is no rule for a hexadecimal escape, nor for an octal one of more than one digit. -/
theorem unexpected_escape {x d : Byte} {w : List Byte} (hd : hex d = true)
    (hx : isX x = true ∧ s.head? ≠ some backslash ∧ (w = [apostrophe] ∨ ∃ e w', w = e :: w' ∧
      hex e = true) ∨ octal x = true) :
    Unexpected ⟨.scan .initial, bol, apostrophe :: backslash :: x :: d :: w ++ s, acc⟩ := by
  refine unexpected_of_no_match (by simp) fun r hr ha u t hut hu => ?_
  obtain ⟨c, v, rfl⟩ := List.exists_cons_of_ne_nil hu
  obtain ⟨rfl, hvt⟩ := List.cons.inj hut
  refine Bool.eq_false_iff.mpr fun hv => ?_
  have hr : r ∈ charRules := mem_rulesAt hr ha hv
  have hne : d ≠ apostrophe := by
    rintro rfl
    exact absurd hd (by decide)
  obtain ⟨-, ⟨y, e, z, hy, -, rfl⟩ | ⟨e, z, he, -, rfl⟩ | ⟨e, rfl⟩ | ⟨e, rfl⟩⟩ :=
    charRules_text hr hv
  · obtain ⟨-, htail⟩ := List.cons.inj hvt
    obtain ⟨rfl, hrest⟩ := List.cons.inj htail
    have hw : w ++ s = apostrophe :: backslash :: (z ++ t) := (List.cons.inj hrest).2
    obtain ⟨-, hs, rfl | ⟨f, w, rfl, hf⟩⟩ | hoctal := hx
    · exact hs (congrArg List.head? (List.cons.inj hw).2)
    · rw [(List.cons.inj hw).1] at hf
      exact absurd hf (by decide)
    · rw [(of_isX hy).2] at hoctal
      cases hoctal
  · obtain ⟨-, htail⟩ := List.cons.inj hvt
    obtain ⟨-, htail⟩ := List.cons.inj htail
    exact hne (List.cons.inj htail).1
  · obtain ⟨-, htail⟩ := List.cons.inj hvt
    obtain ⟨-, htail⟩ := List.cons.inj htail
    exact hne (List.cons.inj htail).1
  · obtain ⟨-, htail⟩ := List.cons.inj hvt
    obtain ⟨rfl, -⟩ := List.cons.inj htail
    obtain ⟨hx, -⟩ | hx := hx
    · exact absurd hx (by decide)
    · exact absurd hx (by decide)

/-! ### Operators -/

/-- The second characters of operators and comments. -/
def follow : List Byte := [chr '|', chr '&', chr '=', chr '<', chr '>', chr ':', slash, star]

/-- An operator that another one begins with is no bracket, and the next character is one of
these. -/
theorem operator_longer : ∀ o ∈ operators, ∀ o' ∈ operators, o.map chr <+: o'.map chr →
    o'.map chr = o.map chr ∨
      o ≠ [')'] ∧ ∃ d ∈ follow, (o.map chr ++ [d]) <+: o'.map chr := by
  decide +kernel

theorem operator_singles : ∀ o ∈ operators, ((o.map chr).head? = some (chr '.') → o = ['.']) ∧
    ((o.map chr).head? = some slash → (o.map chr).tail = []) ∧ o ≠ [] := by
  decide +kernel

/-- What begins with the character of an operator is an operator or a comment. -/
theorem mem_rulesAt_cases {o : List Char} (ho : o ∈ operators) (hdot : o ≠ ['.'])
    (hc : o.map chr = c :: w) (hr : r ∈ rulesAt c) :
    r ∈ operatorRules ∨ c = slash ∧ r ∈ [lineCommentRule, commentRule] := by
  have hhead : (o.map chr).head? = some c := by
    rw [hc]
    rfl
  obtain ⟨hdigit, hletter, hspace, hapostrophe, hdquote, hhash⟩ := operator_head o ho c hhead
  have hne : c ≠ chr '.' := by
    rintro rfl
    exact hdot ((operator_singles o ho).1 hhead)
  rw [rulesAt, if_neg (Bool.eq_false_iff.mp hdigit), if_neg (Bool.eq_false_iff.mp hletter),
    if_neg hspace, if_neg hapostrophe, if_neg hdquote, if_neg hhash, if_neg hne] at hr
  split at hr
  · next hslash => exact (List.mem_append.mp hr).symm.imp_right fun hr => ⟨hslash, hr⟩
  · exact .inl hr

/-- An operator is returned if no longer one and no comment follows. -/
theorem returns_op {o : List Char} (ho : o ∈ operators) (hdot : o ≠ ['.'])
    (hs : o = [')'] ∨ ∀ d ∈ s.head?, d ∉ follow) : Returns .op (o.map chr) s := by
  obtain ⟨c, w, hc⟩ : ∃ c w, o.map chr = c :: w := by
    refine List.exists_cons_of_ne_nil fun hnil => ?_
    exact (operator_singles o ho).2.2 (List.map_eq_nil_iff.mp hnil)
  have hr₀ : { conds := [.initial], action := .token .op, pattern := lit (o.map chr) } ∈
      operatorRules := List.mem_map_of_mem ho
  rw [hc] at hr₀ ⊢
  refine returns_of (q := { conds := [.initial], action := .token .op, pattern := lit (c :: w) })
    (z := s) ?_ (fun bol => by cases bol <;> rfl) (lit_iff.mpr rfl) rfl ?_
  · simp only [properRules, List.mem_append]
    tauto
  · intro r hr v t hvt hv hle
    have htail : w ++ s = v ++ t := (List.cons.inj hvt).2
    obtain ⟨z, rfl⟩ : w <+: v :=
      List.prefix_of_prefix_length_le (List.prefix_append w s) ⟨t, htail.symm⟩ hle
    have hz : s = z ++ t := by
      rw [List.append_assoc] at htail
      exact List.append_cancel_left htail
    obtain hop | ⟨rfl, hcomment⟩ := mem_rulesAt_cases ho hdot hc hr
    · obtain ⟨o', ho', rfl⟩ := List.mem_map.mp hop
      have hov : c :: (w ++ z) = o'.map chr := lit_iff.mp hv
      obtain heq | ⟨hne, d, hd, hlonger⟩ := operator_longer o ho o' ho' (by
        rw [hc, ← hov]
        exact ⟨z, rfl⟩)
      · rw [hc, ← hov] at heq
        have hnil : z = [] := List.append_right_eq_self.mp (List.cons.inj heq).2
        subst hnil
        rw [List.append_nil]
        exact ⟨rfl, rfl⟩
      · -- the longer operator goes on with a character that does not follow
        rw [hc, ← hov] at hlonger
        obtain ⟨y, hy⟩ := hlonger
        have hdz : d :: y = z := by
          rw [List.cons_append, List.cons_append, List.append_assoc] at hy
          exact List.append_cancel_left (List.cons.inj hy).2
        refine absurd hd (hs.resolve_left hne d ?_)
        rw [hz, ← hdz]
        rfl
    · have hw : w = [] := by
        have hsingle := (operator_singles o ho).2.1
        rw [hc] at hsingle
        exact hsingle rfl
      subst hw
      have hne : o ≠ [')'] := by
        rintro rfl
        exact absurd (List.cons.inj hc).1 (by decide)
      have hfollow : ∃ d y, z = d :: y ∧ d ∈ follow := by
        obtain rfl | hcomment := List.mem_cons.mp hcomment
        · obtain ⟨y, hy, -⟩ := seq_two_head hv
          exact ⟨slash, y, hy, by decide⟩
        · obtain rfl := List.mem_singleton.mp hcomment
          exact ⟨star, [], (List.cons.inj (lit_iff.mp hv)).2, by decide⟩
      obtain ⟨d, y, rfl, hd⟩ := hfollow
      refine absurd hd (hs.resolve_left hne d ?_)
      rw [hz]
      rfl

theorem unexpected_bang (hs : ∀ d ∈ s.head?, d ≠ chr '=') :
    Unexpected ⟨.scan .initial, bol, chr '!' :: s, acc⟩ := by
  refine unexpected_of_no_match (List.cons_ne_nil _ _) fun r hr ha u t hut hu => ?_
  obtain ⟨d, v, rfl⟩ := List.exists_cons_of_ne_nil hu
  obtain ⟨rfl, hvt⟩ := List.cons.inj hut
  refine Bool.eq_false_iff.mpr fun hv => ?_
  have hr : r ∈ operatorRules := mem_rulesAt hr ha hv
  obtain ⟨o, ho, rfl⟩ := List.mem_map.mp hr
  have hops : ∀ o ∈ operators, (o.map chr).head? = some (chr '!') →
      (o.map chr).tail = [chr '='] := by decide
  have hov : chr '!' :: v = o.map chr := lit_iff.mp hv
  have htail := hops o ho (by rw [← hov]; rfl)
  rw [← hov, List.tail_cons] at htail
  subst htail
  exact hs (chr '=') (by rw [hvt]; rfl) rfl

/-! ### White space -/

/-- Some of the white space is eaten. -/
theorem scanStep_space (bol : Bool) (acc : List (Tok × List Byte)) (hne : w ≠ [])
    (hw : ∀ c ∈ w, (space c || c == newline) = true)
    (hs : ∀ c ∈ s.head?, (space c || c == newline) = false) :
    (∃ b w', w'.length < w.length ∧ (∀ c ∈ w', (space c || c == newline) = true) ∧
      scanStep ⟨.scan .initial, bol, w ++ s, acc⟩ =
        .inl ⟨.scan .initial, b, w' ++ s, acc⟩) ∧
      ¬Unexpected ⟨.scan .initial, bol, w ++ s, acc⟩ := by
  have hrest : w ++ s ≠ [] := List.append_ne_nil_of_left_ne_nil hne s
  obtain ⟨c, w₀, rfl⟩ := List.exists_cons_of_ne_nil hne
  -- one of the two rules matches the first character
  obtain ⟨r₀, hr₀, ha₀, hone⟩ : ∃ r₀ ∈ properRules, active .initial bol r₀ = true ∧
      r₀.pattern [c] = true := by
    obtain hc | hc := Bool.or_eq_true_iff.mp (hw c List.mem_cons_self)
    · refine ⟨spaceRule, by simp [properRules], by cases bol <;> rfl, many_iff.mpr ?_⟩
      rintro d hd
      rwa [List.mem_singleton.mp hd]
    · obtain rfl := beq_iff_eq.mp hc
      exact ⟨newlineRule, by simp [properRules], by cases bol <;> rfl, by decide⟩
  constructor
  · obtain ⟨u, t, r, hut, htaken, hstep⟩ :=
      scanStep_scan (x := ⟨.scan .initial, bol, c :: w₀ ++ s, acc⟩) (k := .initial) rfl hrest
    obtain ⟨hr, hle⟩ := htaken.of_match hr₀ ha₀ hone (List.cons_ne_nil c []) hut.symm
    obtain ⟨d, u, rfl⟩ := List.exists_cons_of_ne_nil htaken.nonempty
    obtain ⟨rfl, -⟩ := List.cons.inj hut
    have hmem : r ∈ [newlineRule, spaceRule] := by
      have hc : space c = true ∨ c = newline := by
        simpa using hw c List.mem_cons_self
      have hrules := mem_rulesAt hr htaken.isActive htaken.matched
      obtain ⟨hdigit, hletter⟩ := of_space hc
      rwa [rulesAt, if_neg (Bool.eq_false_iff.mp hdigit), if_neg (Bool.eq_false_iff.mp hletter),
        if_pos hc] at hrules
    have hall : (r.keep = none ∧ r.action = .eat) ∧
        ∀ e ∈ c :: u, (space e || e == newline) = true := by
      have hu := htaken.matched
      obtain rfl | hmem := List.mem_cons.mp hmem
      · refine ⟨⟨rfl, rfl⟩, fun e he => ?_⟩
        obtain ⟨x, y, hxy, hx, hy⟩ := seq_iff.mp hu
        obtain ⟨n, z, rfl, hn, hz⟩ := seq_iff.mp hy
        obtain rfl := lit_iff.mp hn
        rw [hxy] at he
        obtain he | he := List.mem_append.mp he
        · rw [many_iff.mp hx e he, Bool.true_or]
        · obtain he | he := List.mem_append.mp he
          · rw [List.mem_singleton.mp he]
            rfl
          · rw [many_iff.mp hz e he, Bool.true_or]
      · obtain rfl := List.mem_singleton.mp hmem
        exact ⟨⟨rfl, rfl⟩, fun e he => by rw [many_iff.mp hu e he, Bool.true_or]⟩
    obtain ⟨⟨hkeep, haction⟩, hall⟩ := hall
    obtain ⟨w', hw'⟩ : c :: u <+: c :: w₀ :=
      List.prefix_of_prefix_length_le ⟨t, hut.symm⟩ (List.prefix_append _ s)
        (length_le_of_all hut.symm hall hs)
    have ht : t = w' ++ s := by
      have hcancel : c :: u ++ (w' ++ s) = c :: u ++ t := by
        rw [← List.append_assoc, hw']
        exact hut
      exact (List.append_cancel_left hcancel).symm
    refine ⟨_, w', ?_, fun e he => hw e ?_, by rw [hstep, after_eq hkeep, haction, ht]; rfl⟩
    · rw [← hw', List.length_append, List.length_cons]
      omega
    · rw [← hw']
      exact List.mem_append_right _ he
  · rintro ⟨-, n', r', hr', hbest'⟩
    obtain ⟨u, t, r, hut, htaken, hbest⟩ := exists_taken .initial bol hrest
    obtain rfl := (Prod.mk.inj (Option.some.inj (hbest.symm.trans hbest'))).2
    exact proper_not_last (htaken.of_match hr₀ ha₀ hone (List.cons_ne_nil c []) hut.symm).1 hr'

end

end Ttools.Ast
