import Ttools.Expr.Elsum
import Ttools.Support.Logged

/-!
# Scanning

`scan1` and `scan2` (`shared/expr.c`), with which `expr_reduce` moves the terms
of a right subtree into the left one, and the last part of `expr_reduce`, which puts the two
together again.

The scans run in `Reducer`: a store whose expressions are reduced in place, and the answers to
what the trees do not show (`nrefs`, and comparisons of pointers).  The log of a run has the steps
that keep the value only on a condition (`Risk`).

* `scan2_spec`: what `scan2` leaves of the left subtree is that subtree with the item applied.
* `scan1_spec`: what `scan1` leaves of the two subtrees, put together, is what they were together.
* `reassociate_spec`: so is what `expr_reduce` makes of them.
-/

namespace Ttools

open Support (Logged)
open Support.Logged (noteIf ofOption Ensures)

/-- What a reduction changes, and what it cannot see. -/
structure Memory where
  store : Store
  answers : Nat → Bool

/-- `fuel` is the end of the recursion that the model allows; `abort` is `abort ()`, a failed
assertion or a null pointer. -/
inductive Stop where
  | fuel | abort
  deriving DecidableEq, Repr

/-- The steps that keep the value of an expression only on a condition. -/
inductive Risk where
  /-- `x || 0` or `x && c` became `x`. -/
  | boolean (x : Expr)
  /-- A term that was subtracted stays in the right subtree without its sign. -/
  | sign (r : Expr)
  /-- The name was taken to be a multiple of `n`. -/
  | aligned (np : NameId) (n : Word)
  /-- A node was changed in place that belongs to another expression too. -/
  | shared
  deriving DecidableEq, Repr

/-- The condition. -/
def Risk.Ok (ρ : Valuation) : Risk → Prop
  | .boolean x => ofBool (x.value ρ true != 0) = x.value ρ true
  | .sign r => -r.value ρ true = r.value ρ true
  | .aligned np n => ρ.name np &&& (n - 1) = 0
  | .shared => False

abbrev Reducer := Logged Memory Stop Risk

/-- What the trees do not show. -/
def ask : Reducer Bool := do
  let m ← Logged.get
  Logged.modify fun m => { m with answers := fun n => m.answers (n + 1) }
  return m.answers 0

/-! ### The scans -/

/-- The operators that are re-associated. -/
def BinTag.scans : BinTag → Bool
  | .plus | .minus | .and | .xor | .or => true
  | _ => false

/-- The node is of the operation, or of a compatible one. -/
def BinTag.compat (op t : BinTag) : Bool :=
  t == op || ((op == .plus || op == .minus) && (t == .plus || t == .minus))

/-- The operation on the right of a node. -/
def BinTag.under (t op : BinTag) : BinTag :=
  if t = .minus then if op = .minus then .plus else .minus else op

/-- The end of `scan2`: try to pair the term with the item. -/
def scanPair (item e : Expr) (op : BinTag) : Reducer Found := do
  match e, item with
  | .const c, .const d => .into <$> ofOption .abort ((eval op c d).map .const)
  | e, item =>
      let ptr ← ask
      if (op == .minus || op == .xor) && exprEqual ptr e item then return .gone
      match op, e, item with
      | .minus, .elsum v1, .elsum v2 => ofOption .abort (substractElsums v1 v2)
      | _, _, _ => return .kept

/-- `expr_binop (op, e1, e2)` changes `e1` in place. -/
def lifts (lone : Bool) (op : BinTag) (e1 e2 : Expr) : Bool :=
  match op, e1, e2 with
  | .plus, .binop .plus _ (.const _), .const _ => false
  | .plus, .binop .plus _ (.const _), _ => lone
  | _, _, _ => false

/-- `scan2`. -/
def scan2 (item : Expr) : Expr → BinTag → Reducer Found
  | .binop t l r, op =>
      if op.compat t then do
        match ← scan2 item l op with
        | .gone =>
            if t = .minus then .into <$> ofOption .abort (exprUnop .neg r) else return .into r
        | .into newl =>
            let lone ← ask
            .into <$> ofOption .abort (exprBinop lone t newl r)
        | .kept =>
            match ← scan2 item r (t.under op) with
            | .gone => return .into l
            | .into newr =>
                -- here `l` belongs to the node that is scanned, and to all its owners
                let lone ← ask
                let shared ← ask
                noteIf (lifts lone t l newr && shared) .shared
                .into <$> ofOption .abort (exprBinop lone t l newr)
            | .kept => return .kept
      else scanPair item (.binop t l r) op
  | e, op => scanPair item e op

/-- The end of `scan1`: try to apply the term to the left subtree. -/
def scanItem (top e : Expr) (op : BinTag) : Reducer (Option Expr × Found) := do
  match ← scan2 e top op with
  | .kept => return (some top, .kept)
  | .gone => return (none, .gone)
  | .into newtopl => return (some newtopl, .gone)

/-- `scan1`: what is left of `scan_top`, and of `e`. -/
def scan1 : Option Expr → Expr → BinTag → Reducer (Option Expr × Found)
  | none, _, _ => return (none, .kept)
  | some top, .binop t l r, op =>
      if op.compat t then do
        let (top, newl) ← scan1 (some top) l op
        let (top, newr) ← scan1 top r (t.under op)
        if newl = .kept ∧ newr = .kept then return (top, .kept)
        match newl.expr l, newr.expr r with
        | none, none => return (top, .gone)
        | none, some newr =>
            noteIf (t == .minus) (.sign newr)
            return (top, .into newr)
        | some newl, none => return (top, .into newl)
        | some newl, some newr =>
            let lone ← ask
            let newe ← ofOption .abort (exprBinop lone t newl newr)
            return (top, .into newe)
      else scanItem top (.binop t l r) op
  | some top, e, op => scanItem top e op

/-- The last part of `expr_reduce`. -/
def reassociate : Expr → Reducer Expr
  | .binop t l r =>
      if t.scans then do
        let (newl, newr) ← scan1 (some l) r t
        match newl, newr.expr r with
        | none, none => return .const 0
        | none, some newr => return if t = .minus then .binop .minus (.const 0) newr else newr
        | some newl, none => return newl
        | some newl, some newr => return .binop t newl newr
      else return .binop t l r
  | e => return e

/-! ### The operators -/

/-- The value that stands for a missing operand. -/
def BinTag.neutral (op : BinTag) : Word := if op = .and then -1 else 0

example : BinTag.plus.compat .minus = true ∧ BinTag.minus.under .minus = .plus ∧
    BinTag.and.compat .or = false ∧ BinTag.mul.scans = false := by
  simp [BinTag.compat, BinTag.under, BinTag.scans]

section

variable {op t : BinTag}

theorem act_node (hop : op.scans = true) (h : op.compat t = true) (a b c : Word) :
    act op a (act t b c) = act (t.under op) (act op a b) c := by
  cases op <;> simp [BinTag.scans] at hop <;> cases t <;> simp [BinTag.compat] at h <;>
    simp only [act, eval, BinTag.under, Option.getD_some, if_true, reduceCtorEq, if_false] <;>
    first | ring | ac_rfl

theorem act_swap (hop : op.scans = true) (h : op.compat t = true) (a b c : Word) :
    act (t.under op) (act op a b) c = act op (act (t.under op) a c) b := by
  cases op <;> simp [BinTag.scans] at hop <;> cases t <;> simp [BinTag.compat] at h <;>
    simp only [act, eval, BinTag.under, Option.getD_some, if_true, reduceCtorEq, if_false] <;>
    first | ring | ac_rfl

theorem act_left (hop : op.scans = true) (h : op.compat t = true) (a b c : Word) :
    act op (act t a b) c = act t (act op a c) b := by
  cases op <;> simp [BinTag.scans] at hop <;> cases t <;> simp [BinTag.compat] at h <;>
    simp only [act, eval, Option.getD_some] <;>
    first | ring | ac_rfl

theorem act_right (hop : op.scans = true) (h : op.compat t = true) (a b c : Word) :
    act op (act t a b) c = act t a (act (t.under op) b c) := by
  cases op <;> simp [BinTag.scans] at hop <;> cases t <;> simp [BinTag.compat] at h <;>
    simp only [act, eval, BinTag.under, Option.getD_some, if_true, reduceCtorEq, if_false] <;>
    first | ring | ac_rfl

theorem act_neutral (hop : op.scans = true) (a : Word) : act op a op.neutral = a := by
  cases op <;> simp [BinTag.scans] at hop
  case and => exact BitVec.and_allOnes
  all_goals simp [act, eval, BinTag.neutral]

theorem act_zero (hop : op.scans = true) (h : op ≠ .and) (a : Word) : act op a 0 = a := by
  cases op <;> simp [BinTag.scans] at hop <;> simp_all [act, eval]

theorem zero_act (hop : op.scans = true) (h : op ≠ .and) (a : Word) :
    act op 0 a = if op = .minus then -a else a := by
  cases op <;> simp [BinTag.scans] at hop <;> simp_all [act, eval]

theorem neutral_act (hop : op.scans = true) (a : Word) :
    act op op.neutral a = if op = .minus then -a else a := by
  by_cases h : op = .and
  · subst h
    exact BitVec.allOnes_and
  · rw [BinTag.neutral, if_neg h, zero_act hop h]

theorem scans_of_compat (hop : op.scans = true) (h : op.compat t = true) :
    t.scans = true ∧ (t.under op).scans = true ∧ (t.under op).neutral = op.neutral ∧
      (t = .and ↔ op = .and) ∧ (t.under op = .and ↔ op = .and) := by
  cases op <;> simp [BinTag.scans] at hop <;> cases t <;> simp [BinTag.compat] at h <;> decide

theorem ne_of_scans (h : op.scans = true) : op ≠ .quest ∧ op ≠ .colon := by
  constructor <;> rintro rfl <;> cases h

theorem value_scans (h : op.scans = true) (ρ : Valuation) (s : Bool) (l r : Expr) :
    (Expr.binop op l r).value ρ s = act op (l.value ρ true) (r.value ρ true) := by
  cases op <;> simp [BinTag.scans] at h <;> exact Expr.value_binop rfl

end

/-! ### What the scans find -/

section

variable {ok : Risk → Prop} {α β : Type}

/-- The result satisfies `Q` if all that the run logs is `ok`; the store stays. -/
def Yields (ok : Risk → Prop) (x : Reducer α) (Q : α → Prop) : Prop :=
  ∀ m, Ensures ok (· = .abort) x (fun a m' => m'.store = m.store ∧ Q a) m

theorem yields_pure {a : α} {Q : α → Prop} (h : Q a) : Yields ok (pure a) Q := fun m => by
  simp [h]

theorem yields_bind {x : Reducer α} {f : α → Reducer β} {Q : α → Prop} {R : β → Prop}
    (hx : Yields ok x Q) (hf : ∀ a, Q a → Yields ok (f a) R) : Yields ok (x >>= f) R := fun m => by
  rw [Logged.ensures_bind]
  refine (hx m).mono fun a m' ha => (hf a ha.2 m').mono fun b m'' hb => ?_
  exact ⟨hb.1.trans ha.1, hb.2⟩

theorem yields_map {x : Reducer α} {f : α → β} {Q : α → Prop} {R : β → Prop}
    (hx : Yields ok x Q) (hf : ∀ a, Q a → R (f a)) : Yields ok (f <$> x) R := fun m => by
  rw [Logged.ensures_map]
  exact (hx m).mono fun a m' ha => ⟨ha.1, hf a ha.2⟩

theorem yields_ask : Yields ok ask fun _ => True := fun m => by
  simp [ask]

theorem yields_noteIf (b : Bool) (w : Risk) :
    Yields ok (noteIf b w) fun _ => b = true → ok w := fun m => by
  simp

theorem yields_ofOption (o : Option α) : Yields ok (ofOption .abort o) (o = some ·) := fun m => by
  simp

theorem Found.applied_pair (ρ : Valuation) (item e : Expr) {op : BinTag} (hop : op.scans = true) :
    Yields ok (scanPair item e op) (Found.Applied ρ op e item) := by
  unfold scanPair
  split
  · next c d =>
      refine yields_map (yields_ofOption _) fun x hx => ?_
      obtain ⟨y, hy, rfl⟩ := Option.map_eq_some_iff.mp hx
      refine ⟨?_, fun P _ _ => .const y⟩
      rw [Expr.value_const, Expr.value_const, Expr.value_const, act, hy, Option.getD_some]
  · refine yields_bind yields_ask fun ptr _ => ?_
    split
    · next heq =>
        rw [Bool.and_eq_true, Bool.or_eq_true, beq_iff_eq, beq_iff_eq] at heq
        obtain rfl := eq_of_exprEqual heq.2
        refine yields_pure ⟨?_, ?_⟩
        · rcases heq.1 with rfl | rfl <;> decide
        · rcases heq.1 with rfl | rfl <;> simp [act, eval]
    · split
      · intro m
        exact (yields_ofOption _ m).mono fun f m' hf => ⟨hf.1, substractElsums_spec hf.2 ρ⟩
      · exact yields_pure trivial

theorem scan2_spec (ρ : Valuation) (item e : Expr) {op : BinTag} (hop : op.scans = true) :
    Yields ok (scan2 item e op) (Found.Applied ρ op e item) := by
  induction e generalizing op with
  | binop t l r ihl ihr =>
      rw [scan2]
      split
      · next hc =>
          obtain ⟨ht, hu, -, htand, huand⟩ := scans_of_compat hop hc
          obtain ⟨hq, hcol⟩ := ne_of_scans ht
          -- the operand on the left may take the item
          refine yields_bind (ihl hop) fun f hf => ?_
          cases f with
          | gone =>
              have hval : act op (act t (l.value ρ true) (r.value ρ true)) (item.value ρ true) =
                  if t = .minus then -r.value ρ true else r.value ρ true := by
                rw [act_left hop hc, hf.2, zero_act ht fun h => hf.1 (htand.mp h)]
              by_cases hm : t = .minus
              · subst hm
                refine yields_map (yields_ofOption _) fun x hx => ⟨?_, fun P hP _ => ?_⟩
                · rw [value_scans ht, hval, Expr.value_exprUnop hx]
                  simp [evalUn]
                · exact .exprUnop (hP.right_of_ne hq) hx
              · dsimp only
                rw [if_neg hm]
                refine yields_pure ⟨?_, fun P hP _ => hP.right_of_ne hq⟩
                rw [value_scans ht, hval, if_neg hm]
          | into newl =>
              refine yields_bind yields_ask fun lone _ => ?_
              refine yields_map (yields_ofOption _) fun x hx => ⟨?_, fun P hP hi => ?_⟩
              · rw [Expr.value_exprBinop hx, value_scans ht, value_scans ht, hf.1, act_left hop hc]
              · exact .exprBinop hq hcol (hf.2 P hP.left hi) (hP.right_of_ne hq) hx
          | kept =>
              -- else the one on the right
              refine yields_bind (ihr hu) fun f hf => ?_
              cases f with
              | gone =>
                  refine yields_pure ⟨?_, fun P hP _ => hP.left⟩
                  rw [value_scans ht, act_right hop hc, hf.2,
                    act_zero ht fun h => hf.1 (huand.mpr (htand.mp h))]
              | into newr =>
                  refine yields_bind yields_ask fun lone _ => ?_
                  refine yields_bind yields_ask fun shared _ => ?_
                  refine yields_bind (yields_noteIf _ _) fun _ _ => ?_
                  refine yields_map (yields_ofOption _) fun x hx => ⟨?_, fun P hP hi => ?_⟩
                  · rw [Expr.value_exprBinop hx, value_scans ht, value_scans ht, hf.1,
                      act_right hop hc]
                  · exact .exprBinop hq hcol hP.left (hf.2 P (hP.right_of_ne hq) hi) hx
              | kept => exact yields_pure trivial
      · exact Found.applied_pair ρ item _ hop
  | _ => exact Found.applied_pair ρ item _ hop

/-- What is left of both subtrees denotes, with the operator between them, what they denoted. -/
def Moved (ok : Risk → Prop) (ρ : Valuation) (op : BinTag) (top : Option Expr) (e : Expr)
    (top' : Option Expr) (f : Found) : Prop :=
  ((∀ w, ok w → w.Ok ρ) → act op (top'.elim op.neutral (Expr.value ρ true))
      ((f.expr e).elim op.neutral (Expr.value ρ true)) =
    act op (top.elim op.neutral (Expr.value ρ true)) (e.value ρ true)) ∧
  (op = .and → top.isSome → top'.isSome) ∧
  ∀ P, (∀ x, top = some x → Built P false x) → Built P false e →
    (∀ x, top' = some x → Built P false x) ∧ ∀ x, f.expr e = some x → Built P false x

theorem moved_refl (ρ : Valuation) (op : BinTag) (top : Option Expr) (e : Expr) :
    Moved ok ρ op top e top .kept := by
  refine ⟨fun _ => rfl, fun _ h => h, fun P ht he => ⟨ht, fun x hx => ?_⟩⟩
  cases hx
  exact he

theorem scanItem_spec (ρ : Valuation) (top e : Expr) {op : BinTag} (hop : op.scans = true) :
    Yields ok (scanItem top e op) fun r => Moved ok ρ op (some top) e r.1 r.2 := by
  refine yields_bind (scan2_spec ρ e top hop) fun f hf => ?_
  cases f with
  | kept => exact yields_pure (moved_refl ρ op _ e)
  | gone =>
      refine yields_pure ⟨fun _ => ?_, fun h => absurd h hf.1, fun P _ _ => ?_⟩
      · simp only [Option.elim_some, hf.2, Found.expr, Option.elim_none]
        rw [act_neutral hop, BinTag.neutral, if_neg hf.1]
      · exact ⟨fun _ h => (by cases h), fun _ h => (by cases h)⟩
  | into e' =>
      refine yields_pure ⟨fun _ => ?_, fun _ _ => rfl, fun P ht he => ?_⟩
      · simp only [Option.elim_some, hf.1, Found.expr, Option.elim_none]
        rw [act_neutral hop]
      · refine ⟨fun x hx => ?_, fun x hx => by cases hx⟩
        cases hx
        exact hf.2 P (ht _ rfl) he

theorem scan1_spec (ρ : Valuation) (e : Expr) {op : BinTag} (hop : op.scans = true) (top : Option Expr) :
    Yields ok (scan1 top e op) fun r => Moved ok ρ op top e r.1 r.2 := by
  induction e generalizing op top with
  | binop t l r ihl ihr =>
      rcases top with _ | top
      · exact yields_pure (moved_refl ρ op none _)
      rw [scan1]
      split
      · next hc =>
          obtain ⟨ht, hu, hneu, htand, huand⟩ := scans_of_compat hop hc
          obtain ⟨hq, hcol⟩ := ne_of_scans ht
          refine yields_bind (ihl hop (some top)) fun ⟨top1, newl⟩ hl => ?_
          refine yields_bind (ihr hu top1) fun ⟨top2, newr⟩ hr => ?_
          obtain ⟨hlv, hls, hlb⟩ := hl
          obtain ⟨hrv, hrs, hrb⟩ := hr
          dsimp only at *
          -- the two halves are moved one after the other
          have hval : (∀ w, ok w → w.Ok ρ) → act op (top2.elim op.neutral (Expr.value ρ true))
              (act t ((newl.expr l).elim op.neutral (Expr.value ρ true))
                ((newr.expr r).elim op.neutral (Expr.value ρ true))) =
              act op (top.value ρ true) (act t (l.value ρ true) (r.value ρ true)) := by
            intro hok
            rw [hneu] at hrv
            rw [act_node hop hc, act_node hop hc, act_swap hop hc, hrv hok, ← act_swap hop hc,
              hlv hok]
            rfl
          -- it is left to put what remains of them together
          have hmoved : ∀ f : Found,
              ((∀ w, ok w → w.Ok ρ) → (f.expr (.binop t l r)).elim op.neutral (Expr.value ρ true) =
                act t ((newl.expr l).elim op.neutral (Expr.value ρ true))
                  ((newr.expr r).elim op.neutral (Expr.value ρ true))) →
              (∀ P, (∀ x, newl.expr l = some x → Built P false x) →
                (∀ x, newr.expr r = some x → Built P false x) →
                ∀ x, f.expr (.binop t l r) = some x → Built P false x) →
              Moved ok ρ op (some top) (.binop t l r) top2 f := by
            refine fun f hf hb => ⟨fun hok => ?_, fun h _ => hrs (huand.mpr h) (hls h rfl), fun P hP he => ?_⟩
            · rw [hf hok, hval hok, value_scans ht]
              rfl
            · obtain ⟨h1, h2⟩ := hlb P hP he.left
              obtain ⟨h3, h4⟩ := hrb P h1 (he.right_of_ne hq)
              exact ⟨h3, hb P h2 h4⟩
          have hneutral : t.neutral = op.neutral := by simp only [BinTag.neutral, htand]
          split
          · next hkept =>
              obtain ⟨rfl, rfl⟩ := hkept
              refine yields_pure (hmoved .kept (fun _ => value_scans ht ρ true l r) fun P h1 h2 x hx => ?_)
              cases hx
              exact .binop hq hcol (h1 l rfl) (h2 r rfl)
          · rcases hl' : newl.expr l with _ | newl' <;> rcases hr' : newr.expr r with _ | newr' <;>
              rw [hl', hr'] at hmoved <;> dsimp only
            · refine yields_pure (hmoved .gone (fun _ => ?_) fun P _ _ x hx => (by cases hx))
              rw [← hneutral]
              exact (act_neutral ht _).symm
            · refine yields_bind (yields_noteIf _ _) fun _ hsign => ?_
              refine yields_pure (hmoved (.into newr') (fun hok => ?_) fun P _ h2 x hx => ?_)
              · rw [← hneutral, Option.elim_none, neutral_act ht]
                split
                · next hm => exact (hok _ (hsign (beq_iff_eq.mpr hm))).symm
                · rfl
              · cases hx
                exact h2 _ rfl
            · refine yields_pure (hmoved (.into newl') (fun _ => ?_) fun P h1 _ x hx => ?_)
              · rw [← hneutral]
                exact (act_neutral ht _).symm
              · cases hx
                exact h1 _ rfl
            · refine yields_bind yields_ask fun lone _ => ?_
              refine yields_bind (yields_ofOption _) fun newe he => ?_
              refine yields_pure (hmoved (.into newe) (fun _ => ?_) fun P h1 h2 x hx => ?_)
              · exact (Expr.value_exprBinop he true).trans (value_scans ht ρ true newl' newr')
              · cases hx
                exact .exprBinop hq hcol (h1 _ rfl) (h2 _ rfl) he
      · exact scanItem_spec ρ top _ hop
  | _ =>
      rcases top with _ | top
      · exact yields_pure (moved_refl ρ op none _)
      · exact scanItem_spec ρ top _ hop

/-- The expression is built from the same leaves, and under a condition denotes the same. -/
def Same (H : Prop) (ρ : Valuation) (e e' : Expr) : Prop :=
  (∀ P s, Built P s e → Built P s e') ∧
    (H → ∀ s, Built (fun _ => True) s e → ∀ sel, e'.value ρ sel = e.value ρ sel)

theorem same_refl (H : Prop) (ρ : Valuation) (e : Expr) : Same H ρ e e :=
  ⟨fun _ _ h => h, fun _ _ _ _ => rfl⟩

/-- Away from a `COLON` there is no selector to care about. -/
theorem same_of {H : Prop} {ρ : Valuation} {e e' : Expr} (hne : ∀ P, ¬Built P true e)
    (hb : ∀ P, Built P false e → Built P false e')
    (hval : H → e.Formed → e'.value ρ true = e.value ρ true) : Same H ρ e e' := by
  constructor
  · rintro P (_ | _) h
    · exact hb P h
    · exact absurd h (hne P)
  · rintro hok (_ | _) h sel
    · rw [(hb _ h).value_sel ρ sel true, h.value_sel ρ sel true, hval hok h]
    · exact absurd h (hne _)

theorem not_built_true {t : BinTag} (ht : t ≠ .colon) (P : Expr → Prop) (l r : Expr) :
    ¬Built P true (.binop t l r) := by
  rintro ⟨⟩
  exact ht rfl

/-- Putting what is left of the two subtrees together again. -/
theorem reassociate_spec (ρ : Valuation) (e : Expr) :
    Yields ok (reassociate e) (Same (∀ w, ok w → w.Ok ρ) ρ e) := by
  cases e with
  | binop t l r =>
      rw [reassociate]
      split
      · next ht =>
          obtain ⟨hq, hcol⟩ := ne_of_scans ht
          refine yields_bind (scan1_spec ρ r ht (some l)) fun ⟨newl, newr⟩ h => ?_
          obtain ⟨hval, hand, hbuilt⟩ := h
          dsimp only at *
          rw [Option.elim_some, ← value_scans ht ρ true l r] at hval
          have hparts : ∀ P, Built P false (.binop t l r) →
              (∀ x, newl = some x → Built P false x) ∧
                ∀ x, newr.expr r = some x → Built P false x := fun P h =>
            hbuilt P (fun x hx => by cases hx; exact h.left) (h.right_of_ne hq)
          generalize newr.expr r = right at *
          have hne : ∀ P, ¬Built P true (.binop t l r) := fun P => not_built_true hcol P l r
          rcases newl with _ | newl
          · have hna : t ≠ .and := fun h => by cases hand h rfl
            rcases right with _ | newr
            · refine yields_pure (same_of hne (fun P _ => .const 0) fun hok _ => ?_)
              rw [← hval hok, Expr.value_const, Option.elim_none, act_neutral ht, BinTag.neutral,
                if_neg hna]
            · refine yields_pure (same_of hne (fun P h => ?_) fun hok _ => ?_)
              · split
                · exact .binop (by decide) (by decide) (.const 0) ((hparts P h).2 _ rfl)
                · exact (hparts P h).2 _ rfl
              · rw [← hval hok, Option.elim_none, neutral_act ht, Option.elim_some]
                split
                · rw [Expr.value_minus, Expr.value_const, zero_sub]
                · rfl
          · rcases right with _ | newr
            · refine yields_pure (same_of hne (fun P h => (hparts P h).1 _ rfl) fun hok _ => ?_)
              rw [← hval hok, Option.elim_none, act_neutral ht, Option.elim_some]
            · refine yields_pure (same_of hne (fun P h => ?_) fun hok _ => ?_)
              · exact .binop hq hcol ((hparts P h).1 _ rfl) ((hparts P h).2 _ rfl)
              · rw [← hval hok, value_scans ht]
                rfl
      · exact yields_pure (same_refl _ ρ _)
  | _ => exact yields_pure (same_refl _ ρ _)

end

end Ttools
