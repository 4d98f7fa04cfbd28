import Ttools.Ast.Counter
import Ttools.Expr.Halt

/-!
# Alignment

`expr_check_alignment`, `emit_align` and `do_pending_alignment` on any boundary.  The check takes
the low bits of a value with a mask, which is right if the boundary is a power of two; the parser
asks only that it is a positive constant.

* `exprCheckAlignment_founded`: what the check says of an expression over names whose alignment
  the valuation keeps.
* `Level`: the names that the point of a fragment leads to keep their alignment.
* `alignment_works_iff`: the alignment is right if and only if the boundary is a power of two.
-/

namespace Ttools.Asm

open Support (Logged)
open Support.Logged

/-! ### Masks -/

section Masks

variable {a v w : Word}

theorem dvd_iff_and_pred (ha : Support.powerOfTwo a = true) :
    a.toNat ∣ v.toNat ↔ v &&& (a - 1) = 0 := by
  obtain ⟨k, hk, hk'⟩ := Support.toNat_of_powerOfTwo ha
  rw [← BitVec.toNat_inj, Support.toNat_and_mask hk', hk, Nat.dvd_iff_mod_eq_zero]
  simp

theorem toNat_and_pred (ha : Support.powerOfTwo a = true) :
    (v &&& (a - 1)).toNat = v.toNat % a.toNat := by
  obtain ⟨k, hk, hk'⟩ := Support.toNat_of_powerOfTwo ha
  rw [Support.toNat_and_mask hk', hk]

/-- What is missing to the next boundary may be counted at its low bits. -/
theorem dvd_add_gap (ha : Support.powerOfTwo a = true)
    (hw : w &&& (a - 1) = (a - v) &&& (a - 1)) : a.toNat ∣ (v + w).toNat := by
  have hmask := Support.mask_of_and_pred (Support.powerOfTwo_iff.mp ha).2
  rw [dvd_iff_and_pred ha, ← Support.and_mask_add hmask, hw, Support.and_mask_add hmask,
    add_sub_cancel]
  exact (Support.powerOfTwo_iff.mp ha).2

end Masks

/-! ### The check -/

section Check

variable {st : Store} {ρ : Valuation} {N : NameId → Prop} {a : Word}

/-- Names that lead to each other only, which the valuation gives their values and alignment. -/
structure Founded (st : Store) (ρ : Valuation) (N : NameId → Prop) : Prop where
  value : ∀ np v, N np → st.localVal np = some v → ρ.name np = v.value ρ true
  closed : ∀ np v, N np → st.localVal np = some v → ∀ n, v.Mentions n → N n
  pow : ∀ np, N np → Support.powerOfTwo (st.name np).align = true
  aligned : ∀ np, N np → (st.name np).align.toNat ∣ (ρ.name np).toNat

theorem checkAlignment_congr (name name' : NameId → Reducer Word) (e : Expr)
    (h : ∀ n, e.Mentions n → name n = name' n) :
    checkAlignment name a e = checkAlignment name' a e := by
  induction e with
  | name np => exact h np rfl
  | binop t l r ihl ihr =>
      have hl := ihl fun n hn => h n (.inl hn)
      have hr := ihr fun n hn => h n (.inr hn)
      cases t <;> simp only [checkAlignment, hl, hr]
  | _ => rfl

open Classical in
theorem exprCheckAlignment_founded (hst : Founded st ρ N) (ha : Support.powerOfTwo a = true)
    (fuel : Nat) {e : Expr} (he : ∀ n, e.Mentions n → N n) {m : Memory} (hm : m.store = st) :
    Ensures (fun _ => True) (fun _ => True) (exprCheckAlignment fuel a e)
      (fun off m' => m'.store = st ∧ Offset ρ a e off) m := by
  obtain ⟨hpos, hmask⟩ := Support.powerOfTwo_iff.mp ha
  induction fuel generalizing e m with
  | zero => exact ensures_stop.mpr trivial
  | succ fuel ih =>
      -- the names that are not founded are not asked for
      rw [exprCheckAlignment, checkAlignment_congr _ (fun np =>
        if N np then checkName (exprCheckAlignment fuel a) a np else pure a) e fun n hn => by
          rw [if_pos (he n hn)]]
      refine (checkAlignment_spec True hmask (fun np m (hm : m.store = st) => ?_) e m hm).mono
        fun _ _ h => ⟨h.1, h.2 trivial⟩
      split
      · next hnp =>
          refine ensures_bind.mpr (ensures_get.mpr ?_)
          split
          · next hknown =>
              rw [hm] at hknown
              refine ensures_bind.mpr (ensures_noteIf.mpr fun _ => ensures_pure.mpr ⟨hm, fun _ => ?_⟩)
              refine .inr ?_
              rw [Expr.value_name]
              exact (Support.and_pred_eq_zero ha (hst.pow np hnp) hknown.2 (hst.aligned np hnp)).symm
          · rw [hm]
            split
            · next v hv =>
                refine (ih (hst.closed np v hnp hv) hm).mono fun off m' h => ⟨h.1, fun _ => ?_⟩
                rw [Offset, Expr.value_name, hst.value np v hnp hv]
                exact h.2
            · exact ensures_pure.mpr ⟨hm, fun _ => .inl rfl⟩
      · exact ensures_pure.mpr ⟨hm, fun _ => .inl rfl⟩

theorem Founded.offset (hst : Founded st ρ N) (ha : Support.powerOfTwo a = true) {fuel : Nat}
    {e : Expr} (he : ∀ n, e.Mentions n → N n) {m m' : Memory} (hm : m.store = st) {r : Word}
    (hr : (exprCheckAlignment fuel a e m).1 = .ok (r, m')) : Offset ρ a e r := by
  have h := exprCheckAlignment_founded hst ha fuel he hm
  rw [Ensures, hr] at h
  exact (h fun _ _ => trivial).2

end Check

/-! ### The names of a point -/

variable {seg : String} {f : NameId} {els : List ElemId} {ns : NameId → Prop} {s s' : Assembler}

/-- The point leads to the names `ns`: the fragment, and names that lead to each other.  Where the
fragment is placed at a multiple of its alignment, so are they. -/
structure Level (seg : String) (f : NameId) (els : List ElemId) (ns : NameId → Prop)
    (s : Assembler) : Prop where
  val : s.val f = none
  fragment : s.fragment f = true
  start : ns f
  names : ∀ n, ns n → n ≠ f → ∃ v, s.store.localVal n = some v ∧ ∀ m, v.Mentions m → ns m
  point : ∀ x n, s.segments seg = some x → x.point.Mentions n → ns n
  pow : ∀ n, ns n → Support.powerOfTwo (s.store.name n).align = true
  aligned : ∀ ρ, s.Names ρ → s.Sized els ρ →
    (s.store.name f).align.toNat ∣ (ρ.name f).toNat →
    ∀ n, ns n → (s.store.name n).align.toNat ∣ (ρ.name n).toNat

theorem Level.founded (h : Level seg f els ns s) {ρ : Valuation} (hρ : s.Names ρ)
    (hsize : s.Sized els ρ) (hf : (s.store.name f).align.toNat ∣ (ρ.name f).toNat) :
    Founded s.store ρ ns where
  value np v _ hv := hρ np v hv
  closed np v hnp hv n hn := by
    have hne : np ≠ f := by
      rintro rfl
      rw [localVal_eq_none h.val] at hv
      cases hv
    obtain ⟨v', hv', hns⟩ := h.names np hnp hne
    obtain rfl := Option.some.inj (hv.symm.trans hv')
    exact hns n hn
  pow := h.pow
  aligned := h.aligned ρ hρ hsize hf

/-- The names are as they were, and the point leads to no other. -/
theorem Level.keep (h : Level seg f els ns s) {els' : List ElemId}
    (hname : ∀ n, ns n → s'.store.name n = s.store.name n) (hfrag : s'.fragment f = true)
    (hpoint : ∀ x' n, s'.segments seg = some x' → x'.point.Mentions n →
      ∃ x, s.segments seg = some x ∧ x.point.Mentions n)
    (hnames : ∀ ρ, s'.Names ρ → s.Names ρ) (hsized : ∀ ρ, s'.Sized els' ρ → s.Sized els ρ) :
    Level seg f els' ns s' where
  val := (congrArg Name.val (hname f h.start)).trans h.val
  fragment := hfrag
  start := h.start
  names n hn hne := by
    rw [Store.localVal, hname n hn]
    exact h.names n hn hne
  point x' n hx' hn := by
    obtain ⟨x, hx, hn'⟩ := hpoint x' n hx' hn
    exact h.point x n hx hn'
  pow n hn := by
    rw [hname n hn]
    exact h.pow n hn
  aligned ρ hρ hsize hf n hn := by
    rw [hname n hn]
    rw [hname f h.start] at hf
    exact h.aligned ρ (hnames ρ hρ) (hsized ρ hsize) hf n hn

/-- The point has got a name of its own. -/
theorem Level.rebase (h : Level seg f els ns s) {els' : List ElemId} {a : Word} {v : Expr}
    {np : NameId} (ha : Support.powerOfTwo a = true)
    (hfresh : s.val np = none ∧ s.fragment np = false)
    (hname : s'.store.name = Function.update s.store.name np ⟨some v, a, false⟩)
    (hfrag : s'.fragment f = true) (hv : ∀ n, v.Mentions n → ns n)
    (hpoint : ∀ x', s'.segments seg = some x' → x'.point = .name np)
    (hsized : ∀ ρ, s'.Sized els' ρ → s.Sized els ρ)
    (hmult : ∀ ρ, s'.Names ρ → s'.Sized els' ρ → Founded s.store ρ ns → a.toNat ∣ (ρ.name np).toNat) :
    Level seg f els' (fun n => ns n ∨ n = np) s' := by
  have hne : ∀ n, ns n → n ≠ np := by
    rintro n hn rfl
    by_cases hf : n = f
    · subst hf
      exact Bool.noConfusion (hfresh.2.symm.trans h.fragment)
    · obtain ⟨w, hw, -⟩ := h.names n hn hf
      rw [localVal_eq_none hfresh.1] at hw
      cases hw
  have hold : ∀ n, ns n → s'.store.name n = s.store.name n := fun n hn => by
    rw [hname, Function.update_of_ne (hne n hn)]
  have hnew : s'.store.name np = ⟨some v, a, false⟩ := by rw [hname, Function.update_self]
  have hnames : ∀ ρ, s'.Names ρ → s.Names ρ := fun ρ hρ n w hw => hρ n w (by
    have hn : n ≠ np := by
      rintro rfl
      rw [localVal_eq_none hfresh.1] at hw
      cases hw
    rw [Store.localVal, hname, Function.update_of_ne hn]
    exact hw)
  refine ⟨(congrArg Name.val (hold f h.start)).trans h.val, hfrag, .inl h.start, ?_, ?_, ?_, ?_⟩
  · rintro n (hn | rfl) hnf
    · obtain ⟨w, hw, hm⟩ := h.names n hn hnf
      exact ⟨w, by rw [Store.localVal, hold n hn]; exact hw, fun m hm' => .inl (hm m hm')⟩
    · exact ⟨v, by rw [Store.localVal, hnew]; rfl, fun m hm => .inl (hv m hm)⟩
  · intro x n hx hn
    rw [hpoint x hx] at hn
    exact .inr hn.symm
  · rintro n (hn | rfl)
    · rw [hold n hn]
      exact h.pow n hn
    · rw [hnew]
      exact ha
  · intro ρ hρ hsize hf n hn
    rw [hold f h.start] at hf
    have hfounded := h.founded (hnames ρ hρ) (hsized ρ hsize) hf
    rcases hn with hn | rfl
    · rw [hold n hn]
      exact hfounded.aligned n hn
    · rw [hnew]
      exact hmult ρ hρ hsize hfounded

/-! ### Padding -/

section Padding

variable {a shift : Word} {point : Expr} {ρ : Valuation} {R S : Valuation → Prop} {ps : List Body}
  {pt pt' : Valuation → Word} {fuel : Nat}

/-- Where the low bits are known, or counted from the point, the next byte is on the boundary. -/
theorem Padded.dvd (hp : Padded a shift point pt pt' S) (ha : Support.powerOfTwo a = true)
    (hoff : Offset ρ a point shift) (hpt : point.value ρ true = pt ρ) (hS : S ρ) :
    a.toNat ∣ (pt' ρ).toNat := by
  obtain ⟨hpos, hand⟩ := Support.powerOfTwo_iff.mp ha
  have hmask := Support.mask_of_and_pred hand
  rw [Offset, hpt] at hoff
  cases hp with
  | none hs hp =>
      rw [hp, dvd_iff_and_pred ha, ← hoff.resolve_left ?_, hs]
      rintro rfl
      rw [hs] at hpos
      cases hpos
  | known hs hp =>
      have hshift := hoff.resolve_left (by
        rintro rfl
        rw [BitVec.slt_iff_toInt_lt] at hs
        exact lt_irrefl _ hs)
      rw [hp]
      refine dvd_add_gap ha ?_
      rw [← Support.and_mask_sub hmask, hshift, BitVec.and_assoc, BitVec.and_self,
        Support.and_mask_sub hmask]
  | counted hp =>
      rw [hp ρ hS, hpt]
      refine dvd_add_gap ha ?_
      rw [BitVec.and_assoc, BitVec.and_self]

/-- The fragment `f` of the segment is being filled, and its point is level. -/
def Based (seg : String) (f : NameId) (s : Assembler) : Prop :=
  ∃ els ps pt ns, Tally seg f s.Names (s.Sized els) els ps pt (fun _ => 0) s ∧ Level seg f els ns s

/-- The next byte is on the boundary, wherever the fragment is placed and whatever sizes its
elements get. -/
def AlignsTo (seg : String) (f : NameId) (a : Word) (s : Assembler) : Prop :=
  ∀ x fs els, s.segments seg = some x → x.fragments = fs ++ [⟨f, els⟩] → ∀ ρ, s.Names ρ →
    s.Sized els ρ → (s.store.name f).align.toNat ∣ (ρ.name f).toNat →
    a.toNat ∣ (ρ.name f + s.total ρ els).toNat

/-- The names and sizes of the past hold from now on. -/
theorem Tally.rebased (h : Tally seg f R S els ps pt (fun _ => 0) s) :
    Tally seg f s.Names (s.Sized els) els ps pt (fun _ => 0) s :=
  { h with names := fun _ hρ => hρ, sized := fun _ hρ => hρ }

theorem Tally.alignsTo (h : Tally seg f R S els ps pt (fun _ => 0) s)
    (hd : ∀ ρ, s.Names ρ → s.Sized els ρ →
      (s.store.name f).align.toNat ∣ (ρ.name f).toNat → a.toNat ∣ (pt ρ).toNat) :
    AlignsTo seg f a s := by
  intro x fs els' hx hf ρ hρ hsize hplace
  obtain ⟨y, fs', hy, hf', -⟩ := h.segment
  obtain rfl := Option.some.inj (hx.symm.trans hy)
  have hlast := congrArg List.getLast? (hf.symm.trans hf')
  obtain rfl : els' = els := by simpa using hlast
  rw [← h.count ρ hρ, add_zero]
  exact hd ρ hρ hsize hplace

/-- The point stays level under the emit functions. -/
theorem Level.grows (h : Level seg f els ns s) {els' : List ElemId} (hg : Grows s s')
    (hsized : ∀ ρ, s'.Sized els' ρ → s.Sized els ρ) : Level seg f els' ns s' := by
  refine h.keep (fun n _ => by rw [hg.name]) (by rw [hg.fragment, h.fragment]) ?_
    (fun ρ => names_of_name hg.name) hsized
  intro x' n hx' hn
  obtain ⟨x, hx, -, hm, -⟩ := hg.segment seg x' hx'
  exact ⟨x, hx, hm n hn⟩

theorem Call.exec_grows (seg : String) {c : Call} (hc : ∀ a filler, c ≠ .pending a filler) :
    GrowsBy (c.exec fuel seg) := by
  cases c with
  | block bytes => exact emitBlock_grows seg bytes
  | cmd opcode arg => exact emitCmd_grows fuel seg opcode arg
  | data width value count => exact emitData_grows fuel seg width value count
  | align a filler => exact (emitAlign_grows fuel seg a filler).bind fun _ => growsBy_pure _
  | pending a filler => exact absurd rfl (hc a filler)

/-- Padding brings the next byte to the boundary. -/
theorem Based.align (h : Based seg f s) (ha : Support.powerOfTwo a = true) (filler : Expr) :
    Goes ((Call.align a filler).exec fuel seg) (fun _ s' => Based seg f s' ∧ AlignsTo seg f a s') s := by
  obtain ⟨els, ps, pt, ns, ht, hl⟩ := h
  obtain ⟨x, fs, hx, -⟩ := ht.segment
  refine .bind (((tally_emitAlign ht hx fuel a filler).and (emitAlign_grows fuel seg a filler s)).mono
    fun _ s' h' => goes_pure ?_)
  obtain ⟨⟨els', p, pt', shift, m, hcheck, -, ht', hpad, -⟩, hg⟩ := h'
  refine ⟨⟨els', _, pt', ns, ht'.rebased, hl.grows hg ht'.sized⟩, ht'.alignsTo fun ρ hρ hsize hf => ?_⟩
  have hρ' := ht'.names ρ hρ
  rw [hg.name] at hf
  have hoff := (hl.founded hρ' (ht'.sized ρ hsize) hf).offset ha (hl.point x · hx) rfl hcheck
  exact hpad.dvd ha hoff (ht.point x ρ hx hρ') hsize

theorem Based.pending (h : Based seg f s) (ha : Support.powerOfTwo a = true) (filler : Expr) :
    Goes ((Call.pending a filler).exec fuel seg)
      (fun _ s' => Based seg f s' ∧ AlignsTo seg f a s') s := by
  obtain ⟨els, ps, pt, ns, ht, hl⟩ := h
  obtain ⟨x, fs, hx, -⟩ := ht.segment
  refine (tally_pending ht hx fuel a filler).mono fun _ s' h' => ?_
  obtain ⟨els', p, pt', shift, m, hcheck, -, ht', hpad, hre⟩ := h'
  have hdvd : ∀ ρ, s'.Names ρ → s'.Sized els' ρ → Founded s.store ρ ns → a.toNat ∣ (pt' ρ).toNat :=
    fun ρ hρ hsize hfounded => hpad.dvd ha (hfounded.offset ha (hl.point x · hx) rfl hcheck)
      (ht.point x ρ hx (ht'.names ρ hρ)) hsize
  refine ⟨?_, ht'.alignsTo fun ρ hρ hsize hf => hdvd ρ hρ hsize ?_⟩
  · cases hre with
    | same hname hfrag hp =>
        refine ⟨els', _, pt', ns, ht'.rebased, hl.keep (fun n _ => by rw [hname])
          (by rw [hfrag, hl.fragment]) (fun y n hy hn => ⟨x, hx, hp y n hy hn⟩) ht'.names ht'.sized⟩
    | named v hname hfrag hv hp =>
        have hfresh := ht.inv.fresh s.nonames le_rfl
        obtain ⟨y, -, hy, -⟩ := ht'.segment
        refine ⟨els', _, pt', _, ht'.rebased, hl.rebase ha hfresh hname (hfrag f hl.fragment)
          (fun n hn => hl.point x n hx (hv n hn)) hp ht'.sized fun ρ hρ hsize hfounded => ?_⟩
        have hvalue := ht'.point y ρ hy hρ
        rw [hp y hy, Expr.value_name] at hvalue
        rw [hvalue]
        exact hdvd ρ hρ hsize hfounded
  · refine hl.founded (ht'.names ρ hρ) (ht'.sized ρ hsize) ?_
    cases hre with
    | same hname => rwa [hname] at hf
    | named v hname =>
        have hne : f ≠ noname s.nonames := by
          rintro rfl
          exact Bool.noConfusion ((ht.inv.fresh s.nonames le_rfl).2.symm.trans hl.fragment)
        rwa [hname, Function.update_of_ne hne] at hf

/-! ### Runs -/

theorem Based.call (h : Based seg f s) (c : Call)
    (hc : ∀ a filler, c = .pending a filler → Support.powerOfTwo a = true) :
    Goes (c.exec fuel seg) (fun _ s' => Based seg f s') s := by
  by_cases hp : ∃ a filler, c = .pending a filler
  · obtain ⟨a, filler, rfl⟩ := hp
    exact (h.pending (hc a filler rfl) filler).mono fun _ _ h' => h'.1
  · obtain ⟨els, ps, pt, ns, ht, hl⟩ := h
    obtain ⟨x, fs, hx, -⟩ := ht.segment
    have hgrows : GrowsBy (c.exec fuel seg) :=
      Call.exec_grows seg fun a filler h => hp ⟨a, filler, h⟩
    refine ((Call.exec_goes ht hx fuel c).and (hgrows s)).mono fun _ s' h' => ?_
    obtain ⟨⟨els', p, pt', -, ht'⟩, hg⟩ := h'
    exact ⟨els', _, pt', ns, ht'.rebased, hl.grows hg ht'.sized⟩

theorem Based.undisturbed (h : Based seg f s) (hu : Undisturbed seg s s') : Based seg f s' := by
  obtain ⟨els, ps, pt, ns, ht, hl⟩ := h
  have ht' := ht.undisturbed hu
  refine ⟨els, ps, pt, ns, ht'.rebased, hl.keep (fun n hn => ?_) (hu.fragment f hl.fragment).1
    (fun x' n hx' hn => ?_) ht'.names ht'.sized⟩
  · by_cases hf : n = f
    · subst hf
      exact (hu.fragment n hl.fragment).2
    · obtain ⟨v, hv, -⟩ := hl.names n hn hf
      exact hu.names n v hv
  · obtain ⟨x, fs, hx, -⟩ := ht.segment
    obtain ⟨y, hy, -, -, hp⟩ := hu.segment x hx
    obtain rfl := Option.some.inj (hx'.symm.trans hy)
    exact ⟨x, hx, hp ▸ hn⟩

theorem Begun.based (h : Begun seg f s) (hf : Support.powerOfTwo (s.store.name f).align = true) :
    Based seg f s := by
  refine ⟨[], [], _, (· = f), h.tally, h.val, h.fragment, rfl, fun n hn hne => absurd hn hne,
    fun x n hx hn => ?_, ?_, ?_⟩
  · obtain ⟨y, fs, hy, -, -, hp, -⟩ := h.segment
    obtain rfl := Option.some.inj (hx.symm.trans hy)
    rw [hp] at hn
    exact hn.symm
  · rintro n rfl
    exact hf
  · rintro ρ - - hplace n rfl
    exact hplace

/-- The boundaries that are pending when the calls come are powers of two. -/
def PowersOfTwo (cs : List (Segment × Call)) : Prop :=
  ∀ xc ∈ cs, ∀ a filler, xc.2 = .pending a filler → Support.powerOfTwo a = true

theorem Filling.based {cs : List (Segment × Call)} (h : Filling fuel seg s cs s')
    (hb : Based seg f s) (hcs : PowersOfTwo cs) : Based seg f s' := by
  induction h with
  | start => exact hb
  | @call cs s₁ s₂ x c _ hx hrun ih =>
      have h₁ := ih fun xc hxc => hcs xc (List.mem_append_left _ hxc)
      have hc := hcs (x, c) (by simp)
      have hgoes : Goes (c.exec fuel seg) (fun _ s' => Based seg f s') s₁ := h₁.call c hc
      obtain ⟨-, h₂⟩ := hgoes.ended.2 s₂ (by rw [hrun]; rfl)
      exact h₂
  | other _ hu ih => exact (ih hcs).undisturbed hu

/-- What is expected of alignment at the boundary `a`, when the boundaries that come before it, and
with them the alignments of the names, are such as `before` says: the check tells the low bits of an
expression, and after padding the next byte is on the boundary. -/
structure AlignmentWorks (before : Word → Prop) (a : Word) : Prop where
  check : ∀ (st : Store) (ρ : Valuation), (∀ np, before (st.name np).align) →
    (∀ np v, st.localVal np = some v → ρ.name np = v.value ρ true) →
    (∀ np, (st.name np).align.toNat ∣ (ρ.name np).toNat) →
    ∀ fuel e m r m', m.store = st → (exprCheckAlignment fuel a e m).1 = .ok (r, m') →
      r.slt a = true → (e.value ρ true).toNat % a.toNat = r.toNat % a.toNat
  run : ∀ fuel seg f s cs s' c filler s'', Begun seg f s → before (s.store.name f).align →
    (∀ xc ∈ cs, ∀ b filler, xc.2 = .pending b filler → before b) →
    Filling fuel seg s cs s' → (c = .align a filler ∨ c = .pending a filler) →
    (Call.exec fuel seg c s').1 = .ok ((), s'') → AlignsTo seg f a s''

theorem pos_toNat (ha : (0 : Word).slt a = true) : 0 < a.toNat ∧ a.toNat < 2 ^ 31 := by
  rw [BitVec.slt_iff_toInt_lt, BitVec.toInt_eq_toNat_cond a] at ha
  have hlt := a.isLt
  have hzero : (0 : Word).toInt = 0 := rfl
  split at ha <;> omega

theorem slt_of_toNat_lt {r : Word} (ha : a.toNat < 2 ^ 31) (hr : r.toNat < a.toNat) :
    r.slt a = true := by
  rw [BitVec.slt_iff_toInt_lt, BitVec.toInt_eq_toNat_of_lt (by omega),
    BitVec.toInt_eq_toNat_of_lt (by omega)]
  exact_mod_cast hr

/-- Where the boundaries before it are powers of two, the alignment is right if and only if the
boundary is one. -/
theorem alignment_works_iff {before : Word → Prop} (hone : before 1)
    (hbefore : ∀ b, before b → Support.powerOfTwo b = true) (ha : (0 : Word).slt a = true) :
    AlignmentWorks before a ↔ Support.powerOfTwo a = true := by
  obtain ⟨hpos, hlt⟩ := pos_toNat ha
  constructor
  · -- the boundary itself is a multiple of the boundary
    intro h
    have hand : (a &&& (a - 1)).toNat < a.toNat := by
      have hsub : (a - 1).toNat = a.toNat - 1 := by
        rw [BitVec.toNat_sub_of_le (by rw [BitVec.le_def]; exact hpos)]
        rfl
      have := Nat.and_le_right (n := a.toNat) (m := (a - 1).toNat)
      rw [BitVec.toNat_and]
      omega
    have hmod := h.check .unknown .ones (fun _ => hone) (by simp [Store.unknown, Store.localVal])
      (fun _ => one_dvd _) 1 (.const a) .unknown _ _ rfl rfl (slt_of_toNat_lt hlt hand)
    rw [Expr.value_const, Nat.mod_self, Nat.mod_eq_of_lt hand] at hmod
    exact Support.powerOfTwo_iff.mpr ⟨ha, BitVec.eq_of_toNat_eq hmod.symm⟩
  · intro hpow
    refine ⟨fun st ρ hst hval hplace fuel e m r m' hm hr hra => ?_,
      fun fuel seg f s cs s' c filler s'' hb hf hcs hfill hc hrun => ?_⟩
    · have hfounded : Founded st ρ fun _ => True :=
        ⟨fun np v _ => hval np v, fun _ _ _ _ _ _ => trivial, fun np _ => hbefore _ (hst np),
          fun np _ => hplace np⟩
      rcases hfounded.offset hpow (fun _ _ => trivial) hm hr with rfl | rfl
      · rw [BitVec.slt_iff_toInt_lt] at hra
        exact absurd hra (lt_irrefl _)
      · rw [toNat_and_pred hpow, Nat.mod_mod]
    · have hpowers : PowersOfTwo cs := fun xc hxc b filler h => hbefore b (hcs xc hxc b filler h)
      have hbased := hfill.based (hb.based (hbefore _ hf)) hpowers
      have hended : ((c.exec fuel seg) s').1.map (·.2) = .ok s'' := by
        rw [hrun]
        rfl
      rcases hc with rfl | rfl
      · obtain ⟨-, -, h⟩ := (hbased.align hpow filler).ended.2 s'' hended
        exact h
      · obtain ⟨-, -, h⟩ := (hbased.pending hpow filler).ended.2 s'' hended
        exact h

theorem alignment_works_iff_four :
    AlignmentWorks (fun b => b = 1 ∨ b = 4) 4 ↔ Support.powerOfTwo (4 : Word) = true :=
  alignment_works_iff (.inl rfl) (by rintro b (rfl | rfl) <;> decide) (by decide)

/-- Three bytes into a fragment whose alignment is 4, the check says that the point is two bytes
past a multiple of 3. -/
theorem alignment_fails_three : ¬∀ a : Word, (0 : Word).slt a = true →
    AlignmentWorks (fun b => Support.powerOfTwo b = true) a := fun h => by
  have hcheck := (h 3 (by decide)).check ⟨fun _ => ⟨none, 4, true⟩, fun _ => ⟨.const 0, .block []⟩⟩
    ⟨fun _ => 0, fun _ => 0, fun lo _ => lo⟩
    (fun _ => show Support.powerOfTwo (4 : Word) = true by decide) (by simp [Store.localVal])
    (fun _ => dvd_zero _) 1 (.binop .plus (.name 0) (.const 3)) ⟨_, fun _ => true⟩ 2 _ rfl rfl
    (by decide)
  rw [Expr.value_plus, Expr.value_name, Expr.value_const] at hcheck
  revert hcheck
  decide

end Padding

end Ttools.Asm
