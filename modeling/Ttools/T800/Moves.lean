import Mathlib.Data.BitVec
import Ttools.Support.Machine
import Ttools.T800.Exotic

/-!
# The list that is changed

What a list of insns does before and after the pass `exotic`.  What an insn computes is a
parameter; that no pattern of the machine description stores an operand which the pass chooses is
the assumption.

* `changed_simulates`: the list that is changed does the same.
* `exotic_iff`: when it takes no pseudo through two operands and does the same.
-/

namespace Ttools.T800.Exotic

open Support

/-! ### What the list does -/

/-- The registers and the memory. -/
structure Store (V M : Type) where
  regs : Nat → V
  mem : M

/-- What an insn is given: the values of its operands and duplicates, the hard registers and the
memory. -/
structure Given (V M : Type) where
  operands : List V
  dups : List V
  hard : Fin firstPseudo → V
  mem : M

/-- What an insn leaves: what is stored in operands and duplicates, the hard registers and the
memory, and the label of a jump. -/
structure Outcome (V M : Type) where
  operands : Nat → Option V
  dups : Nat → Option V
  hard : Fin firstPseudo → V
  mem : M
  jump : Option Nat

/-- The values, and what the patterns of the machine description mean. -/
structure Semantics (V M : Type) where
  part : Nat → V → V
  withPart : Nat → V → V → V
  load : M → V → V
  store : M → V → V → M
  plus : V → V → V
  const : Int → V
  effect : Nat → Given V M → Outcome V M

section

variable {V M : Type} (sem : Semantics V M)

/-- The value of an operand. -/
def read (s : Store V M) : Rtx → V
  | .reg r => s.regs r
  | .subreg x w => sem.part w (read s x)
  | .mem a => sem.load s.mem (read s a)
  | .plus x y => sem.plus (read s x) (read s y)
  | .const n => sem.const n

/-- An operand is stored; addresses are those from before the insn. -/
def assign (before : Store V M) : Rtx → V → Store V M → Store V M
  | .reg r, v, s => { s with regs := Function.update s.regs r v }
  | .subreg x w, v, s => assign before x (sem.withPart w (read sem s x) v) s
  | .mem a, v, s => { s with mem := sem.store s.mem (read sem before a) v }
  | .plus _ _, _, s => s
  | .const _, _, s => s

/-- What is stored in the operands, one after the other. -/
def assignAll (before : Store V M) (ys : List Rtx) (vals : Nat → Option V) (s : Store V M) :
    Store V M :=
  (List.range ys.length).foldl
    (fun s k => ((vals k).bind fun v => (ys[k]?).map fun y => assign sem before y v s).getD s) s

/-- One insn. -/
def exec (x : Insn) (s : Store V M) : Store V M × Option Nat :=
  let ys := x.operands.map (·.rtx)
  let zs := x.dups.map (·.2)
  let out := sem.effect x.code
    ⟨ys.map (read sem s), zs.map (read sem s), fun r => s.regs r, s.mem⟩
  let hard := fun r => if h : r < firstPseudo then out.hard ⟨r, h⟩ else s.regs r
  (assignAll sem s zs out.dups (assignAll sem s ys out.operands ⟨hard, out.mem⟩), out.jump)

/-- What is after a label. -/
def afterLabel (n : Nat) : List Item → List Item
  | [] => []
  | .label m :: l => if m = n then l else afterLabel n l
  | _ :: l => afterLabel n l

/-- One item; the list is left at its end, or by a jump to a label that is not in it. -/
def step (prog : List Item) (c : List Item × Store V M) :
    (List Item × Store V M) ⊕ Store V M :=
  match c with
  | ([], s) => .inr s
  | (.label _ :: l, s) => .inl (l, s)
  | (.move d r :: l, s) => .inl (l, { s with regs := Function.update s.regs d (s.regs r) })
  | (.skipped code :: l, s) =>
      let done := exec sem ⟨code, [], []⟩ s
      .inl ((done.2.map fun n => afterLabel n prog).getD l, done.1)
  | (.insn x :: l, s) =>
      let done := exec sem x s
      .inl ((done.2.map fun n => afterLabel n prog).getD l, done.1)

/-- The registers below `base` and the memory are the same. -/
def Agree (base : Nat) (s t : Store V M) : Prop :=
  (∀ r < base, s.regs r = t.regs r) ∧ s.mem = t.mem

/-- The pattern of an insn does not store the operand that is chosen of two with the same pseudo, nor
a duplicate of it. -/
def Insn.Kept (x : Insn) : Prop :=
  ∀ i j k g, x.Clash i j → j < i → chosen x i j = some k →
    (sem.effect x.code g).operands k = none ∧
      ∀ m d, x.dups[m]? = some d → d.1 = k → (sem.effect x.code g).dups m = none

variable {sem} {base k : Nat} {s t s' t' : Store V M} {y : Rtx} {v : V}

theorem read_agree (h : Agree base s t) (hy : ∀ r ∈ y.regs, r < base) :
    read sem s y = read sem t y := by
  induction y with
  | reg r => exact h.1 r (hy r (List.mem_singleton_self r))
  | subreg x w ih => exact congrArg (sem.part w) (ih hy)
  | mem a ih => rw [read, read, h.2, ih hy]
  | plus x y ihx ihy =>
      exact congrArg₂ sem.plus (ihx fun r hr => hy r (List.mem_append_left _ hr))
        (ihy fun r hr => hy r (List.mem_append_right _ hr))
  | const n => rfl

theorem assign_agree (h : Agree base s t) (h' : Agree base s' t') (hy : ∀ r ∈ y.regs, r < base) :
    Agree base (assign sem s y v s') (assign sem t y v t') := by
  induction y generalizing v with
  | reg r =>
      refine ⟨fun r' hr' => ?_, h'.2⟩
      show Function.update s'.regs r v r' = Function.update t'.regs r v r'
      by_cases heq : r' = r
      · rw [heq, Function.update_self, Function.update_self]
      · rw [Function.update_of_ne heq, Function.update_of_ne heq]
        exact h'.1 r' hr'
  | subreg x w ih =>
      have hread : read sem s' x = read sem t' x := read_agree h' hy
      rw [assign, assign, hread]
      exact ih hy
  | mem a ih =>
      refine ⟨h'.1, ?_⟩
      have hread : read sem s a = read sem t a := read_agree h hy
      rw [assign, assign, h'.2, hread]
  | plus x y => exact h'
  | const n => exact h'

/-- Operands that are stored are the same, with no new register in them. -/
theorem assignAll_agree {ys zs : List Rtx} {vals : Nat → Option V} (h : Agree base s t)
    (h' : Agree base s' t') (hlen : zs.length = ys.length)
    (hsame : ∀ k y, ys[k]? = some y → vals k ≠ none → zs[k]? = some y ∧ ∀ r ∈ y.regs, r < base) :
    Agree base (assignAll sem s ys vals s') (assignAll sem t zs vals t') := by
  rw [assignAll, assignAll, hlen]
  refine List.foldl_rel h' fun k hk a b hab => ?_
  cases hv : vals k with
  | none => exact hab
  | some v =>
      obtain ⟨y, hy⟩ : ∃ y, ys[k]? = some y :=
        ⟨_, List.getElem?_eq_getElem (List.mem_range.mp hk)⟩
      obtain ⟨hz, hregs⟩ := hsame k y hy (hv ▸ Option.some_ne_none v)
      rw [hy, hz]
      exact assign_agree h hab hregs

theorem read_withReg {n p : Nat} (hp : y.reg? = some p) (hn : t.regs n = s.regs p) :
    read sem t (y.withReg n) = read sem s y := by
  unfold Rtx.reg? at hp
  split at hp
  · obtain rfl := Option.some.inj hp
    exact hn
  · obtain rfl := Option.some.inj hp
    exact congrArg (sem.part _) hn
  · cases hp

variable {x : Insn} {b : Nat} {f : Fixing} {σ : Nat → Option Nat}

theorem Fixed.agree (h : Fixed x b f σ) (hb : base ≤ b) (hag : Agree base s t) :
    Agree base s { t with regs := runMoves f.moves t.regs } :=
  ⟨fun r hr => (hag.1 r hr).trans ((h.moves t.regs).1 r (Nat.lt_of_lt_of_le hr hb)).symm, hag.2⟩

/-- The moves leave the values of the operands in the new registers. -/
theorem Fixed.read_eq (h : Fixed x b f σ) (hx : x.WF base) (hb : base ≤ b) (hag : Agree base s t)
    {o : Operand} (ho : x.operands[k]? = some o) :
    read sem { t with regs := runMoves f.moves t.regs }
      (((σ k).map fun n => o.rtx.withReg n).getD o.rtx) = read sem s o.rtx := by
  cases hk : σ k with
  | none =>
      exact (read_agree (h.agree hb hag) (hx.regs o (List.mem_of_getElem? ho))).symm
  | some n =>
      obtain ⟨-, j, ⟨-, p, -, hp, -⟩, -⟩ := h.clash k n hk
      obtain ⟨o', ho', -, hreg⟩ := input?_eq hp
      obtain rfl := Option.some.inj (ho.symm.trans ho')
      have hnew := (h.moves t.regs).2 k n p hk hp
      exact read_withReg hreg (hnew.trans (hag.1 p (hx.input_lt hp)).symm)

/-- No operand with a new register is stored. -/
theorem Fixed.not_stored (h : Fixed x b f σ) (hkept : x.Kept sem) {g : Given V M} :
    (∀ k, (sem.effect x.code g).operands k ≠ none → σ k = none) ∧
      ∀ m d, x.dups[m]? = some d → (sem.effect x.code g).dups m ≠ none → σ d.1 = none := by
  have hnone {k n : Nat} (hk : σ k = some n) : (sem.effect x.code g).operands k = none ∧
      ∀ m d, x.dups[m]? = some d → d.1 = k → (sem.effect x.code g).dups m = none := by
    obtain ⟨hletter, j, hclash, hor⟩ := h.clash k n hk
    obtain hlt | hgt := Nat.lt_or_gt_of_ne hclash.1
    · -- the other operand comes later, and can be stored
      have hinout := hor.resolve_left (Nat.lt_asymm hlt)
      refine hkept j k k g hclash.symm hlt ?_
      rw [chosen]
      exact (if_neg (not_not.mpr hinout)).trans (if_pos hletter)
    · exact hkept k j k g hclash hgt (if_pos hletter)
  refine ⟨fun k hk => ?_, fun m d hd hm => ?_⟩
  · exact Option.eq_none_iff_forall_ne_some.mpr fun n hn => hk (hnone hn).1
  · exact Option.eq_none_iff_forall_ne_some.mpr fun n hn => hm ((hnone hn).2 m d hd rfl)

/-- The insn that is changed does the same after the moves. -/
theorem Fixed.exec_eq (h : Fixed x b f σ) (hx : x.WF base) (hb : base ≤ b) (hkept : x.Kept sem)
    (hbase : firstPseudo ≤ base) (hag : Agree base s t) :
    Agree base (exec sem x s).1 (exec sem f.insn { t with regs := runMoves f.moves t.regs }).1 ∧
      (exec sem x s).2 = (exec sem f.insn { t with regs := runMoves f.moves t.regs }).2 := by
  have hag' := h.agree hb hag
  have hread {k : Nat} {o : Operand} (ho : x.operands[k]? = some o) :
      read sem { t with regs := runMoves f.moves t.regs }
        (((σ k).map fun n => o.rtx.withReg n).getD o.rtx) = read sem s o.rtx :=
    h.read_eq hx hb hag ho
  generalize { t with regs := runMoves f.moves t.regs } = t' at hag' hread ⊢
  have hys : (f.insn.operands.map (·.rtx)).map (read sem t') =
      (x.operands.map (·.rtx)).map (read sem s) := by
    refine List.ext_getElem? fun k => ?_
    rw [h.insn, Insn.renamed, List.getElem?_map, List.getElem?_map, List.getElem?_map,
      List.getElem?_map, List.getElem?_mapIdx]
    cases ho : x.operands[k]? with
    | none => rfl
    | some o => exact congrArg some (hread ho)
  have hzs : (f.insn.dups.map (·.2)).map (read sem t') = (x.dups.map (·.2)).map (read sem s) := by
    rw [h.insn, Insn.renamed, List.map_map, List.map_map, List.map_map]
    refine List.map_congr_left fun d hd => ?_
    obtain ⟨o, ho, heq⟩ := hx.dups d hd
    have hdup := hread ho
    rw [← heq] at hdup
    exact hdup
  have hhard : (fun r : Fin firstPseudo => t'.regs r) = fun r : Fin firstPseudo => s.regs r :=
    funext fun r => (hag'.1 r (Nat.lt_of_lt_of_le r.2 hbase)).symm
  have hcode : f.insn.code = x.code := by
    rw [h.insn]
    rfl
  rw [exec, exec, hys, hzs, hhard, hcode, ← hag'.2]
  generalize hg : (⟨(x.operands.map (·.rtx)).map (read sem s), (x.dups.map (·.2)).map (read sem s),
    fun r => s.regs r, s.mem⟩ : Given V M) = g
  obtain ⟨hoperands, hdups⟩ := h.not_stored hkept (g := g)
  refine ⟨assignAll_agree hag' (assignAll_agree hag' ⟨fun r hr => ?_, rfl⟩ ?_ ?_) ?_ ?_, rfl⟩
  · show (if _ : _ then _ else _) = if _ : _ then _ else _
    split
    · rfl
    · exact hag'.1 r hr
  · rw [h.insn, Insn.renamed, List.length_map, List.length_map, List.length_mapIdx]
  · intro k y hy hk
    rw [List.getElem?_map] at hy
    obtain ⟨o, ho, rfl⟩ := Option.map_eq_some_iff.mp hy
    refine ⟨?_, hx.regs o (List.mem_of_getElem? ho)⟩
    rw [List.getElem?_map, h.insn, renamed_operand ho, hoperands k hk]
    rfl
  · rw [h.insn, Insn.renamed, List.length_map, List.length_map, List.length_map]
  · intro m y hy hm
    rw [List.getElem?_map] at hy
    obtain ⟨d, hd, rfl⟩ := Option.map_eq_some_iff.mp hy
    obtain ⟨o, ho, heq⟩ := hx.dups d (List.mem_of_getElem? hd)
    refine ⟨?_, heq ▸ hx.regs o (List.mem_of_getElem? ho)⟩
    rw [h.insn, Insn.renamed, List.getElem?_map, List.getElem?_map, hd, Option.map_some,
      Option.map_some, hdups m d hd hm]
    rfl

end

/-! ### The simulation -/

section

variable {V M : Type} (sem : Semantics V M) (base : Nat)

/-- An item of a list with the registers below `base`. -/
def Item.WF : Item → Prop
  | .insn x => x.WF base ∧ x.Kept sem
  | .move d r => d < base ∧ r < base
  | _ => True

/-- What the pass makes of a list. -/
inductive Changed : List Item → List Item → Prop
  | nil : Changed [] []
  | other {y : Item} {l l' : List Item} (hy : ∀ x, y ≠ .insn x) (hwf : y.WF sem base)
      (h : Changed l l') : Changed (y :: l) (y :: l')
  | insn {x : Insn} {l l' : List Item} {b : Nat} {f : Fixing} {σ : Nat → Option Nat}
      (hb : base ≤ b) (hwf : Item.WF sem base (.insn x)) (hfixed : Fixed x b f σ)
      (h : Changed l l') :
      Changed (.insn x :: l) (f.moves.map (fun m => .move m.1 m.2) ++ .insn f.insn :: l')

variable {sem base} {l l' prog prog' : List Item} {s t : Store V M} {n : Nat}

theorem Insn.WF.mono {x : Insn} {b : Nat} (h : x.WF base) (hb : base ≤ b) : x.WF b :=
  ⟨h.dups, fun o ho r hr => Nat.lt_of_lt_of_le (h.regs o ho r hr) hb⟩

theorem exotic_other {y : Item} (hy : ∀ x, y ≠ .insn x) :
    exotic n (y :: l) = (exotic n l).map (y :: ·) := by
  cases y with
  | insn x => exact absurd rfl (hy x)
  | _ => rfl

theorem changed_of_exotic (hl : ∀ y ∈ l, y.WF sem base) (hn : base ≤ n)
    (h : exotic n l = some l') : Changed sem base l l' := by
  induction l generalizing n l' with
  | nil =>
      obtain rfl := Option.some.inj h
      exact .nil
  | cons y l ih =>
      obtain ⟨hy, hrest⟩ := List.forall_mem_cons.mp hl
      by_cases hinsn : ∃ x, y = .insn x
      · obtain ⟨x, rfl⟩ := hinsn
        rw [exotic] at h
        obtain ⟨f, hf, h⟩ := Option.bind_eq_some_iff.mp h
        obtain ⟨l'', hl'', rfl⟩ := Option.map_eq_some_iff.mp h
        obtain ⟨hnone, -⟩ | ⟨f', σ, hf', hfixed, -⟩ := find_spec (hy.1.mono hn)
        · rw [hnone] at hf
          cases hf
        · obtain rfl := Option.some.inj (hf.symm.trans hf')
          exact .insn hn hy hfixed (ih hrest (Nat.le_trans hn hfixed.base_le) hl'')
      · have hother (x : Insn) : y ≠ .insn x := fun heq => hinsn ⟨x, heq⟩
        rw [exotic_other hother] at h
        obtain ⟨l'', hl'', rfl⟩ := Option.map_eq_some_iff.mp h
        exact .other hother hy (ih hrest hn hl'')

theorem afterLabel_moves (moves : List (Nat × Nat)) :
    afterLabel n (moves.map (fun m => .move m.1 m.2) ++ l) = afterLabel n l := by
  induction moves with
  | nil => rfl
  | cons m moves ih => exact ih

theorem changed_afterLabel (h : Changed sem base l l') :
    Changed sem base (afterLabel n l) (afterLabel n l') := by
  induction h with
  | nil => exact .nil
  | other hy hwf h ih =>
      rename_i y l l'
      cases y with
      | label m =>
          rw [afterLabel, afterLabel]
          split
          · exact h
          · exact ih
      | insn x => exact absurd rfl (hy x)
      | skipped code => exact ih
      | move d r => exact ih
  | insn hb hwf hfixed h ih =>
      rw [afterLabel_moves]
      exact ih

/-- The moves are run one after the other. -/
theorem moves_steps (moves : List (Nat × Nat)) (t : Store V M) :
    Relation.ReflTransGen (fun c c' => step sem prog c = .inl c')
      (moves.map (fun m => .move m.1 m.2) ++ l, t)
      (l, { t with regs := runMoves moves t.regs }) := by
  induction moves generalizing t with
  | nil => exact .refl
  | cons m moves ih => exact .head rfl (ih _)

theorem Changed.goto (hprog : Changed sem base prog prog') (h : Changed sem base l l')
    (jump : Option Nat) : Changed sem base ((jump.map fun n => afterLabel n prog).getD l)
      ((jump.map fun n => afterLabel n prog').getD l') := by
  cases jump with
  | none => exact h
  | some n => exact changed_afterLabel hprog

/-- An insn and what becomes of it lead to the same place. -/
theorem insn_step {x : Insn} {b : Nat} {f : Fixing} {σ : Nat → Option Nat} (hb : base ≤ b)
    (hwf : Item.WF sem base (.insn x)) (hfixed : Fixed x b f σ) (hbase : firstPseudo ≤ base)
    (hprog : Changed sem base prog prog') (h : Changed sem base l l') (hag : Agree base s t) :
    ∃ c', step sem prog' (.insn f.insn :: l', { t with regs := runMoves f.moves t.regs }) =
        .inl c' ∧
      Changed sem base (((exec sem x s).2.map fun n => afterLabel n prog).getD l) c'.1 ∧
        Agree base (exec sem x s).1 c'.2 := by
  obtain ⟨hstore, hjump⟩ := hfixed.exec_eq hwf.1 hb hwf.2 hbase hag
  refine ⟨_, rfl, ?_, hstore⟩
  rw [← hjump]
  exact hprog.goto h _

/-- The list that is changed does what the list does. -/
theorem changed_simulates (hbase : firstPseudo ≤ base) (hprog : Changed sem base prog prog') :
    Simulates (step sem prog) (step sem prog')
      (fun c c' => Changed sem base c.1 c'.1 ∧ Agree base c.2 c'.2) (Agree base) := by
  constructor
  · rintro ⟨l, s⟩ ⟨l', t⟩ c ⟨hl, hag⟩ hstep
    cases hl with
    | nil => cases hstep
    | other hy hwf h =>
        rename_i y l l'
        cases y with
        | label m =>
            obtain rfl := Sum.inl.inj hstep
            exact ⟨_, .single rfl, h, hag⟩
        | move d r =>
            obtain rfl := Sum.inl.inj hstep
            refine ⟨_, .single rfl, h, fun r' hr' => ?_, hag.2⟩
            show Function.update s.regs d (s.regs r) r' = Function.update t.regs d (t.regs r) r'
            rw [hag.1 r hwf.2]
            by_cases heq : r' = d
            · rw [heq, Function.update_self, Function.update_self]
            · rw [Function.update_of_ne heq, Function.update_of_ne heq, hag.1 r' hr']
        | insn x => exact absurd rfl (hy x)
        | skipped code =>
            obtain rfl := Sum.inl.inj hstep
            have hnone : Item.WF sem base (.insn ⟨code, [], []⟩) := by
              refine ⟨⟨nofun, nofun⟩, ?_⟩
              rintro i j k g ⟨-, p, -, hp, -⟩
              cases hp
            obtain ⟨c', hc', hrest⟩ :=
              insn_step (Nat.le_refl base) hnone (.refl _ base) hbase hprog h hag
            exact ⟨c', .single hc', hrest⟩
    | insn hb hwf hfixed h =>
        obtain rfl := Sum.inl.inj hstep
        obtain ⟨c', hc', hrest⟩ := insn_step hb hwf hfixed hbase hprog h hag
        exact ⟨c', .tail' (moves_steps _ t) hc', hrest⟩
  · rintro ⟨l, s⟩ ⟨l', t⟩ r ⟨hl, hag⟩ hstep
    cases hl with
    | nil =>
        obtain rfl := Sum.inr.inj hstep
        exact ⟨t, .done rfl, hag⟩
    | other hy hwf h =>
        rename_i y l l'
        cases y <;> cases hstep
    | insn hb hwf hfixed h => cases hstep

/-! ### The property -/

/-- The two lists end with the same in the registers below `base` and in the memory, from every
store. -/
def SameRuns (sem : Semantics V M) (base : Nat) (l l' : List Item) : Prop :=
  ∀ s, (∀ s₁, Ends (step sem l) (l, s) s₁ →
      ∃ s₂, Ends (step sem l') (l', s) s₂ ∧ Agree base s₁ s₂) ∧
    ∀ s₂, Ends (step sem l') (l', s) s₂ → ∃ s₁, Ends (step sem l) (l, s) s₁ ∧ Agree base s₁ s₂

theorem exotic_same (hbase : firstPseudo ≤ base) (hl : ∀ y ∈ l, y.WF sem base)
    (h : exotic base l = some l') : SameRuns sem base l l' := by
  have hchanged := changed_of_exotic hl (Nat.le_refl base) h
  have hsim := changed_simulates hbase hchanged
  intro s
  have hag : Agree base s s := ⟨fun r _ => rfl, rfl⟩
  exact ⟨fun s₁ hends => hsim.ends ⟨hchanged, hag⟩ hends,
    fun s₂ hends => hsim.ends_of ⟨hchanged, hag⟩ hends⟩

theorem next_le {x : Insn} {f : Fixing} (hx : x.WF n)
    (hf : findMultipleRegReferences x n = some f) : n ≤ f.next := by
  obtain ⟨hnone, -⟩ | ⟨f', σ, hf', hfixed, -⟩ := find_spec hx
  · rw [hnone] at hf
    cases hf
  · obtain rfl := Option.some.inj (hf.symm.trans hf')
    exact hfixed.base_le

theorem exotic_insns (hl : ∀ y ∈ l, y.WF sem base) (hn : base ≤ n) :
    (∃ l', exotic n l = some l' ∧ ∀ x, .insn x ∈ l' → ¬x.Doubly) ↔
      ∀ x, .insn x ∈ l → x.Separable := by
  induction l generalizing n with
  | nil => exact iff_of_true ⟨[], rfl, nofun⟩ nofun
  | cons y l ih =>
      obtain ⟨hy, hrest⟩ := List.forall_mem_cons.mp hl
      by_cases hinsn : ∃ x, y = .insn x
      · obtain ⟨x, rfl⟩ := hinsn
        have hx := hy.1.mono hn
        have hmoves (f : Fixing) (l' : List Item) (x' : Insn) :
            .insn x' ∈ f.moves.map (fun m => Item.move m.1 m.2) ++ .insn f.insn :: l' ↔
              x' = f.insn ∨ .insn x' ∈ l' := by
          simp
        constructor
        · rintro ⟨l', hl', hall⟩
          rw [exotic] at hl'
          obtain ⟨f, hf, h⟩ := Option.bind_eq_some_iff.mp hl'
          obtain ⟨l'', hl'', rfl⟩ := Option.map_eq_some_iff.mp h
          have hsep : x.Separable :=
            (separable_iff hx).mp ⟨f, hf, hall f.insn ((hmoves f l'' f.insn).mpr (.inl rfl))⟩
          have hnext : base ≤ f.next := Nat.le_trans hn (next_le hx hf)
          have htail := (ih hrest hnext).mp ⟨l'', hl'', fun x' hx' =>
            hall x' ((hmoves f l'' x').mpr (.inr hx'))⟩
          intro x' hx'
          obtain heq | hx' := List.mem_cons.mp hx'
          · obtain rfl := Item.insn.inj heq
            exact hsep
          · exact htail x' hx'
        · intro hall
          obtain ⟨f, hf, hdouble⟩ := (separable_iff hx).mpr (hall x List.mem_cons_self)
          have hnext : base ≤ f.next := Nat.le_trans hn (next_le hx hf)
          obtain ⟨l', hl', hall'⟩ := (ih hrest hnext).mpr fun x' hx' =>
            hall x' (List.mem_cons_of_mem _ hx')
          refine ⟨f.moves.map (fun m => .move m.1 m.2) ++ .insn f.insn :: l', ?_, fun x' hx' => ?_⟩
          · rw [exotic, hf, Option.bind_some, hl', Option.map_some]
          · obtain rfl | hx' := (hmoves f l' x').mp hx'
            · exact hdouble
            · exact hall' x' hx'
      · have hother (x : Insn) : y ≠ .insn x := fun heq => hinsn ⟨x, heq⟩
        have hmem (x : Insn) (l : List Item) : .insn x ∈ y :: l ↔ .insn x ∈ l := by
          rw [List.mem_cons]
          exact or_iff_right fun heq => hother x heq.symm
        simp only [hmem, exotic_other hother, Option.map_eq_some_iff]
        rw [← ih hrest hn]
        constructor
        · rintro ⟨-, ⟨l', hl', rfl⟩, hall⟩
          exact ⟨l', hl', fun x hx => hall x ((hmem x l').mpr hx)⟩
        · rintro ⟨l', hl', hall⟩
          exact ⟨_, ⟨l', hl', rfl⟩, fun x hx => hall x ((hmem x l').mp hx)⟩

/-- The pass takes all double uses away and changes nothing else exactly when operands that take
the same pseudo are registers, and no two of these are stored: a pseudo in the address of a memory
operand is not looked at. -/
theorem exotic_iff (hbase : firstPseudo ≤ base) (hl : ∀ y ∈ l, y.WF sem base) :
    (∃ l', exotic base l = some l' ∧ (∀ x, .insn x ∈ l' → ¬x.Doubly) ∧ SameRuns sem base l l') ↔
      ∀ x, .insn x ∈ l → x.Separable := by
  rw [← exotic_insns hl (Nat.le_refl base)]
  constructor
  · rintro ⟨l', hl', hall, -⟩
    exact ⟨l', hl', hall⟩
  · rintro ⟨l', hl', hall⟩
    exact ⟨l', hl', hall, exotic_same hbase hl hl'⟩

end

/-! ### Two insns -/

/-- Words, with `add` as the pattern 0, `stnl` as the pattern 1 and `abssf3` as the pattern 2. -/
def addAndStore : Semantics (BitVec 32) (BitVec 32 → BitVec 32) where
  part _ v := v
  withPart _ _ v := v
  load m a := m a
  store m a v := Function.update m a v
  plus v w := v + w
  const n := BitVec.ofInt 32 n
  effect code g :=
    { operands := fun k =>
        if k = 0 then
          (if code = 0 then some (g.operands.getD 1 0 + g.operands.getD 2 0)
          else if code = 1 then g.operands[1]?
          else some (g.operands.getD 1 0 &&& 0x7fffffff))
        else none
      dups := fun _ => none
      hard := g.hard
      mem := g.mem
      jump := none }

/-- A pseudo is added to itself. -/
def addSame : Insn := ⟨0, [⟨.output, .reg 11⟩, ⟨.input, .reg 10⟩, ⟨.input, .reg 10⟩], []⟩

/-- A pseudo is stored where it points to. -/
def storeSame : Insn := ⟨1, [⟨.output, .mem (.reg 10)⟩, ⟨.input, .reg 10⟩], []⟩

/-- `x = fabs (x)`: the constraints of `abssf3` are empty. -/
def absSame : Insn := ⟨2, [⟨.input, .reg 10⟩, ⟨.input, .reg 10⟩], []⟩

/-- The first operand is not chosen where no constraint begins with `+`. -/
theorem addAndStore_kept (x : Insn) (h : ∀ o ∈ x.operands, o.letter ≠ .inout) :
    x.Kept addAndStore := by
  intro i j k g _ hlt hk
  have hi : (x.operands[i]?).map (·.letter) ≠ some .inout := by
    intro heq
    obtain ⟨o, ho, hletter⟩ := Option.map_eq_some_iff.mp heq
    exact h o (List.mem_of_getElem? ho) hletter
  obtain rfl : i = k := Option.some.inj ((if_pos hi).symm.trans hk)
  exact ⟨if_neg (Nat.ne_zero_of_lt hlt), fun m d _ _ => rfl⟩

theorem addSame_wf : addSame.WF 12 := by
  refine ⟨nofun, ?_⟩
  decide

theorem storeSame_wf : storeSame.WF 12 := by
  refine ⟨nofun, ?_⟩
  decide

theorem absSame_wf : absSame.WF 12 := by
  refine ⟨nofun, ?_⟩
  decide

/-- Two operands that are the same pseudo, and not both stored. -/
theorem separable_of_pair {x : Insn} {i j : Nat} (hclash : x.Clash i j) (hboth : ¬x.Both i j)
    (huses : ∀ k p, p ∈ x.uses k → k = i ∨ k = j) : x.Separable := by
  intro i' j' p hne _ hi hj
  obtain rfl | rfl := huses i' p hi <;> obtain rfl | rfl := huses j' p hj
  · exact absurd rfl hne
  · exact ⟨hclash, hboth⟩
  · exact ⟨hclash.symm, fun h => hboth ⟨h.2, h.1⟩⟩
  · exact absurd rfl hne

theorem addSame_separable : addSame.Separable := by
  refine separable_of_pair (i := 1) (j := 2) ⟨by decide, 10, by decide, rfl, rfl⟩ ?_ ?_
  · rintro ⟨h, -⟩
    cases h
  · intro k p h
    rcases k with _ | _ | _ | k
    · cases h
    · exact .inl rfl
    · exact .inr rfl
    · cases h

theorem absSame_separable : absSame.Separable := by
  refine separable_of_pair (i := 0) (j := 1) ⟨by decide, 10, by decide, rfl, rfl⟩ ?_ ?_
  · rintro ⟨h, -⟩
    cases h
  · intro k p h
    rcases k with _ | _ | k
    · exact .inl rfl
    · exact .inr rfl
    · cases h

theorem addSame_fixed : ∃ l', exotic 12 [.insn addSame, .insn absSame] = some l' ∧
    (∀ x, .insn x ∈ l' → ¬x.Doubly) ∧
    SameRuns addAndStore 12 [.insn addSame, .insn absSame] l' := by
  refine (exotic_iff (by decide) ?_).mpr ?_
  · refine List.forall_mem_cons.mpr ⟨⟨addSame_wf, addAndStore_kept addSame (by decide)⟩, ?_⟩
    exact List.forall_mem_singleton.mpr ⟨absSame_wf, addAndStore_kept absSame (by decide)⟩
  · rintro x hx
    obtain hx | hx := List.mem_cons.mp hx
    · obtain rfl := Item.insn.inj hx
      exact addSame_separable
    · obtain rfl := Item.insn.inj (List.mem_singleton.mp hx)
      exact absSame_separable

/-- `*p = p` is left as it is. -/
theorem storeSame_left : (∀ y ∈ [Item.insn storeSame], y.WF addAndStore 12) ∧
    ¬∃ l', exotic 12 [.insn storeSame] = some l' ∧
      (∀ x, .insn x ∈ l' → ¬x.Doubly) ∧ SameRuns addAndStore 12 [.insn storeSame] l' := by
  refine ⟨List.forall_mem_singleton.mpr ⟨storeSame_wf, addAndStore_kept storeSame (by decide)⟩, ?_⟩
  rintro ⟨l', hl', hall, -⟩
  have hsame : exotic 12 [.insn storeSame] = some [.insn storeSame] := by decide
  obtain rfl := Option.some.inj (hsame.symm.trans hl')
  exact hall storeSame List.mem_cons_self ⟨0, 1, 10, by decide, by decide, by decide, by decide⟩

end Ttools.T800.Exotic
