import Ttools.Ast.Frames
import Ttools.Expr.Refs
import Ttools.Format.Numbering
import Ttools.Link.Records

/-!
# Needs

A fragment can be left out when nothing that is linked needs it.  `ast` notes which names a fragment
or a value mentions (`record_needs` in `shared/misc.c`, `pass_needs` in `shared/ments.c`) and writes
this into the `NEEDS` area (`ast/ast.c`); `lit` reads it before it reads anything else.

* `passNeeds_spec`, `outputNames_spec`: the needs are the names that are mentioned, and no others.
* `nametableLoop_written`: reading the two areas does what their records say.
* `needs_linked`: in every state that `lit` gets to, what a wanted name of the file requires is
  wanted too.

`lit_out_marker` is as in `passOutputSegments`: the position in the file is that of the area.
-/

namespace Ttools

open Support (Logged)
open Support.Logged

/-! ### The names of `ast` -/

/-- What `ast` knows of its names when it writes them, and the memory they are in; `globalNames` is
the vector `global_names`. -/
structure Symbols where
  memory : Memory
  ident : NameId → List Byte
  defined : NameId → Bool
  fragment : NameId → Bool
  common : NameId → Bool
  index : NameId → Word
  needs : NameId → List NameId
  globalNames : List NameId

namespace Symbols

/-- `np->global`. -/
def global (y : Symbols) (np : NameId) : Bool := (y.memory.store.name np).global

/-- An assignment to the fields of a name. -/
def setName (y : Symbols) (np : NameId) (f : Name → Name) : Symbols :=
  let st := y.memory.store
  { y with memory := { y.memory with
      store := { st with name := Function.update st.name np (f (st.name np)) } } }

/-- `globalize_name`, with the vector. -/
def globalizeName (y : Symbols) (np : NameId) : Symbols :=
  if y.global np then y
  else
    { y.setName np fun n => { n with global := true } with
      index := Function.update y.index np (BitVec.ofNat 32 y.globalNames.length)
      globalNames := y.globalNames ++ [np] }

/-- `add_need`. -/
def addNeed (y : Symbols) (np need : NameId) : Symbols :=
  if np = need ∨ need ∈ y.needs np then y
  else { y with needs := Function.update y.needs np (y.needs np ++ [need]) }

/-- The global names are those of the vector, each with its position. -/
structure Ok (y : Symbols) : Prop where
  global : ∀ np, y.global np = true ↔ np ∈ y.globalNames
  nodup : y.globalNames.Nodup
  index : ∀ k np, y.globalNames[k]? = some np → y.index np = BitVec.ofNat 32 k
  needs : ∀ np, ∀ m ∈ y.needs np, m ∈ y.globalNames

end Symbols

abbrev Output := Logged Symbols Stop Risk

/-- A reduction on the way out. -/
def Output.reducing {α : Type} (x : Reducer α) : Output α := fun y =>
  ((x y.memory).1.map fun p => (p.1, { y with memory := p.2 }), (x y.memory).2)

/-! ### What is needed -/

/-- `record_needs`, with `record_needs_name`. -/
def recordNeeds (np : NameId) : Expr → Output Unit
  | .name n => do
      -- "all others should have been reduce()d away by now"
      if (← Logged.get).global n then Logged.modify fun y => y.addNeed np n
      else stop .abort
  | .unop _ r => recordNeeds np r
  | .binop _ l r => do
      recordNeeds np r
      recordNeeds np l
  | _ => return ()

/-- `if (! EXPR_ISCONST (e)) record_needs (e)`. -/
def recordUnlessConst (np : NameId) (e : Expr) : Output Unit :=
  if e.isConst then return () else recordNeeds np e

/-- What `pass_needs` records of an element. -/
def elementNeeds (np : NameId) : Body → Output Unit
  | .block _ => return ()
  | .data _ value count => do
      recordUnlessConst np value
      recordUnlessConst np count
  | .cmd _ arg => recordNeeds np arg

/-- The loop over the chain of a fragment. -/
def chainNeeds (np : NameId) : List ElemId → Output Unit
  | [] => return ()
  | el :: els => do
      elementNeeds np ((← Logged.get).memory.store.element el).u
      chainNeeds np els

/-- `pass_needs`, the needs; the fragments are those of all segments, in the order of the loops. -/
def passNeeds : List Asm.Fraglist → Output Unit
  | [] => return ()
  | f :: fs => do
      chainNeeds f.name f.elts
      passNeeds fs

/-! ### The two areas -/

/-- The flags of a nametable entry. -/
def Symbols.flags (y : Symbols) (np : NameId) : Word :=
  (if y.defined np then litNameDefined else 0) |||
    (if y.fragment np then litNameFragment else 0) |||
    (if y.common np then litNameCommon else 0)

/-- The bytes of a nametable entry. -/
def Symbols.ntabEntry (y : Symbols) (np : NameId) : List Byte :=
  litOutNumber litName ++ litOutString (y.ident np) ++ litOutNumber (y.flags np)

/-- `lit_out_ntab_entry` on one name after the other; `lastIndex` is its `last_index`. -/
def litOutNtabEntries (y : Symbols) : Word → List NameId → Option (List Byte)
  | _, [] => some []
  | lastIndex, np :: nps =>
      if y.index np = 0 ∨ y.index np = lastIndex + 1 then do
        let bs ← litOutNtabEntries y (y.index np) nps
        some (y.ntabEntry np ++ bs)
      else none

/-- `output_nametable`. -/
def outputNametable (y : Symbols) : Option (List Byte) := do
  let area ← litOutNtabEntries y (-1) y.globalNames
  some (area ++ litOutMarker litAreaNametable (BitVec.ofNat 32 area.length))

/-- A `NEEDS` record. -/
def Symbols.needsRecord (y : Symbols) (np : NameId) : List Byte :=
  litOutNumber litNeeds ++ litOutNumber (y.index np) ++
    (y.needs np).flatMap (fun m => litOutNumber (y.index m)) ++ litOutNumber (-1)

/-- "Non-fragment names do not have needs list formed yet; form it now". -/
def valueNeeds (fuel : Nat) (np : NameId) : Output Unit := do
  let val ← ofOption .abort ((← Logged.get).memory.store.name np).val
  let val ← Output.reducing (exprReduce fuel val)
  Logged.modify fun y => y.setName np fun n => { n with val := some val }
  recordNeeds np val

/-- The needs of fragments are there already. -/
def formNeeds (fuel : Nat) (np : NameId) : Output Unit := do
  if (← Logged.get).fragment np then return () else valueNeeds fuel np

/-- `output_needs1`. -/
def outputNeeds1 (fuel : Nat) (np : NameId) : Output (List Byte) := do
  let y ← Logged.get
  if y.global np && y.defined np then do
    formNeeds fuel np
    let y ← Logged.get
    return if y.needs np = [] then [] else y.needsRecord np
  else return []

/-- The walk of the table of names. -/
def needsArea (fuel : Nat) : List NameId → Output (List Byte)
  | [] => return []
  | np :: nps => do
      let b ← outputNeeds1 fuel np
      let bs ← needsArea fuel nps
      return b ++ bs

/-- `output_needs`; `general_names` is the table, in the order of the walk. -/
def outputNeeds (fuel : Nat) (table : List NameId) : Output (List Byte) := do
  let area ← needsArea fuel table
  return area ++ litOutMarker litAreaNeeds (BitVec.ofNat 32 area.length)

/-- The needs are recorded, and the two areas are written. -/
def outputNames (fuel : Nat) (fragments : List Asm.Fraglist) (table : List NameId) :
    Output (List Byte) := do
  passNeeds fragments
  let nametable ← ofOption .abort (outputNametable (← Logged.get))
  let needs ← outputNeeds fuel table
  return nametable ++ needs

/-! ### Global names -/

namespace Symbols

variable {y y' : Symbols} {np : NameId}

/-- **Every global name has its position in the vector as its index**. -/
theorem Ok.globalizeName (hy : y.Ok) (np : NameId) : (y.globalizeName np).Ok := by
  rw [Symbols.globalizeName]
  split
  · exact hy
  · rename_i hg
    have hnew : np ∉ y.globalNames := fun hmem => hg ((hy.global np).mpr hmem)
    refine ⟨fun n => ?_, ?_, fun k n hk => ?_, fun n m hm => ?_⟩
    · rw [List.mem_append, List.mem_singleton, ← hy.global n]
      show (Function.update y.memory.store.name np _ n).global = true ↔ _
      rw [Function.update_apply]
      split
      · rename_i hn
        exact iff_of_true rfl (.inr hn)
      · rename_i hn
        exact ⟨.inl, fun h => h.resolve_right hn⟩
    · exact List.nodup_append.mpr ⟨hy.nodup, List.nodup_singleton np, fun a ha b hb => by
        rw [List.mem_singleton.mp hb]
        rintro rfl
        exact hnew ha⟩
    · show Function.update y.index np _ n = _
      rcases Nat.lt_or_ge k y.globalNames.length with hlt | hge
      · rw [List.getElem?_append_left hlt] at hk
        have hne : n ≠ np := by
          rintro rfl
          exact hnew (List.mem_of_getElem? hk)
        rw [Function.update_of_ne hne, hy.index k n hk]
      · rw [List.getElem?_append_right hge, List.getElem?_singleton] at hk
        split at hk
        · rename_i hzero
          cases hk
          have hlen : k = y.globalNames.length := by omega
          rw [Function.update_self, hlen]
        · cases hk
    · exact List.mem_append_left _ (hy.needs n m hm)

/-- Only the memory and the needs are different, and no name has become global. -/
structure Extends (y y' : Symbols) : Prop where
  global : y'.global = y.global
  ident : y'.ident = y.ident
  defined : y'.defined = y.defined
  fragment : y'.fragment = y.fragment
  common : y'.common = y.common
  index : y'.index = y.index
  globalNames : y'.globalNames = y.globalNames

theorem Extends.refl (y : Symbols) : Extends y y := ⟨rfl, rfl, rfl, rfl, rfl, rfl, rfl⟩

theorem Extends.trans {y'' : Symbols} (h : Extends y y') (h' : Extends y' y'') : Extends y y'' where
  global := h'.global.trans h.global
  ident := h'.ident.trans h.ident
  defined := h'.defined.trans h.defined
  fragment := h'.fragment.trans h.fragment
  common := h'.common.trans h.common
  index := h'.index.trans h.index
  globalNames := h'.globalNames.trans h.globalNames

theorem Extends.ok (h : Extends y y') (hy : y.Ok)
    (hneeds : ∀ np, ∀ m ∈ y'.needs np, m ∈ y.globalNames) : y'.Ok where
  global np := by rw [h.global, h.globalNames, hy.global]
  nodup := h.globalNames ▸ hy.nodup
  index k np hk := by
    rw [h.index]
    exact hy.index k np (h.globalNames ▸ hk)
  needs np m hm := h.globalNames ▸ hneeds np m hm

/-- The needs that `P` says are added, and nothing else is done. -/
structure Notes (P : NameId → NameId → Prop) (y y' : Symbols) : Prop where
  ext : Extends y y'
  memory : y'.memory = y.memory
  needs : ∀ n m, m ∈ y'.needs n ↔ m ∈ y.needs n ∨ m ≠ n ∧ P n m
  same : ∀ n, (∀ m, ¬P n m) → y'.needs n = y.needs n
  global : ∀ n m, P n m → y.global m = true

theorem Notes.refl (y : Symbols) : Notes (fun _ _ => False) y y :=
  ⟨.refl y, rfl, fun _ _ => by simp, fun _ _ => rfl, fun _ _ => False.elim⟩

theorem Notes.trans {P Q : NameId → NameId → Prop} {y'' : Symbols} (h : Notes P y y')
    (h' : Notes Q y' y'') : Notes (fun n m => P n m ∨ Q n m) y y'' where
  ext := h.ext.trans h'.ext
  memory := h'.memory.trans h.memory
  needs n m := by rw [h'.needs, h.needs, or_assoc, and_or_left]
  same n hn := (h'.same n fun m hq => hn m (.inr hq)).trans (h.same n fun m hp => hn m (.inl hp))
  global n m hm := hm.elim (h.global n m) fun hq => h.ext.global ▸ h'.global n m hq

theorem Notes.congr {P Q : NameId → NameId → Prop} (h : Notes P y y') (hPQ : ∀ n m, P n m ↔ Q n m) :
    Notes Q y y' where
  ext := h.ext
  memory := h.memory
  needs n m := by rw [h.needs, hPQ]
  same n hn := h.same n fun m hp => hn m ((hPQ n m).mp hp)
  global n m hm := h.global n m ((hPQ n m).mpr hm)

theorem Notes.ok {P : NameId → NameId → Prop} (h : Notes P y y') (hy : y.Ok) : y'.Ok :=
  h.ext.ok hy fun np m hm => ((h.needs np m).mp hm).elim (hy.needs np m) fun hp =>
    (hy.global m).mp (h.global np m hp.2)

theorem notes_addNeed {need : NameId} (hneed : y.global need = true) :
    Notes (fun n m => n = np ∧ m = need) y (y.addNeed np need) := by
  have hglobal : ∀ n m, n = np ∧ m = need → y.global m = true := fun _ _ h => h.2 ▸ hneed
  rw [addNeed]
  split
  · rename_i hskip
    refine ⟨.refl y, rfl, fun n m => ⟨.inl, fun h => h.elim id ?_⟩, fun _ _ => rfl, hglobal⟩
    rintro ⟨hne, rfl, rfl⟩
    exact hskip.resolve_left (Ne.symm hne)
  · rename_i hskip
    rw [not_or] at hskip
    refine ⟨⟨rfl, rfl, rfl, rfl, rfl, rfl, rfl⟩, rfl, fun n m => ?_, fun n hn => ?_, hglobal⟩
    swap
    · exact Function.update_of_ne (fun heq => hn need ⟨heq, rfl⟩) ..
    show m ∈ Function.update y.needs np _ n ↔ _
    rw [Function.update_apply]
    split
    · rename_i hn
      subst hn
      rw [List.mem_append, List.mem_singleton]
      refine or_congr_right ⟨?_, fun h => h.2.2⟩
      rintro rfl
      exact ⟨Ne.symm hskip.1, rfl, rfl⟩
    · rename_i hn
      exact ⟨.inl, fun h => h.elim id fun h => absurd h.2.1 hn⟩

end Symbols

open Symbols (Extends Notes)

/-! ### The needs are what is mentioned -/

/-- A name is mentioned where `pass_needs` looks. -/
def Body.Mentions (m : NameId) : Body → Prop
  | .block _ => False
  | .data _ value count => value.Mentions m ∨ count.Mentions m
  | .cmd _ arg => arg.Mentions m

/-- If the computation ends, it has noted what `P` says. -/
def Noting (P : NameId → NameId → Prop) (x : Output Unit) (y : Symbols) : Prop :=
  Ensures (fun _ => True) (fun _ => True) x (fun _ y' => Notes P y y') y

section

variable {y : Symbols} {np : NameId}

theorem noting_pure : Noting (fun _ _ => False) (pure ()) y := ensures_pure.mpr (.refl y)

theorem Noting.bind {P Q : NameId → NameId → Prop} {x x' : Output Unit} (h : Noting P x y)
    (h' : ∀ y', y'.memory = y.memory → Noting Q x' y') :
    Noting (fun n m => P n m ∨ Q n m) (x >>= fun _ => x') y :=
  ensures_bind.mpr (h.mono fun _ y' hy => (h' y' hy.memory).mono fun _ _ => hy.trans)

theorem Noting.congr {P Q : NameId → NameId → Prop} {x : Output Unit} (h : Noting P x y)
    (hPQ : ∀ n m, P n m ↔ Q n m) : Noting Q x y :=
  h.mono fun _ _ hy => hy.congr hPQ

theorem recordNeeds_spec (np : NameId) (e : Expr) (y : Symbols) :
    Noting (fun n m => n = np ∧ e.Mentions m) (recordNeeds np e) y := by
  induction e generalizing y with
  | name n =>
      refine ensures_bind.mpr (ensures_get.mpr ?_)
      split
      · rename_i hn
        refine ensures_modify.mpr ((Symbols.notes_addNeed hn).congr fun _ m => ?_)
        exact and_congr_right fun _ => eq_comm
      · exact ensures_stop.mpr trivial
  | unop t r ih => exact ih y
  | binop t l r ihl ihr =>
      refine ((ihr y).bind fun y' _ => ihl y').congr fun n m => ?_
      show _ ↔ n = np ∧ (l.Mentions m ∨ r.Mentions m)
      rw [← and_or_left, or_comm]
  | _ => exact noting_pure.congr fun _ _ => ⟨False.elim, fun h => h.2⟩

/-- A constant mentions nothing. -/
theorem recordUnlessConst_spec (np : NameId) (e : Expr) (y : Symbols) :
    Noting (fun n m => n = np ∧ e.Mentions m) (recordUnlessConst np e) y := by
  rw [recordUnlessConst]
  split
  · rename_i hc
    obtain ⟨c, rfl⟩ := Expr.isConst_iff.mp hc
    exact noting_pure.congr fun _ _ => ⟨False.elim, fun h => h.2⟩
  · exact recordNeeds_spec np e y

theorem elementNeeds_spec (np : NameId) (u : Body) (y : Symbols) :
    Noting (fun n m => n = np ∧ u.Mentions m) (elementNeeds np u) y := by
  cases u with
  | block ptr => exact noting_pure.congr fun _ _ => ⟨False.elim, fun h => h.2⟩
  | data width value count =>
      rw [elementNeeds]
      exact ((recordUnlessConst_spec np value y).bind fun y' _ =>
        recordUnlessConst_spec np count y').congr fun _ _ => and_or_left.symm
  | cmd opcode arg => exact recordNeeds_spec np arg y

theorem chainNeeds_spec (np : NameId) (els : List ElemId) (y : Symbols) :
    Noting (fun n m => n = np ∧ ∃ el ∈ els, (y.memory.store.element el).u.Mentions m)
      (chainNeeds np els) y := by
  induction els generalizing y with
  | nil => exact noting_pure.congr fun _ _ => by simp
  | cons el els ih =>
      refine ensures_bind.mpr (ensures_get.mpr ?_)
      have hrest : ∀ y' : Symbols, y'.memory = y.memory →
          Noting (fun n m => n = np ∧ ∃ el ∈ els, (y.memory.store.element el).u.Mentions m)
            (chainNeeds np els) y' := fun y' hm => hm ▸ ih y'
      exact ((elementNeeds_spec np _ y).bind hrest).congr fun n m => by
        rw [← and_or_left, List.exists_mem_cons_iff]

/-- **What a fragment needs** is what its elements mention, apart from itself. -/
theorem passNeeds_spec (fs : List Asm.Fraglist) (y : Symbols) :
    Noting (fun n m => ∃ f ∈ fs, n = f.name ∧
      ∃ el ∈ f.elts, (y.memory.store.element el).u.Mentions m) (passNeeds fs) y := by
  induction fs generalizing y with
  | nil => exact noting_pure.congr fun _ _ => by simp
  | cons f fs ih =>
      have hrest : ∀ y' : Symbols, y'.memory = y.memory →
          Noting (fun n m => ∃ f ∈ fs, n = f.name ∧
            ∃ el ∈ f.elts, (y.memory.store.element el).u.Mentions m) (passNeeds fs) y' :=
        fun y' hm => hm ▸ ih y'
      exact ((chainNeeds_spec f.name f.elts y).bind hrest).congr fun n m => by
        rw [List.exists_mem_cons_iff]

end

/-! ### What is written -/

section

variable {y y' : Symbols} {np : NameId} {fuel : Nat}

/-- A name whose value is looked at. -/
def Symbols.valued (y : Symbols) (np : NameId) : Bool :=
  y.global np && y.defined np && !y.fragment np

/-- A name that has a record. -/
def Symbols.hasNeeds (y : Symbols) (np : NameId) : Bool :=
  y.global np && y.defined np && !(y.needs np).isEmpty

/-- The records of the names `nps` have been written. -/
structure Symbols.Wrote (nps : List NameId) (b : List Byte) (y y' : Symbols) : Prop where
  ext : Extends y y'
  bytes : b = (nps.filter y'.hasNeeds).flatMap y'.needsRecord
  val : ∀ n, y.global n = true → n ∉ nps →
    (y'.memory.store.name n).val = (y.memory.store.name n).val
  same : ∀ n, n ∉ nps ∨ y.valued n = false → y'.needs n = y.needs n
  value : ∀ n ∈ nps, y.valued n = true → ∃ v, (y'.memory.store.name n).val = some v ∧
    (∀ m, v.Mentions m → y.global m = true) ∧
    ∀ m, m ∈ y'.needs n ↔ m ∈ y.needs n ∨ m ≠ n ∧ v.Mentions m

theorem Output.ensures_reducing {α : Type} {x : Reducer α} {Q : α → Symbols → Prop}
    (h : Ensures (fun _ => True) (fun _ => True) x (fun a m => Q a { y with memory := m })
      y.memory) :
    Ensures (fun _ => True) (fun _ => True) (Output.reducing x) Q y := by
  unfold Ensures Output.reducing at *
  rcases hx : x y.memory with ⟨e | ⟨a, m⟩, log⟩ <;> rw [hx] at h
  · exact fun _ => trivial
  · exact h

theorem valueNeeds_spec (fuel : Nat) (np : NameId) (y : Symbols) :
    Ensures (fun _ => True) (fun _ => True) (valueNeeds fuel np) (fun _ y' =>
      Extends y y' ∧ (∀ n, y.global n = true → n ≠ np →
        (y'.memory.store.name n).val = (y.memory.store.name n).val) ∧
      (∀ n, n ≠ np → y'.needs n = y.needs n) ∧
      ∃ v, (y'.memory.store.name np).val = some v ∧ (∀ m, v.Mentions m → y.global m = true) ∧
        ∀ m, m ∈ y'.needs np ↔ m ∈ y.needs np ∨ m ≠ np ∧ v.Mentions m) y := by
  refine ensures_bind.mpr (ensures_get.mpr (ensures_bind.mpr (ensures_ofOption.mpr
    ⟨fun val _ => ensures_bind.mpr (Output.ensures_reducing ((exprReduce_kin fuel val y.memory).mono
      fun v m hkin => ensures_bind.mpr (ensures_modify.mpr ?_))), fun _ => trivial⟩)))
  -- the memory after the reduction, with the value in its place
  refine (recordNeeds_spec np v _).mono fun _ y' hn => ?_
  have hname : y'.memory.store.name =
      Function.update m.store.name np { m.store.name np with val := some v } := by
    rw [hn.memory]
    rfl
  have hglobal : ∀ n, (Function.update m.store.name np { m.store.name np with val := some v }
      n).global = y.global n := by
    intro n
    rw [Function.update_apply]
    split
    · rename_i hnp
      rw [hnp]
      exact hkin.global np
    · exact hkin.global n
  refine ⟨⟨?_, hn.ext.ident, hn.ext.defined, hn.ext.fragment, hn.ext.common, hn.ext.index,
    hn.ext.globalNames⟩, fun n hg hne => ?_, fun n hne => ?_, v, ?_, fun m hm => ?_, fun m => ?_⟩
  · funext n
    rw [Symbols.global, hname, hglobal]
  · rw [hname, Function.update_of_ne hne]
    exact hkin.val n (if_pos (show (y.memory.store.name n).global = true from hg))
  · exact hn.same n fun m hm => hne hm.1
  · rw [hname, Function.update_self]
  · exact (hglobal m).symm.trans (hn.global np m ⟨rfl, hm⟩)
  · refine (hn.needs np m).trans (or_congr_right (and_congr_right fun _ => ?_))
    exact and_iff_right rfl

theorem outputNeeds1_spec (fuel : Nat) (np : NameId) (y : Symbols) :
    Ensures (fun _ => True) (fun _ => True) (outputNeeds1 fuel np)
      (fun b y' => Symbols.Wrote [np] b y y') y := by
  have hbytes : ∀ y' : Symbols, (y'.global np && y'.defined np) = true →
      (if y'.needs np = [] then [] else y'.needsRecord np) =
        ([np].filter y'.hasNeeds).flatMap y'.needsRecord := by
    intro y' hd
    rw [List.filter_singleton, Symbols.hasNeeds, hd, Bool.true_and]
    cases y'.needs np <;> simp
  refine ensures_bind.mpr (ensures_get.mpr ?_)
  by_cases hd : (y.global np && y.defined np) = true
  · rw [if_pos hd]
    refine ensures_bind.mpr (ensures_bind.mpr (ensures_get.mpr ?_))
    by_cases hf : y.fragment np = true
    · rw [if_pos hf]
      refine ensures_pure.mpr (ensures_bind.mpr (ensures_get.mpr
        (ensures_pure.mpr ⟨.refl y, hbytes y hd, fun _ _ _ => rfl, fun _ _ => rfl, ?_⟩)))
      intro n hn hv
      rw [List.mem_singleton.mp hn, Symbols.valued, hf, Bool.not_true, Bool.and_false] at hv
      cases hv
    · rw [if_neg hf]
      refine (valueNeeds_spec fuel np y).mono fun _ y' hy => ensures_bind.mpr
        (ensures_get.mpr (ensures_pure.mpr ?_))
      obtain ⟨hext, hval, hsame, hvalue⟩ := hy
      refine ⟨hext, hbytes y' (by rw [hext.global, hext.defined, hd]),
        fun n hg hn => hval n hg fun h => hn (List.mem_singleton.mpr h), fun n hn => ?_, ?_⟩
      · refine hsame n ?_
        rintro rfl
        rcases hn with hn | hn
        · exact hn (List.mem_singleton_self n)
        · rw [Symbols.valued, hd, Bool.true_and, Bool.not_eq_false'] at hn
          exact hf hn
      · intro n hn _
        rw [List.mem_singleton.mp hn]
        exact hvalue
  · rw [if_neg hd]
    refine ensures_pure.mpr ⟨.refl y, ?_, fun _ _ _ => rfl, fun _ _ => rfl, fun n hn hv => ?_⟩
    · rw [List.filter_singleton, Symbols.hasNeeds, Bool.eq_false_iff.mpr hd, Bool.false_and]
      rfl
    · rw [List.mem_singleton.mp hn, Symbols.valued, Bool.eq_false_iff.mpr hd, Bool.false_and] at hv
      cases hv

/-- Records of different names. -/
theorem Symbols.Wrote.append {y'' : Symbols} {nps nps' : List NameId} {b b' : List Byte}
    (h : Symbols.Wrote nps b y y') (h' : Symbols.Wrote nps' b' y' y'') (hd : nps.Disjoint nps') :
    Symbols.Wrote (nps ++ nps') (b ++ b') y y'' := by
  have hneeds : ∀ n ∈ nps, y''.needs n = y'.needs n := fun n hn => h'.same n (.inl (hd hn))
  have hvalued : ∀ n, y'.valued n = y.valued n := fun n => by
    rw [Symbols.valued, Symbols.valued, h.ext.global, h.ext.defined, h.ext.fragment]
  have hhas : ∀ n ∈ nps, y'.hasNeeds n = y''.hasNeeds n := fun n hn => by
    rw [Symbols.hasNeeds, Symbols.hasNeeds, h'.ext.global, h'.ext.defined, hneeds n hn]
  refine ⟨h.ext.trans h'.ext, ?_, fun n hg hn => ?_, fun n hn => ?_, fun n hn hv => ?_⟩
  · rw [List.filter_append, List.flatMap_append, h.bytes, h'.bytes,
      List.filter_congr hhas]
    refine congrArg (· ++ _) (List.flatMap_congr fun n hn => ?_)
    rw [Symbols.needsRecord, Symbols.needsRecord, h'.ext.index,
      hneeds n (List.mem_of_mem_filter hn)]
  · rw [List.mem_append, not_or] at hn
    exact (h'.val n (by rwa [h.ext.global]) hn.2).trans (h.val n hg hn.1)
  · refine (h'.same n (hn.imp (fun hn => ?_) fun hn => (hvalued n).trans hn)).trans
      (h.same n (hn.imp (fun hn => ?_) id))
    · exact fun hmem => hn (List.mem_append_right _ hmem)
    · exact fun hmem => hn (List.mem_append_left _ hmem)
  · by_cases hmem : n ∈ nps
    · obtain ⟨v, hval, hglobal, hiff⟩ := h.value n hmem hv
      have hg : y.global n = true := by
        rw [Symbols.valued, Bool.and_eq_true, Bool.and_eq_true] at hv
        exact hv.1.1
      refine ⟨v, (h'.val n (by rwa [h.ext.global]) (hd hmem)).trans hval, hglobal, fun m => ?_⟩
      rw [hneeds n hmem, hiff]
    · have hmem' := (List.mem_append.mp hn).resolve_left hmem
      obtain ⟨v, hval, hglobal, hiff⟩ := h'.value n hmem' ((hvalued n).trans hv)
      refine ⟨v, hval, fun m hm => h.ext.global ▸ hglobal m hm, fun m => ?_⟩
      rw [hiff, h.same n (.inl hmem)]

/-- **What the `NEEDS` area says**, of a table that has no name twice. -/
theorem needsArea_spec (fuel : Nat) {nps : List NameId} (hnodup : nps.Nodup) (y : Symbols) :
    Ensures (fun _ => True) (fun _ => True) (needsArea fuel nps)
      (fun b y' => Symbols.Wrote nps b y y') y := by
  induction nps generalizing y with
  | nil => exact ensures_pure.mpr ⟨.refl y, rfl, fun _ _ _ => rfl, fun _ _ => rfl, by simp⟩
  | cons np nps ih =>
      obtain ⟨hnp, hnodup⟩ := List.nodup_cons.mp hnodup
      refine ensures_bind.mpr ((outputNeeds1_spec fuel np y).mono fun b y₁ h₁ =>
        ensures_bind.mpr ((ih hnodup y₁).mono fun bs y' h' => ensures_pure.mpr ?_))
      exact h₁.append h' fun n hn hmem => hnp (List.mem_singleton.mp hn ▸ hmem)

/-- **No assertion fails** while the nametable is written. -/
theorem outputNametable_eq (hy : y.Ok) : outputNametable y =
    some (y.globalNames.flatMap y.ntabEntry ++ litOutMarker litAreaNametable
      (BitVec.ofNat 32 (y.globalNames.flatMap y.ntabEntry).length)) := by
  have hentries : ∀ (nps : List NameId) (k : Nat),
      (∀ i np, nps[i]? = some np → y.index np = BitVec.ofNat 32 (k + i)) →
      litOutNtabEntries y (BitVec.ofNat 32 k - 1) nps = some (nps.flatMap y.ntabEntry) := by
    intro nps
    induction nps with
    | nil => exact fun _ _ => rfl
    | cons np nps ih =>
        intro k hk
        have hindex : y.index np = BitVec.ofNat 32 k := hk 0 np rfl
        have hrest := ih (k + 1) fun i n hi => by
          rw [hk (i + 1) n hi]
          congr 1
          omega
        have hlast : BitVec.ofNat 32 (k + 1) - 1 = y.index np := by
          rw [hindex, BitVec.ofNat_add]
          exact BitVec.add_sub_cancel _ _
        rw [litOutNtabEntries, if_pos (.inr (by rw [hindex, BitVec.sub_add_cancel])), ← hlast,
          hrest]
        rfl
  have harea := hentries y.globalNames 0 fun i np hi => by rw [Nat.zero_add, hy.index i np hi]
  rw [outputNametable]
  change (litOutNtabEntries y (BitVec.ofNat 32 0 - 1) y.globalNames).bind _ = _
  rw [harea]
  rfl

end

/-! ### Reading the two areas -/

/-- The record of a name, as an event of `lit`. -/
def Symbols.nameEvent (y : Symbols) (ifi : FileId) (np : NameId) : Event :=
  .name ifi (y.ident np) (y.flags np)

def Symbols.needsEvent (y : Symbols) (ifi : FileId) (np : NameId) : Event :=
  .needs ifi (y.index np) ((y.needs np).map y.index)

section

variable {y : Symbols} {ifi : FileId} {fuel : Nat} {area : Word} {l l' : Linker} {h h' : History}
  {np : NameId}

theorem litInNeeds_written {ns : List Word} (hns : ∀ n ∈ ns, n ≠ -1) (hfuel : ns.length < fuel)
    (rest : List Byte) (k : Nat) :
    litInNeeds fuel ⟨ns.flatMap litOutNumber ++ (litOutNumber (-1) ++ rest), k⟩ =
      some (ns, ⟨rest, k⟩) := by
  induction ns generalizing fuel with
  | nil =>
      obtain ⟨fuel, rfl⟩ := Nat.exists_eq_add_of_lt hfuel
      rw [List.flatMap_nil, List.nil_append, litInNeeds, Reader.bind_apply,
        litInNumber_litOutNumber]
      rfl
  | cons n ns ih =>
      obtain ⟨fuel, rfl⟩ := Nat.exists_eq_succ_of_ne_zero (Nat.ne_zero_of_lt hfuel)
      obtain ⟨hn, hns⟩ := List.forall_mem_cons.mp hns
      have hrest := ih hns (Nat.lt_of_succ_lt_succ hfuel)
      rw [List.flatMap_cons, List.append_assoc, litInNeeds, Reader.bind_apply,
        litInNumber_litOutNumber]
      simp only [Option.bind_some]
      rw [if_neg hn, Reader.bind_apply, hrest]
      rfl

theorem nametableLoop_dummies (n : Nat) (rest : List Byte) (k : Nat) :
    nametableLoop ifi (fuel + n) area l ⟨List.replicate n 0 ++ rest, k⟩ =
      nametableLoop ifi fuel area l ⟨rest, k⟩ := by
  induction n with
  | zero => rfl
  | succ n ih =>
      rw [← ih, ← Nat.add_assoc, nametableLoop, List.replicate_succ, List.cons_append]
      rfl

theorem nametableLoop_name (hident : (y.ident np).length < 2 ^ 31)
    (hread : l.readName ifi (y.ident np) (y.flags np) = some l') (rest : List Byte) (k : Nat) :
    nametableLoop ifi (fuel + 1) area l ⟨y.ntabEntry np ++ rest, k⟩ =
      nametableLoop ifi fuel area l' ⟨rest, k⟩ := by
  rw [nametableLoop, Symbols.ntabEntry, List.append_assoc, List.append_assoc, Reader.bind_apply,
    litInNumber_litOutNumber]
  simp only [Option.bind_some]
  rw [if_neg (by decide), if_pos trivial, Reader.bind_apply, litInString_litOutString hident]
  simp only [Option.bind_some]
  rw [Reader.bind_apply, litInNumber_litOutNumber]
  simp only [Option.bind_some]
  rw [Reader.bind_apply, built, hread]
  rfl

theorem length_flatMap_le {α : Type} (f : α → List Byte) (hf : ∀ a, 0 < (f a).length)
    (as : List α) : as.length ≤ (as.flatMap f).length := by
  induction as with
  | nil => exact le_rfl
  | cons a as ih =>
      have ha := hf a
      rw [List.flatMap_cons, List.length_append, List.length_cons]
      omega

theorem nametableLoop_needs (hname : l.ifileName ifi (y.index np) ≠ none)
    (hns : ∀ m ∈ y.needs np, y.index m ≠ -1)
    (hread : l.readNeeds ifi (y.index np) ((y.needs np).map y.index) = some l')
    (rest : List Byte) (k : Nat) :
    nametableLoop ifi (fuel + 1) area l ⟨y.needsRecord np ++ rest, k⟩ =
      nametableLoop ifi fuel area l' ⟨rest, k⟩ := by
  have hflat : (y.needs np).flatMap (fun m => litOutNumber (y.index m)) =
      ((y.needs np).map y.index).flatMap litOutNumber := by
    rw [List.flatMap_map]
  have hneeds : litInNeeds
      ((((y.needs np).map y.index).flatMap litOutNumber ++ (litOutNumber (-1) ++ rest)).length + 1)
      ⟨((y.needs np).map y.index).flatMap litOutNumber ++ (litOutNumber (-1) ++ rest), k⟩ =
        some ((y.needs np).map y.index, ⟨rest, k⟩) := by
    refine litInNeeds_written (fun n hn => ?_) ?_ rest k
    · obtain ⟨m, hm, rfl⟩ := List.mem_map.mp hn
      exact hns m hm
    · have hle := length_flatMap_le litOutNumber litOutNumber_ne_nil ((y.needs np).map y.index)
      simp only [List.length_append]
      omega
  rw [nametableLoop, Symbols.needsRecord, hflat]
  simp only [List.append_assoc]
  rw [Reader.bind_apply, litInNumber_litOutNumber]
  simp only [Option.bind_some]
  rw [if_neg (by decide), if_neg (by decide), if_pos trivial, Reader.bind_apply,
    litInNumber_litOutNumber]
  simp only [Option.bind_some]
  rw [if_neg hname, Reader.bind_apply]
  dsimp only
  rw [hneeds]
  simp only [Option.bind_some]
  rw [Reader.bind_apply, built, hread]
  rfl

/-- The zeros after a marker. -/
def markerPad (area length : Word) : Nat :=
  litMarkerLength -
    (litOutNumber litMarker ++ litOutNumber area ++ litOutNumber length).length

theorem nametableLoop_marker (length : Word) (rest : List Byte) (k : Nat) :
    nametableLoop ifi (fuel + 1) area l ⟨litOutMarker area length ++ rest, k⟩ =
      if litAreaNeeds.sle area then some (l, ⟨List.replicate (markerPad area length) 0 ++ rest, k⟩)
      else nametableLoop ifi fuel (area + 1) l
        ⟨List.replicate (markerPad area length) 0 ++ rest, k⟩ := by
  have hbytes : litOutMarker area length ++ rest = litOutNumber litMarker ++ (litOutNumber area ++
      (litOutNumber length ++ (List.replicate (markerPad area length) 0 ++ rest))) := by
    rw [litOutMarker, markerPad]
    simp only [List.append_assoc]
  rw [nametableLoop, hbytes, Reader.bind_apply, litInNumber_litOutNumber]
  simp only [Option.bind_some]
  rw [if_neg (by decide), if_neg (by decide), if_neg (by decide), if_pos trivial, Reader.bind_apply,
    litInNumber_litOutNumber]
  simp only [Option.bind_some]
  rw [if_neg (not_not.mpr rfl), Reader.bind_apply, litInNumber_litOutNumber]
  simp only [Option.bind_some]
  split <;> rfl

end

/-- The identifier is a C string whose length fits in an `int` and whose hash column is in the
table, as that of any identifier in ASCII is. -/
def Symbols.Plain (y : Symbols) (np : NameId) : Prop :=
  0 ∉ y.ident np ∧ (y.ident np).length < 2 ^ 31 ∧ 0 ≤ Linker.tableColumn (y.ident np)

/-! ### The state of `lit` -/

namespace Linker

variable {y : Symbols} {σ : NameId → NameId} {nps : List NameId} {ifi : FileId} {l l' : Linker}
  {h h' : History} {np : NameId}

/-- The `NAME` records of the names `nps` have been read; `σ` tells which name of `lit` each of them
has become. -/
structure NamesRead (y : Symbols) (ifi : FileId) (σ : NameId → NameId) (nps : List NameId)
    (l : Linker) (h : History) (l' : Linker) : Prop where
  names : (l'.ifiles ifi).names = (l.ifiles ifi).names ++ nps.map σ
  ident : ∀ np ∈ nps, (l'.names (σ np)).ident = y.ident np
  kept : ∀ n < l.nnames, (l'.names n).ident = (l.names n).ident
  nnames : l.nnames ≤ l'.nnames
  nifiles : l'.nifiles = l.nifiles
  nErrors : l'.nErrors = l.nErrors
  inv : Inv l' h
  strings : l'.Strings
  run : runFrom (l, h) (nps.map (y.nameEvent ifi)) = some (l', h)
  loop : ∀ fuel area rest k,
    nametableLoop ifi (fuel + nps.length) area l ⟨nps.flatMap y.ntabEntry ++ rest, k⟩ =
      nametableLoop ifi fuel area l' ⟨rest, k⟩

theorem findName_nErrors (l : Linker) (key : List Byte) :
    (l.findName key).2.nErrors = l.nErrors := by
  rw [findName]
  split <;> rfl

theorem addEntry_counts (l : Linker) (ifi : FileId) (n : NameId) (flags : Word) :
    (l.addEntry ifi n flags).nnames = l.nnames ∧
      (l.addEntry ifi n flags).nErrors = l.nErrors := by
  rw [addEntry]
  have hdefine : ∀ l : Linker, (l.define n ifi).nnames = l.nnames ∧
      (l.define n ifi).nErrors = l.nErrors := by
    intro l
    rw [define]
    dsimp only
    split_ifs <;> exact ⟨rfl, rfl⟩
  split_ifs
  · exact (hdefine _)
  · exact (hdefine _)
  · exact ⟨rfl, rfl⟩
  · exact ⟨rfl, rfl⟩

/-- **The names of the file** are those of `ast`, in the same order. -/
theorem exists_namesRead (hnodup : nps.Nodup)
    (hident : ∀ np ∈ nps, y.Plain np) (hi : Inv l h) (hs : l.Strings) (hifi : ifi < l.nifiles) : ∃ σ l', NamesRead y ifi σ nps l h l' := by
  induction nps generalizing l with
  | nil =>
      exact ⟨id, l, by simp, by simp, fun _ _ => rfl, le_rfl, rfl, rfl, hi, hs, rfl,
        fun _ _ _ _ => rfl⟩
  | cons np nps ih =>
      obtain ⟨hnp, hnodup⟩ := List.nodup_cons.mp hnodup
      obtain ⟨⟨hzero, hlength, hcolumn⟩, hident⟩ := List.forall_mem_cons.mp hident
      obtain ⟨n, hn⟩ : ∃ n, n = (l.findName (y.ident np)).1 := ⟨_, rfl⟩
      obtain ⟨l₁, hl₁⟩ : ∃ l₁, l₁ = (l.findName (y.ident np)).2.addEntry ifi n (y.flags np) :=
        ⟨_, rfl⟩
      have hread : l.readName ifi (y.ident np) (y.flags np) = some l₁ :=
        readName_eq_some.mpr ⟨hcolumn, hn ▸ hl₁⟩
      obtain ⟨hnames, -, hid⟩ := (l.findName (y.ident np)).2.addEntry_spec ifi n (y.flags np)
      obtain ⟨hnnames, hnErrors⟩ :=
        (l.findName (y.ident np)).2.addEntry_counts ifi n (y.flags np)
      rw [findName_nErrors] at hnErrors
      have hk := keeps_findName hi.valid hzero
      have hi₁ := inv_readName hi hifi hread
      have hnifiles := readName_nifiles hread
      have hfound := findName_ident hs (y.ident np)
      rw [← hl₁] at hnames hid hnnames hnErrors
      have hfile : (l₁.ifiles ifi).names = (l.ifiles ifi).names ++ [n] := by
        rw [hnames, hk.names, beq_self_eq_true, if_pos rfl]
      have hlt : n < l₁.nnames := hi₁.valid.names_lt ifi n (by rw [hfile]; simp)
      have hs₁ : l₁.Strings := fun m => (hid m).symm ▸ hk.strings hs m
      obtain ⟨σ, l', hr⟩ := ih hnodup hident hi₁ hs₁ (hnifiles.symm ▸ hifi)
      have hmap : nps.map (Function.update σ np n) = nps.map σ :=
        List.map_congr_left fun m hm => Function.update_of_ne (ne_of_mem_of_not_mem hm hnp) ..
      refine ⟨Function.update σ np n, l', ?_, ?_, ?_, ?_, hr.nifiles.trans hnifiles,
        hr.nErrors.trans hnErrors, hr.inv, hr.strings, ?_, ?_⟩
      · rw [List.map_cons, Function.update_self, hmap, hr.names, hfile, List.append_assoc]
        rfl
      · refine List.forall_mem_cons.mpr ⟨?_, fun m hm => ?_⟩
        · rw [Function.update_self, hr.kept n hlt, hid, hn, hfound]
        · rw [Function.update_of_ne (ne_of_mem_of_not_mem hm hnp), hr.ident m hm]
      · intro m hm
        rw [hr.kept m (hm.trans_le (hk.nnames.trans_eq hnnames.symm)), hid, hk.ident m hm]
      · exact (hk.nnames.trans_eq hnnames.symm).trans hr.nnames
      · have hstep : l.step (y.nameEvent ifi np) = some l₁ := by
          rw [Symbols.nameEvent, step, if_pos hifi, hread]
        rw [List.map_cons, runFrom, List.foldlM_cons, hstep]
        exact hr.run
      · intro fuel area rest k
        rw [List.length_cons, ← Nat.add_assoc, List.flatMap_cons, List.append_assoc,
          nametableLoop_name hlength hread]
        exact hr.loop fuel area rest k

/-- A global name is found at its index. -/
theorem ifileName_index (hy : y.Ok) (hshort : y.globalNames.length < 2 ^ 31)
    (hnames : (l.ifiles ifi).names = y.globalNames.map σ) (hnp : np ∈ y.globalNames) :
    l.ifileName ifi (y.index np) = some (σ np) := by
  obtain ⟨k, hk, hget⟩ := List.mem_iff_getElem.mp hnp
  have hindex := hy.index k np (by rw [List.getElem?_eq_getElem hk, hget])
  have hlt : k < 2 ^ 31 := hk.trans hshort
  rw [ifileName, hindex, slt_ofNat hlt, hnames, BitVec.toNat_ofNat, Nat.mod_eq_of_lt (by omega),
    List.getElem?_map, List.getElem?_eq_getElem hk, hget]
  rfl

theorem readNeed_nErrors {n : Word} (hn : l.ifileName ifi n ≠ none)
    (hread : readNeed ifi np l n = some l') : l'.nErrors = l.nErrors := by
  have hadd : ∀ need, (l.addNeed np need).nErrors = l.nErrors := fun need => by
    rcases l.addNeed_eq np need with heq | heq <;> rw [heq]
    rfl
  obtain ⟨need, hneed⟩ := Option.ne_none_iff_exists'.mp hn
  rw [readNeed, hneed] at hread
  dsimp only at hread
  split_ifs at hread
  · exact (markWantedAt_same hread).nErrors.trans (hadd need)
  · exact (congrArg Linker.nErrors (Option.some.inj hread)).symm.trans (hadd need)

theorem readNeeds_nErrors {n : Word} {needs : List Word} (hn : l.ifileName ifi n ≠ none)
    (hneeds : ∀ m ∈ needs, l.ifileName ifi m ≠ none) (hread : l.readNeeds ifi n needs = some l') :
    l'.nErrors = l.nErrors := by
  obtain ⟨np, hnp⟩ := Option.ne_none_iff_exists'.mp hn
  rw [readNeeds, hnp] at hread
  dsimp only at hread
  clear hn hnp
  induction needs generalizing l with
  | nil =>
      rw [Option.some.inj hread]
  | cons m needs ih =>
      obtain ⟨hm, hneeds⟩ := List.forall_mem_cons.mp hneeds
      rw [List.foldlM_cons] at hread
      obtain ⟨l₁, hfirst, hread⟩ := Option.bind_eq_some_iff.mp hread
      have hk := readNeed_keeps hfirst
      refine (ih (fun m hm => ?_) hread).trans (readNeed_nErrors hm hfirst)
      rw [ifileName, hk.names]
      exact hneeds m hm

/-- **The needs that are read** are those that were written. -/
theorem needs_read (hy : y.Ok) (hshort : y.globalNames.length < 2 ^ 31)
    (hnames : (l.ifiles ifi).names = y.globalNames.map σ) (hnps : ∀ np ∈ nps, np ∈ y.globalNames)
    (hi : Inv l h) (hifi : ifi < l.nifiles) :
    ∃ l' h', runFrom (l, h) (nps.map (y.needsEvent ifi)) = some (l', h') ∧ Keeps l l' ∧
      l'.nErrors = l.nErrors ∧
      (∀ p, p ∈ h'.needs ↔ p ∈ h.needs ∨ ∃ np ∈ nps, ∃ m ∈ y.needs np, p = (σ np, σ m)) ∧
      ∀ fuel area rest k,
        nametableLoop ifi (fuel + nps.length) area l ⟨nps.flatMap y.needsRecord ++ rest, k⟩ =
          nametableLoop ifi fuel area l' ⟨rest, k⟩ := by
  induction nps generalizing l h with
  | nil => exact ⟨l, h, rfl, .refl l, rfl, fun p => by simp, fun _ _ _ _ => rfl⟩
  | cons np nps ih =>
      obtain ⟨hnp, hnps⟩ := List.forall_mem_cons.mp hnps
      have hfind : ∀ m ∈ y.globalNames, l.ifileName ifi (y.index m) = some (σ m) := fun m hm =>
        ifileName_index hy hshort hnames hm
      have hneeds : ∀ m ∈ y.needs np, l.ifileName ifi (y.index m) = some (σ m) := fun m hm =>
        hfind m (hy.needs np m hm)
      obtain ⟨l₁, hread, hi₁⟩ := inv_readNeeds hi ifi (y.index np) ((y.needs np).map y.index)
      have hk := readNeeds_keeps hread
      have herrors : l₁.nErrors = l.nErrors := by
        refine readNeeds_nErrors (by rw [hfind np hnp]; simp) (fun n hn => ?_) hread
        obtain ⟨m, hm, rfl⟩ := List.mem_map.mp hn
        rw [hneeds m hm]
        simp
      have hpairs : l.needPairs ifi (y.index np) ((y.needs np).map y.index) =
          (y.needs np).map fun m => (σ np, σ m) := by
        rw [needPairs, hfind np hnp]
        dsimp only
        have hfound : (y.needs np).filterMap (l.ifileName ifi ∘ y.index) = (y.needs np).map σ :=
          (List.filterMap_congr hneeds).trans (congrFun (List.filterMap_eq_map (f := σ)) _)
        rw [List.filterMap_map, hfound, List.map_map]
        rfl
      obtain ⟨l', h', hrun, hk', herrors', hiff, hloop⟩ :=
        ih ((hk.names ifi).trans hnames) hnps hi₁ (hk.nifiles.symm ▸ hifi)
      refine ⟨l', h', ?_, hk.trans hk', herrors'.trans herrors, fun p => ?_, fun fuel area rest k =>
        ?_⟩
      · have hstep : l.step (y.needsEvent ifi np) = some l₁ := by
          rw [Symbols.needsEvent, step, if_pos hifi, hread]
        have hafter : h.after l (y.needsEvent ifi np) =
            { h with
              needs := l.needPairs ifi (y.index np) ((y.needs np).map y.index) ++ h.needs } := by
          rw [Symbols.needsEvent, History.after, if_pos hifi]
        rw [List.map_cons, runFrom, List.foldlM_cons, hstep]
        change (runFrom (l₁, h.after l (y.needsEvent ifi np)) _) = _
        rw [hafter]
        exact hrun
      · rw [hiff, hpairs, List.mem_append, List.mem_map, List.exists_mem_cons_iff]
        constructor
        · rintro ((⟨m, hm, rfl⟩ | hp) | hp)
          · exact .inr (.inl ⟨m, hm, rfl⟩)
          · exact .inl hp
          · exact .inr (.inr hp)
        · rintro (hp | ⟨m, hm, rfl⟩ | hp)
          · exact .inl (.inr hp)
          · exact .inl (.inl ⟨m, hm, rfl⟩)
          · exact .inr hp
      · rw [List.length_cons, ← Nat.add_assoc, List.flatMap_cons, List.append_assoc,
          nametableLoop_needs (by rw [hfind np hnp]; simp) (fun m hm => ?_) hread]
        · exact hloop fuel area rest k
        · intro hneg
          have hsome := hneeds m hm
          rw [hneg, ifileName, if_pos (by decide)] at hsome
          cases hsome

end Linker

/-! ### From `ast` to `lit` -/

section

variable {fuel : Nat} {fragments : List Asm.Fraglist} {table : List NameId} {y y' : Symbols}

/-- What the name `np` cannot be linked without: what a directive said, what the elements of its
fragment mention, and what its value mentions as it is written. -/
def Symbols.Requires (y y' : Symbols) (fragments : List Asm.Fraglist) (np m : NameId) : Prop :=
  m ∈ y.needs np ∨ m ≠ np ∧
    ((∃ f ∈ fragments, np = f.name ∧ ∃ el ∈ f.elts, (y.memory.store.element el).u.Mentions m) ∨
      y.valued np = true ∧ ∃ v, (y'.memory.store.name np).val = some v ∧ v.Mentions m)

/-- The bytes of the two areas, with their markers. -/
def Symbols.namesBytes (y : Symbols) (nps : List NameId) (length length' : Word) : List Byte :=
  y.globalNames.flatMap y.ntabEntry ++ (litOutMarker litAreaNametable length ++
    (nps.flatMap y.needsRecord ++ litOutMarker litAreaNeeds length'))

/-- **What `ast` writes** of its names, and what it has found that they need. -/
theorem outputNames_spec (fuel : Nat) (fragments : List Asm.Fraglist) (hy : y.Ok)
    (htable : table.Nodup) (hall : ∀ np ∈ y.globalNames, np ∈ table) :
    Ensures (fun _ => True) (fun _ => True) (outputNames fuel fragments table) (fun b y' =>
      Extends y y' ∧ y'.Ok ∧ (∀ np m, m ∈ y'.needs np ↔ y.Requires y' fragments np m) ∧
        ∃ length length', b = y'.namesBytes (table.filter y'.hasNeeds) length length') y := by
  refine ensures_bind.mpr ((passNeeds_spec fragments y).mono fun _ y₁ h₁ => ?_)
  refine ensures_bind.mpr (ensures_get.mpr (ensures_bind.mpr (ensures_ofOption.mpr
    ⟨fun nametable hnametable => ?_, fun _ => trivial⟩)))
  have hy₁ := h₁.ok hy
  rw [outputNametable_eq hy₁] at hnametable
  obtain rfl := Option.some.inj hnametable
  refine ensures_bind.mpr (ensures_bind.mpr ((needsArea_spec fuel htable y₁).mono fun b y' h' =>
    ensures_pure.mpr (ensures_pure.mpr ?_)))
  have hext := h₁.ext.trans h'.ext
  have hvalued : ∀ np, y₁.valued np = y.valued np := fun np => by
    rw [Symbols.valued, Symbols.valued, h₁.ext.global, h₁.ext.defined, h₁.ext.fragment]
  have hvalue : ∀ np, y.valued np = true → ∃ v, (y'.memory.store.name np).val = some v ∧
      (∀ m, v.Mentions m → y₁.global m = true) ∧
      ∀ m, m ∈ y'.needs np ↔ m ∈ y₁.needs np ∨ m ≠ np ∧ v.Mentions m := by
    intro np hv
    have hg : y.global np = true := by
      rw [Symbols.valued, Bool.and_eq_true, Bool.and_eq_true] at hv
      exact hv.1.1
    exact h'.value np (hall np ((hy.global np).mp hg)) ((hvalued np).trans hv)
  have hsame : ∀ np, y.valued np = false → y'.needs np = y₁.needs np := fun np hv =>
    h'.same np (.inr ((hvalued np).trans hv))
  refine ⟨hext, h'.ext.ok hy₁ fun np m hm => ?_, fun np m => ?_,
    BitVec.ofNat 32 (y₁.globalNames.flatMap y₁.ntabEntry).length, BitVec.ofNat 32 b.length, ?_⟩
  · by_cases hv : y.valued np = true
    · obtain ⟨v, -, hglobal, hiff⟩ := hvalue np hv
      rcases (hiff m).mp hm with hm | ⟨-, hm⟩
      · exact hy₁.needs np m hm
      · exact (hy₁.global m).mp (hglobal m hm)
    · rw [hsame np (Bool.eq_false_iff.mpr hv)] at hm
      exact hy₁.needs np m hm
  · rw [Symbols.Requires]
    by_cases hv : y.valued np = true
    · obtain ⟨v, hval, -, hiff⟩ := hvalue np hv
      rw [hiff, h₁.needs, or_assoc, ← and_or_left, hval]
      simp only [hv, true_and, Option.some.injEq, exists_eq_left']
    · rw [hsame np (Bool.eq_false_iff.mpr hv), h₁.needs]
      simp only [hv, Bool.false_eq_true, false_and, or_false]
  · have hentry : y₁.ntabEntry = y'.ntabEntry := by
      funext np
      rw [Symbols.ntabEntry, Symbols.ntabEntry, Symbols.flags, Symbols.flags, h'.ext.ident,
        h'.ext.defined, h'.ext.fragment, h'.ext.common]
    rw [Symbols.namesBytes, ← h'.bytes, h'.ext.globalNames, ← hentry, List.append_assoc]

namespace Linker

variable {l : Linker} {h : History} {ifi : FileId} {nps : List NameId}

/-- **The two areas are read** as the records in them say. -/
theorem nametableLoop_written (hy : y.Ok) (hshort : y.globalNames.length < 2 ^ 31)
    (hident : ∀ np ∈ y.globalNames, y.Plain np)
    (hnps : ∀ np ∈ nps, np ∈ y.globalNames) (hi : Inv l h) (hs : l.Strings)
    (hifi : ifi < l.nifiles) (hnew : (l.ifiles ifi).names = []) (length length' : Word)
    (rest : List Byte) (k : Nat) :
    ∃ σ l' h' pad, ifileReadNametable l ifi ⟨y.namesBytes nps length length' ++ rest, k⟩ =
        some (l', ⟨List.replicate pad 0 ++ rest, k⟩) ∧
      runFrom (l, h) (y.globalNames.map (y.nameEvent ifi) ++ nps.map (y.needsEvent ifi)) =
        some (l', h') ∧
      l'.nErrors = l.nErrors ∧ (l'.ifiles ifi).names = y.globalNames.map σ ∧
      (∀ np ∈ y.globalNames, (l'.names (σ np)).ident = y.ident np) ∧
      ∀ p, p ∈ h'.needs ↔ p ∈ h.needs ∨ ∃ np ∈ nps, ∃ m ∈ y.needs np, p = (σ np, σ m) := by
  obtain ⟨σ, l₁, hr⟩ := exists_namesRead hy.nodup hident hi hs hifi
  have hnames : (l₁.ifiles ifi).names = y.globalNames.map σ := by
    rw [hr.names, hnew, List.nil_append]
  obtain ⟨l', h', hrun, hk, herrors, hiff, hloop⟩ :=
    needs_read hy hshort hnames hnps hr.inv (hr.nifiles.symm ▸ hifi)
  refine ⟨σ, l', h', markerPad litAreaNeeds length', ?_, ?_, herrors.trans hr.nErrors,
    (hk.names ifi).trans hnames, fun np hnp => ?_, hiff⟩
  · -- every record takes a byte at least
    obtain ⟨fuel, hfuel⟩ : ∃ fuel, (y.namesBytes nps length length' ++ rest).length + 1 =
        fuel + 1 + nps.length + markerPad litAreaNametable length + 1 + y.globalNames.length := by
      have hentries := length_flatMap_le y.ntabEntry (fun np => by
        have hpos := litOutNumber_ne_nil Ttools.litName
        rw [Symbols.ntabEntry, List.length_append, List.length_append]
        omega) y.globalNames
      have hrecords := length_flatMap_le y.needsRecord (fun np => by
        have hpos := litOutNumber_ne_nil litNeeds
        rw [Symbols.needsRecord, List.length_append, List.length_append, List.length_append]
        omega) nps
      have hmarker : ∀ area length : Word,
          1 + markerPad area length ≤ (litOutMarker area length).length := by
        intro area length
        have hpos := litOutNumber_ne_nil litMarker
        rw [litOutMarker, markerPad]
        simp only [List.length_append, List.length_replicate] at *
        omega
      have hfirst := hmarker litAreaNametable length
      have hsecond := hmarker litAreaNeeds length'
      refine ⟨(y.namesBytes nps length length' ++ rest).length -
        (nps.length + markerPad litAreaNametable length + 1 + y.globalNames.length), ?_⟩
      simp only [Symbols.namesBytes, List.length_append]
      omega
    show nametableLoop ifi _ litAreaNametable l _ = _
    dsimp only
    rw [hfuel, Symbols.namesBytes]
    simp only [List.append_assoc]
    rw [hr.loop, nametableLoop_marker, if_neg (by decide), nametableLoop_dummies, hloop,
      show litAreaNametable + 1 = litAreaNeeds from rfl, nametableLoop_marker, if_pos (by decide)]
  · rw [runFrom, List.foldlM_append]
    change (runFrom (l, h) _).bind _ = _
    rw [hr.run]
    exact hrun
  · have hlt : σ np < l₁.nnames := hr.inv.valid.names_lt ifi (σ np) (by
      rw [hnames]
      exact List.mem_map_of_mem hnp)
    rw [hk.ident _ hlt, hr.ident np hnp]

/-- What has been read is not forgotten. -/
theorem needs_kept {l' : Linker} {h' : History} {es : List Event}
    (hrun : runFrom (l, h) es = some (l', h')) : ∀ p ∈ h.needs, p ∈ h'.needs := by
  induction es generalizing l h with
  | nil =>
      cases hrun
      exact fun _ => id
  | cons e es ih =>
      rw [runFrom, List.foldlM_cons] at hrun
      obtain ⟨⟨l₁, h₁⟩, hstep, hrun⟩ := Option.bind_eq_some_iff.mp hrun
      obtain ⟨l₂, -, heq⟩ := Option.map_eq_some_iff.mp hstep
      cases heq
      refine fun p hp => ih hrun p ?_
      cases e with
      | needs ifi n needs =>
          rw [History.after]
          split
          · exact List.mem_append_right _ hp
          · exact hp
      | _ => exact hp

/-- What a wanted name needs is wanted. -/
theorem wanted_of_needs (hi : Inv l h) {a b : NameId} (hab : (a, b) ∈ h.needs)
    (ha : (l.names a).wanted = true) : (l.names b).wanted = true := by
  by_cases heq : a = b
  · exact heq ▸ ha
  · exact hi.closure.1.2 ha ((hi.read a b heq).mp hab)

end Linker

/-- **Nothing that is linked is missing**: `lit` reads the names and the needs that `ast` has
written without an error, as the names `σ` of its own; it learns of all those needs; and whatever
it does later, a wanted name of the file has all wanted that it requires. -/
theorem needs_linked (hy : y.Ok) (htable : table.Nodup) (hall : ∀ np ∈ y.globalNames, np ∈ table)
    (hident : ∀ np ∈ y.globalNames, y.Plain np)
    (hshort : y.globalNames.length < 2 ^ 31) {bytes : List Byte} {log : List Risk}
    (hout : outputNames fuel fragments table y = (.ok (bytes, y'), log)) {es : List Event}
    {l : Linker} {h : History} {ifi : FileId} (hes : ∀ e ∈ es, e.IsString)
    (hrun : run es = some (l, h)) (hifi : ifi < l.nifiles) (hnew : (l.ifiles ifi).names = [])
    (rest : List Byte) (k : Nat) :
    ∃ σ l' h' pad es', ifileReadNametable l ifi ⟨bytes ++ rest, k⟩ =
        some (l', ⟨List.replicate pad 0 ++ rest, k⟩) ∧
      run (es ++ es') = some (l', h') ∧ l'.nErrors = l.nErrors ∧
      (l'.ifiles ifi).names = y.globalNames.map σ ∧
      (∀ np ∈ y.globalNames, (l'.names (σ np)).ident = y.ident np) ∧
      (∀ np m, y.global np = true → y.defined np = true → y.Requires y' fragments np m →
        (σ np, σ m) ∈ h'.needs) ∧
      ∀ later l₂ h₂, run (es ++ es' ++ later) = some (l₂, h₂) → ∀ np m, y.global np = true →
        y.defined np = true → y.Requires y' fragments np m →
        (l₂.names (σ np)).wanted = true → (l₂.names (σ m)).wanted = true := by
  obtain ⟨hext, hy', hneeds, length, length', rfl⟩ :=
    (outputNames_spec fuel fragments hy htable hall).run hout fun _ _ => trivial
  obtain ⟨hr, hi⟩ := run_recorded hes hrun
  have hmem : ∀ np, np ∈ table.filter y'.hasNeeds ↔
      y.global np = true ∧ y.defined np = true ∧ y'.needs np ≠ [] := by
    intro np
    rw [List.mem_filter, Symbols.hasNeeds, hext.global, hext.defined, Bool.and_eq_true,
      Bool.and_eq_true, and_assoc, Bool.not_eq_true', List.isEmpty_eq_false_iff]
    exact ⟨fun h => h.2, fun h => ⟨hall np ((hy.global np).mp h.1), h⟩⟩
  obtain ⟨σ, l', h', pad, hread, hevents, herrors, hnames, hidents, hiff⟩ :=
    Linker.nametableLoop_written hy' (hext.globalNames.symm ▸ hshort)
      (fun np hnp => by
        rw [Symbols.Plain, hext.ident]
        exact hident np (hext.globalNames ▸ hnp))
      (fun np hnp => (hy'.global np).mp (hext.global ▸ ((hmem np).mp hnp).1)) hi hr.strings hifi
      hnew length length' rest k
  rw [hext.globalNames] at hnames hidents
  rw [hext.ident] at hidents
  have hlearned : ∀ np m, y.global np = true → y.defined np = true →
      y.Requires y' fragments np m → (σ np, σ m) ∈ h'.needs := by
    intro np m hg hd hreq
    have hm := (hneeds np m).mpr hreq
    exact (hiff _).mpr (.inr ⟨np, (hmem np).mpr ⟨hg, hd, List.ne_nil_of_mem hm⟩, m, hm, rfl⟩)
  have happend : ∀ es₁ es₂, run (es₁ ++ es₂) = (run es₁).bind fun s => runFrom s es₂ :=
    fun es₁ es₂ => by
      rw [run, runFrom, List.foldlM_append]
      rfl
  have hwhole : run (es ++ (y'.globalNames.map (y'.nameEvent ifi) ++
      (table.filter y'.hasNeeds).map (y'.needsEvent ifi))) = some (l', h') := by
    rw [happend, hrun]
    exact hevents
  refine ⟨σ, l', h', pad, _, hread, hwhole, herrors, hnames, hidents, hlearned, ?_⟩
  intro later l₂ h₂ hlater np m hg hd hreq hw
  have hrest : runFrom (l', h') later = some (l₂, h₂) := by
    rwa [happend, hwhole] at hlater
  have hi₂ := Linker.inv_runFrom Linker.inv_initial hlater
  exact Linker.wanted_of_needs hi₂
    (Linker.needs_kept hrest _ (hlearned np m hg hd hreq)) hw

/-- The names `f`, a fragment whose only command mentions `v`, and `v`, whose value is `5`. -/
def callingV : Symbols :=
  let y : Symbols :=
    { memory := { store := { name := fun _ => ⟨some (.const 5), 0, false⟩
                             element := fun _ => ⟨.const 1, .cmd 0 (.name 1)⟩ }
                  answers := fun _ => false }
      ident := fun np => if np = 0 then [0x66] else [0x76]
      defined := fun _ => true
      fragment := fun np => np = 0
      common := fun _ => false
      index := fun _ => 0
      needs := fun _ => []
      globalNames := [] }
  (y.globalizeName 0).globalizeName 1

theorem callingV_ok : callingV.Ok :=
  Symbols.Ok.globalizeName (Symbols.Ok.globalizeName
    ⟨fun _ => by simp [Symbols.global], List.nodup_nil, by simp, by simp⟩ 0) 1

theorem needs_linked_callingV : ∃ (σ : NameId → NameId) (l' : Linker) (h' : History)
    (es' : List Event), run (.ifile false :: es') = some (l', h') ∧
      (l'.ifiles 0).names = [σ 0, σ 1] ∧ (σ 0, σ 1) ∈ h'.needs ∧
      ∀ later l₂ h₂, run (.ifile false :: es' ++ later) = some (l₂, h₂) →
        (l₂.names (σ 0)).wanted = true → (l₂.names (σ 1)).wanted = true := by
  obtain ⟨bytes, y', log, hout⟩ : ∃ bytes y' log,
      outputNames 1 [⟨0, [0]⟩] [0, 1] callingV = (.ok (bytes, y'), log) := ⟨_, _, _, rfl⟩
  obtain ⟨l, h, hrun, hnifiles, hnames⟩ : ∃ l h, run [.ifile false] = some (l, h) ∧
      l.nifiles = 1 ∧ (l.ifiles 0).names = [] := ⟨_, _, rfl, rfl, rfl⟩
  have hident : ∀ np, callingV.Plain np := by
    intro np
    have hor : callingV.ident np = [0x66] ∨ callingV.ident np = [0x76] := ite_eq_or_eq ..
    rw [Symbols.Plain]
    rcases hor with heq | heq
    · rw [heq]
      decide
    · rw [heq]
      decide
  obtain ⟨σ, l', h', -, es', -, hwhole, -, hnames', -, hneeds, hlater⟩ :=
    needs_linked callingV_ok (by decide) (fun np hnp => hnp) (fun np _ => hident np) (by decide)
      hout (by simp [Event.IsString]) hrun
      (hnifiles.symm ▸ Nat.zero_lt_one) hnames [] 0
  have hreq : callingV.Requires y' [⟨0, [0]⟩] 0 1 :=
    .inr ⟨by decide, .inl ⟨_, List.mem_singleton_self _, rfl, 0, List.mem_singleton_self 0, rfl⟩⟩
  exact ⟨σ, l', h', es', hwhole, hnames', hneeds 0 1 rfl rfl hreq,
    fun later l₂ h₂ hrun₂ hw => hlater later l₂ h₂ hrun₂ 0 1 rfl rfl hreq hw⟩

end

end Ttools
