import Ttools.Cmd.Generate
import Ttools.Expr.Build
import Ttools.Expr.Estimate
import Ttools.Expr.Reduce

/-!
# Emission

What the assembler puts into its segments: `emit_block`, `emit_cmd`, `emit_align` and `emit_data`
(`shared/ments.c`), `name_assign_value` (`shared/misc.c`), and `do_pending_alignment`
(`ast/parse.y`).

The expressions are trees; where the code looks at `nrefs` of a node the memory gives the answer.
`nrefs` of an element counts the calls of `expr_element`: the point of a segment holds what its
current element has been given.  A chain of elements is a list; so is the vector of fragments, of
which the last is the current one.
-/

namespace Ttools.Asm

open Support (Logged)
open Support.Logged (stop ofOption)

/-! ### The state -/

/-- `struct fraglist`. -/
structure Fraglist where
  name : NameId
  elts : List ElemId
  deriving DecidableEq, Repr

/-- `struct segment`. -/
structure Segment where
  fragments : List Fraglist
  curel : Option ElemId
  point : Expr
  slot : Word
  pendingAlignment : Word
  pendingAlignmentFiller : Option Expr

/-- The state of the assembler while it parses.  `values` is the stack of semantic values. -/
structure Assembler where
  memory : Memory
  segments : String → Option Segment
  curseg : String
  nonames : Nat
  nextElement : ElemId
  nrefs : ElemId → Nat
  allocated : ElemId → Word
  defined : NameId → Bool
  fragment : NameId → Bool
  common : NameId → Bool
  backlab : Fin 10 → Option Expr
  forwlab : Fin 10 → Option NameId
  dataWidth : Word
  values : List Expr
  errors : Nat

/-- Why the assembler comes to an end: a null `expr_share`, a failed assertion or the end of the
recursion that the model allows, or a loop without end. -/
inductive Halt where
  | null
  | stop (s : Stop)
  | endless
  deriving DecidableEq, Repr

abbrev Emission := Logged Assembler Halt Risk

/-- The name of the identifier with this number. -/
def identName (i : Nat) : NameId := 2 * i

/-- The names of `table_add_noname`, in their order. -/
def noname (k : Nat) : NameId := 2 * k + 1

namespace Assembler

def store (s : Assembler) : Store := s.memory.store

def withStore (s : Assembler) (st : Store) : Assembler :=
  { s with memory := { s.memory with store := st } }

/-- The state with another value of a name. -/
def withName (s : Assembler) (np : NameId) (n : Name) : Assembler :=
  s.withStore { s.store with name := Function.update s.store.name np n }

def withElement (s : Assembler) (el : ElemId) (x : Element) : Assembler :=
  s.withStore { s.store with element := Function.update s.store.element el x }

def withSegment (s : Assembler) (seg : String) (x : Segment) : Assembler :=
  { s with segments := Function.update s.segments seg (some x) }

end Assembler

/-- A computation on expressions. -/
def reduce {α : Type} (x : Reducer α) : Emission α := fun s =>
  match x s.memory with
  | (.ok (a, m), log) => (.ok (a, { s with memory := m }), log)
  | (.error e, log) => (.error (.stop e), log)

/-- `error`. -/
def report : Emission Unit := Logged.modify fun s => { s with errors := s.errors + 1 }

def getSegment (seg : String) : Emission Segment := do
  ofOption (.stop .abort) ((← Logged.get).segments seg)

def setSegment (seg : String) (x : Segment) : Emission Unit :=
  Logged.modify fun s => s.withSegment seg x

/-! ### Names -/

/-- `name_alloc`. -/
def nameAlloc : Name := ⟨none, 1, false⟩

/-- `table_add_noname`. -/
def tableAddNoname : Emission NameId := fun s =>
  let np := noname s.nonames
  (.ok (np, { s.withName np nameAlloc with
    nonames := s.nonames + 1
    defined := Function.update s.defined np false
    fragment := Function.update s.fragment np false
    common := Function.update s.common np false }), [])

def setVal (np : NameId) (v : Expr) : Emission Unit :=
  Logged.modify fun s => s.withName np { s.store.name np with val := some v }

def setAlign (np : NameId) (align : Word) : Emission Unit :=
  Logged.modify fun s => s.withName np { s.store.name np with align := align }

def setDefined (np : NameId) : Emission Unit :=
  Logged.modify fun s => { s with defined := Function.update s.defined np true }

def setFragment (np : NameId) : Emission Unit :=
  Logged.modify fun s => { s with fragment := Function.update s.fragment np true }

/-- `globalize_name`. -/
def globalizeName (np : NameId) : Emission Unit :=
  Logged.modify fun s => s.withName np { s.store.name np with global := true }

/-- `expr_name_mentioned` away from names. -/
def mentioned (name : NameId → Option Bool) : Expr → Option Bool
  | .unop _ r => mentioned name r
  | .binop _ l r => do if ← mentioned name r then return true else mentioned name l
  | .name np => name np
  | _ => some false

/-- `expr_name_mentioned`. -/
def exprNameMentioned (st : Store) (np : NameId) : Nat → Expr → Option Bool
  | 0, _ => none
  | fuel + 1, e => mentioned (fun n =>
      if n = np then some true
      else match (st.name n).val with
        | some v => exprNameMentioned st np fuel v
        | none => some false) e

/-- `name_assign_value`. -/
def nameAssignValue (fuel : Nat) (np : NameId) (e : Expr) : Emission Unit := do
  let s ← Logged.get
  if ← ofOption (.stop .fuel) (exprNameMentioned s.store np fuel e) then do
    -- "would make a cycle in expression graph"
    report
    setVal np (.const 0)
  else if (1 : Word).slt (s.store.name np).align then do
    let offset ← reduce (exprCheckAlignment fuel (s.store.name np).align e)
    if offset ≠ 0 then do
      -- "because of its required alignment"
      report
      setVal np (.const 0)
    else setVal np e
  else setVal np e

/-! ### Elements -/

/-- The chain that ends with `curel`, or the empty one of the last fragment, gets longer. -/
def Segment.chained (x : Segment) (el : ElemId) : List Fraglist :=
  match x.curel with
  | some c => x.fragments.map fun f => if c ∈ f.elts then { f with elts := f.elts ++ [el] } else f
  | none => x.fragments.dropLast ++ x.fragments.getLast?.toList.map fun f => { f with elts := [el] }

/-- `add_element`, with the size and the members that its caller sets. -/
def addElement (seg : String) (size : Expr) (u : Body) : Emission ElemId := do
  let x ← getSegment seg
  if x.fragments = [] then stop (.stop .abort)
  else do
    let s ← Logged.get
    let el := s.nextElement
    Logged.modify fun s => { (s.withElement el ⟨size, u⟩) with
      nextElement := el + 1
      nrefs := Function.update s.nrefs el 0
      allocated := Function.update s.allocated el 0 }
    setSegment seg { x with fragments := x.chained el, curel := some el }
    return el

/-- `add_fragment`. -/
def addFragment (seg : String) (newfrag : NameId) : Emission Unit := do
  let x ← getSegment seg
  setSegment seg { x with
    fragments := x.fragments ++ [⟨newfrag, []⟩]
    point := .name newfrag
    curel := none }

/-- `add_segment`. -/
def addSegment (seg : String) (deffrag : NameId) : Emission Unit := do
  setSegment seg ⟨[], none, .name deffrag, 0, 1, none⟩
  addFragment seg deffrag

/-- `swap_last_fragments`: both assignments after the first are to the last but one. -/
def swapLastFragments (seg : String) : Emission Unit := do
  let x ← getSegment seg
  let n := x.fragments.length
  match x.fragments[n - 2]?, x.fragments[n - 1]? with
  | some temp, some last =>
      setSegment seg { x with fragments := (x.fragments.set (n - 2) last).set (n - 2) temp }
  | _, _ => stop (.stop .abort)

/-- The loop of `element_block_make_space`; `none` when it has doubled the size away. -/
def grow (need : Word) : Nat → Word → Option Word
  | 0, _ => none
  | fuel + 1, allocated => if allocated < need then grow need fuel (allocated * 2) else some allocated

/-- `element_block_make_space`.  The sizes are compared without a sign. -/
def elementBlockMakeSpace (el : ElemId) (len : Word) : Emission Unit := do
  let s ← Logged.get
  match (s.store.element el).u, (s.store.size el).const? with
  | .block _, some size =>
      let need := size + len
      if s.allocated el < need then do
        let start := if s.allocated el = 0 then 32 else s.allocated el
        let allocated ← ofOption .endless (grow need 33 start)
        Logged.modify fun s => { s with allocated := Function.update s.allocated el allocated }
      else return ()
  | _, _ => stop (.stop .abort)

/-- The current element, or a new one, is a block. -/
def blockElement (seg : String) : Emission ElemId := do
  let x ← getSegment seg
  let s ← Logged.get
  match x.curel with
  | some el =>
      match (s.store.element el).u with
      | .block _ => return el
      | _ => addElement seg (.const 0) (.block [])
  | none => addElement seg (.const 0) (.block [])

/-- Bytes at the end of a block. -/
def appendBytes (el : ElemId) (bytes : List Byte) (len : Word) : Emission Unit :=
  Logged.modify fun s =>
    match s.store.element el with
    | ⟨.const size, .block ptr⟩ => s.withElement el ⟨.const (size + len), .block (ptr ++ bytes)⟩
    | _ => s

/-! ### The point -/

/-- `expr_glue_element`.  A node it has built has no other owner, a node it shares has one. -/
def exprGlueElement (el : ElemId) : Expr → Option Expr
  | .elsum v => some (.elsum (v ++ [.element el]))
  | .element e => some (.elsum [.element e, .element el])
  | .binop .plus l r =>
      match exprGlueElement el l with
      | some temp => exprBinop true .plus temp r
      | none =>
          match exprGlueElement el r with
          | some temp => exprBinop false .plus l temp
          | none => none
  | _ => none

/-- The point of a segment changes.  Here it is a tree of its own; its nodes, and what the names that
have been given it have to do with them, are in `Ttools.Ast.Nodes`. -/
def updatePoint (seg : String) (f : Bool → Expr → Option Expr) : Emission Unit := do
  let lone ← reduce ask
  let x ← getSegment seg
  let point ← ofOption (.stop .abort) (f lone x.point)
  setSegment seg { x with point := point }

/-- `expr_plus_constant (&seg->point, ..)`. -/
def pointPlusConstant (seg : String) (toadd : Word) : Emission Unit :=
  updatePoint seg fun lone e => exprPlusConstant lone e toadd

/-- `expr_plus_element (&seg->point, ..)`. -/
def pointPlusElement (seg : String) (el : ElemId) : Emission Unit := do
  let s ← Logged.get
  match (s.store.size el).const? with
  | some c => pointPlusConstant seg c
  | none => do
      Logged.modify fun s => { s with nrefs := Function.update s.nrefs el (s.nrefs el + 1) }
      updatePoint seg fun lone e =>
        (exprGlueElement el e).or (exprAsgPlus lone e (.element el))

/-! ### The emit functions -/

/-- `emit_block`. -/
def emitBlock (seg : String) (bytes : List Byte) : Emission Unit := do
  let len := BitVec.ofNat 32 bytes.length
  let el ← blockElement seg
  elementBlockMakeSpace el len
  appendBytes el bytes len
  pointPlusConstant seg len

/-- The sizes a command can have with an argument between these bounds. -/
def cmdSizes (lo hi : Word) : Word × Word :=
  let a := BitVec.ofNat 32 (cmdSize lo)
  let b := BitVec.ofNat 32 (cmdSize hi)
  (if lo.sle 0 && (0 : Word).sle hi then 1 else if a.slt b then a else b,
    if b.slt a then a else b)

/-- `minsz` and `maxsz`, from the estimate of the argument. -/
def cmdBounds : Expr → Option (Word × Word)
  | .const c => some (BitVec.ofNat 32 (cmdSize c), BitVec.ofNat 32 (cmdSize c))
  | .range lo hi => some (cmdSizes lo hi)
  | _ => none

/-- The size of a command element, which the slot determines if there is one. -/
def cmdSizeExpr (slot : Word) (bounds : Word × Word) : Expr :=
  let (minsz, maxsz) := if slot ≠ 0 then (slot, slot) else bounds
  if minsz = maxsz then .const minsz else .range minsz maxsz

/-- `emit_cmd`. -/
def emitCmd (fuel : Nat) (seg : String) (opcode : Word) (arg : Expr) : Emission Unit := do
  let x ← getSegment seg
  match arg.const? with
  | some c => do
      let el ← blockElement seg
      elementBlockMakeSpace el 8
      match cmdGenerate (lowByte opcode) c x.slot.toInt with
      | .ok (sz, out) => do
          appendBytes el out (BitVec.ofInt 32 sz)
          pointPlusConstant seg (BitVec.ofInt 32 sz)
      | .error _ => do
          -- "slot %d too narrow for the command"
          report
          pointPlusConstant seg 0
  | none => do
      let s ← Logged.get
      let temp ← ofOption (.stop .fuel) (exprEstimate s.store fuel arg)
      let bounds ← ofOption (.stop .abort) (cmdBounds temp)
      if x.slot ≠ 0 && x.slot.slt bounds.1 then report else pure ()
      let el ← addElement seg (cmdSizeExpr x.slot bounds) (.cmd opcode arg)
      pointPlusElement seg el
  let x ← getSegment seg
  setSegment seg { x with slot := 0 }

/-- The count of an `.align` whose place is not known: `(align - point) & (align - 1)`. -/
def alignCount (align : Word) (point : Expr) : Option Expr := do
  let gap ← exprBinop false .minus (.const align) point
  exprBinop false .and gap (.const (align - 1))

/-- `emit_align`: whether it has emitted something. -/
def emitAlign (fuel : Nat) (seg : String) (align : Word) (filler : Expr) : Emission Bool := do
  let x ← getSegment seg
  let shift ← reduce (exprCheckAlignment fuel align x.point)
  if shift = 0 then return false
  else
    match filler.const? with
    | some c =>
        if shift.slt align then do
          -- not aligned but well-based
          let el ← blockElement seg
          elementBlockMakeSpace el (align - shift)
          appendBytes el (List.replicate (align - shift).toNat (lowByte c)) (align - shift)
          pointPlusConstant seg (align - shift)
          return true
        else general x.point
    | none => general x.point
where
  /-- The padding is a `DATA` element. -/
  general (point : Expr) : Emission Bool := do
    let count ← ofOption (.stop .abort) (alignCount align point)
    let el ← addElement seg (.range 0 (align - 1)) (.data 1 filler count)
    pointPlusElement seg el
    return true

/-- `expr_estimate` of the size of `DATA`. -/
def dataSize (fuel : Nat) (width : Word) (count : Expr) : Emission Expr := do
  let uemp ← ofOption (.stop .abort) (exprBinop false .mul count (.const width))
  let s ← Logged.get
  ofOption (.stop .fuel) (exprEstimate s.store fuel uemp)

/-- `emit_data`. -/
def emitData (fuel : Nat) (seg : String) (width : Word) (data count : Expr) : Emission Unit := do
  let x ← getSegment seg
  let s ← Logged.get
  let ptr ← reduce ask
  match x.curel.map fun el => (el, s.nrefs el, s.store.element el) with
  | some (el, 0, ⟨size, .data width' value count'⟩) =>
      if width' = width && exprEqual ptr value data then do
        -- more of the same: the current element grows
        let old ← ofOption (.stop .abort) size.const?
        pointPlusConstant seg (-old)
        let lone ← reduce ask
        let count ← ofOption (.stop .abort) (exprAsgPlus lone count' count)
        let size ← dataSize fuel width count
        Logged.modify fun s => s.withElement el ⟨size, .data width value count⟩
        pointPlusElement seg el
      else new
  | _ => new
where
  new : Emission Unit := do
    let size ← dataSize fuel width count
    let el ← addElement seg size (.data width data count)
    pointPlusElement seg el

/-! ### Alignment -/

/-- `drop_pending_alignment`. -/
def dropPendingAlignment (seg : String) : Emission Unit := do
  let x ← getSegment seg
  setSegment seg { x with pendingAlignment := 1, pendingAlignmentFiller := none }

/-- `do_pending_alignment`. -/
def doPendingAlignment (fuel : Nat) (seg : String) : Emission Unit := do
  let x ← getSegment seg
  let filler ← ofOption (.stop .abort) x.pendingAlignmentFiller
  if ← emitAlign fuel seg x.pendingAlignment filler then do
    let np ← tableAddNoname
    let x ← getSegment seg
    nameAssignValue fuel np x.point
    setAlign np x.pendingAlignment
    setDefined np
    setSegment seg { x with point := .name np }
  else pure ()
  dropPendingAlignment seg

/-- `if (seg->pending_alignment > 1) do_pending_alignment (seg)`. -/
def flushAlignment (fuel : Nat) (seg : String) : Emission Unit := do
  let x ← getSegment seg
  if (1 : Word).slt x.pendingAlignment then doPendingAlignment fuel seg else pure ()

end Ttools.Asm
