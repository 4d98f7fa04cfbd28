import Ttools.Ast.Emit

/-!
# The actions of the parser

The semantic actions of `ast/parse.y`, on the stack of semantic values.  The parser carries them
out in the order in which it reduces the rules; `Assembler.run` takes any sequence of actions, in
whatever order.  The warnings, `.need` and the trace output are left out.

* `Action.exec`: one action.
* `Assembler.endOfFile`: the check of the forward references after the last statement.
-/

namespace Ttools.Asm

open Support (Logged)
open Support.Logged (stop ofOption)

/-- The actions, with the values of their tokens. -/
inductive Action where
  | number (c : Word)
  | name (ident : Nat)
  | dot
  | digrefB (d : Fin 10)
  | digrefF (d : Fin 10)
  | unop (op : UnTag)
  | binop (op : BinTag)
  | questop
  | label (ident : Nat)
  | labelColon (ident : Nat)
  | digLabel (d : Fin 10)
  | cmdDirect (opcode : Word)
  | cmdPcrel (opcode : Word)
  | cmdIndir (c : Word)
  | cmdFpu (c : Word)
  | segment (ident : String)
  | globl (ident : Nat)
  | comm (ident : Nat)
  | slot
  | width (w : Word)
  | defaultFiller
  | align
  | datum
  | space
  | repeated
  | repeatedSpace
  | string (bytes : List Byte)
  | assign (ident : Nat)
  deriving DecidableEq, Repr

/-! ### The stack of values -/

def push (e : Expr) : Emission Unit := Logged.modify fun s => { s with values := e :: s.values }

/-- The parser never takes a value that is not there. -/
def pop : Emission Expr := do
  match (← Logged.get).values with
  | e :: es => do
      Logged.modify fun s => { s with values := es }
      return e
  | [] => stop (.stop .abort)

def curseg : Emission String := do return (← Logged.get).curseg

/-- `curseg`, after the alignment that is pending in it has been carried out. -/
def aligned (fuel : Nat) : Emission String := do
  let seg ← curseg
  flushAlignment fuel seg
  return seg

/-- A name without an identifier for a fragment of its own. -/
def defaultFragment : Emission NameId := do
  let deffrag ← tableAddNoname
  globalizeName deffrag
  setFragment deffrag
  setDefined deffrag
  return deffrag

/-- A segment that is named for the first time; `.bss` gets two default fragments. -/
def newSegment (ident : String) : Emission Unit := do
  let deffrag ← defaultFragment
  addSegment ident deffrag
  if ident = "bss" then do
    let deffrag ← defaultFragment
    addFragment ident deffrag
  else pure ()

/-- `error2 (.. "already defined")`. -/
def reportDefined (np : NameId) : Emission Unit := do
  if (← Logged.get).defined np then report else pure ()

/-- The operators of the grammar. -/
def BinTag.inGrammar (op : BinTag) : Bool := op != .quest && op != .colon

/-! ### The actions -/

/-- `TOK_NAME ':'`. -/
def labelAction (fuel : Nat) (np : NameId) : Emission Unit := do
  reportDefined np
  setDefined np
  let seg ← curseg
  let x ← getSegment seg
  setAlign np x.pendingAlignment
  if ((← Logged.get).store.name np).global then do
    -- public label -- start new fragment
    setFragment np
    dropPendingAlignment seg
    addFragment seg np
  else do
    flushAlignment fuel seg
    let x ← getSegment seg
    nameAssignValue fuel np x.point

/-- `TOK_DIGLAB ':'`. -/
def digLabelAction (fuel : Nat) (d : Fin 10) : Emission Unit := do
  let seg ← aligned fuel
  let x ← getSegment seg
  Logged.modify fun s => { s with backlab := Function.update s.backlab d (some x.point) }
  match (← Logged.get).forwlab d with
  | some np => do
      nameAssignValue fuel np x.point
      setDefined np
      Logged.modify fun s => { s with forwlab := Function.update s.forwlab d none }
  | none => pure ()

/-- `TOK_COMM`. -/
def commAction (fuel : Nat) (np : NameId) : Emission Unit := do
  let count ← pop
  match (← Logged.get).segments "bss" with
  | some _ => pure ()
  | none => newSegment "bss"
  reportDefined np
  globalizeName np
  setFragment np
  setDefined np
  Logged.modify fun s => { s with common := Function.update s.common np true }
  let seg ← curseg
  let x ← getSegment seg
  setAlign np x.pendingAlignment
  dropPendingAlignment seg
  addFragment "bss" np
  emitData fuel "bss" 1 (.const 0) count
  swapLastFragments "bss"

/-- `TOK_ALIGN`. -/
def alignAction (fuel : Nat) : Emission Unit := do
  let filler ← pop
  let factor ← pop
  match factor.const? with
  | none => report
  | some a =>
      if a.slt 1 then pure ()
      else do
        let seg ← aligned fuel
        let x ← getSegment seg
        setSegment seg { x with pendingAlignment := a, pendingAlignmentFiller := some filler }

/-- One action. -/
def Action.exec (fuel : Nat) : Action → Emission Unit
  | number c => push (.const c)
  | name i => push (.name (identName i))
  | dot => do
      let seg ← aligned fuel
      push (← getSegment seg).point
  | digrefB d => do
      -- `expr_share` of a null pointer if there is no such label
      push (← ofOption .null ((← Logged.get).backlab d))
  | digrefF d => do
      match (← Logged.get).forwlab d with
      | some np => push (.name np)
      | none => do
          let np ← tableAddNoname
          Logged.modify fun s => { s with forwlab := Function.update s.forwlab d (some np) }
          push (.name np)
  | unop op => do
      push (← ofOption (.stop .abort) (exprUnop op (← pop)))
  | binop op => do
      let e2 ← pop
      let e1 ← pop
      let lone ← reduce ask
      if BinTag.inGrammar op then push (← ofOption (.stop .abort) (exprBinop lone op e1 e2))
      else stop (.stop .abort)
  | questop => do
      let ifnot ← pop
      let iftrue ← pop
      let cond ← pop
      push (exprQuestop cond iftrue ifnot)
  | label i => labelAction fuel (identName i)
  | labelColon i => do
      reportDefined (identName i)
      let seg ← aligned fuel
      setDefined (identName i)
      nameAssignValue fuel (identName i) (← getSegment seg).point
  | digLabel d => digLabelAction fuel d
  | cmdDirect opcode => do
      let arg ← pop
      let seg ← aligned fuel
      emitCmd fuel seg opcode arg
  | cmdPcrel opcode => do
      let arg ← pop
      let np ← tableAddNoname
      let seg ← aligned fuel
      let lone ← reduce ask
      let temp ← ofOption (.stop .abort) (exprBinop lone .minus arg (.name np))
      emitCmd fuel seg opcode temp
      nameAssignValue fuel np (← getSegment seg).point
      setDefined np
  | cmdIndir c => do
      let seg ← aligned fuel
      emitCmd fuel seg 0xf0 (.const c)
  | cmdFpu c => do
      let seg ← aligned fuel
      emitCmd fuel seg 0x40 (.const c)
      emitCmd fuel seg 0xf0 (.const 0xab)
  | segment ident => do
      match (← Logged.get).segments ident with
      | some _ => pure ()
      | none => newSegment ident
      Logged.modify fun s => { s with curseg := ident }
  | globl i => do
      let s ← Logged.get
      if !(s.store.name (identName i)).global && s.defined (identName i) then report else pure ()
      globalizeName (identName i)
  | comm i => commAction fuel (identName i)
  | slot => do
      match (← pop).const? with
      | none => report
      | some c => do
          let seg ← curseg
          let x ← getSegment seg
          setSegment seg { x with slot := c }
  | width w => Logged.modify fun s => { s with dataWidth := w }
  | defaultFiller => do
      push (.const (if (← curseg) = "text" then 0x20 else 0))
  | align => alignAction fuel
  | datum => do
      let data ← pop
      let seg ← aligned fuel
      emitData fuel seg (← Logged.get).dataWidth data (.const 1)
  | space => do
      let seg ← aligned fuel
      emitData fuel seg (← Logged.get).dataWidth (.const 0) (.const 1)
  | repeated => do
      let count ← pop
      let data ← pop
      let seg ← aligned fuel
      emitData fuel seg (← Logged.get).dataWidth data count
  | repeatedSpace => do
      let count ← pop
      let seg ← aligned fuel
      emitData fuel seg (← Logged.get).dataWidth (.const 0) count
  | string bytes => do
      let seg ← aligned fuel
      if (← Logged.get).dataWidth ≠ 1 then report else emitBlock seg bytes
  | assign i => do
      let e ← pop
      if (← Logged.get).defined (identName i) then report
      else do
        setDefined (identName i)
        nameAssignValue fuel (identName i) e

/-! ### A run -/

namespace Assembler

/-- Before `initialize`: no name has a value, and there is no segment. -/
def empty (answers : Nat → Bool) : Assembler where
  memory := ⟨⟨fun _ => nameAlloc, fun _ => ⟨.const 0, .block []⟩⟩, answers⟩
  segments _ := none
  curseg := "head"
  nonames := 0
  nextElement := 0
  nrefs _ := 0
  allocated _ := 0
  defined _ := false
  fragment _ := false
  common _ := false
  backlab _ := none
  forwlab _ := none
  dataWidth := 1
  values := []
  errors := 0

/-- What a sequence of actions does. -/
def actions (fuel : Nat) : List Action → Emission Unit
  | [] => pure ()
  | a :: as => do
      a.exec fuel
      actions fuel as

/-- `initialize`, and a sequence of actions. -/
def program (fuel : Nat) (as : List Action) : Emission Unit := do
  newSegment "head"
  actions fuel as

/-- How far the assembler gets: the state after the actions, or why there is none. -/
def run (fuel : Nat) (answers : Nat → Bool) (as : List Action) : Except Halt Assembler :=
  (program fuel as (empty answers)).1.map (·.2)

/-- The digits that are complained of at the end of the file. -/
def hanging (s : Assembler) : List (Fin 10) :=
  (List.finRange 10).filter fun d => (s.forwlab d).isSome

/-- The loop over `forwlab` at the end of the file: an error for each name, which counts as
defined then. -/
def endOfFile (s : Assembler) : Assembler :=
  { s with
    errors := s.errors + s.hanging.length
    defined := fun np => s.defined np || s.hanging.any fun d => s.forwlab d == some np }

end Assembler

open Support.Logged (bind_ok bind_error)

theorem actions_append (fuel : Nat) (as : List Action) (a : Action) (s : Assembler) :
    (Assembler.actions fuel (as ++ [a]) s).1 =
      (Assembler.actions fuel as s).1.bind fun p => (a.exec fuel p.2).1 := by
  induction as generalizing s with
  | nil =>
      show ((a.exec fuel >>= fun _ => pure ()) s).1 = (a.exec fuel s).1
      rcases h : a.exec fuel s with ⟨e | ⟨u, s'⟩, log⟩
      · rw [bind_error h]
      · rw [bind_ok h]
        rfl
  | cons b as ih =>
      show ((b.exec fuel >>= fun _ => Assembler.actions fuel (as ++ [a])) s).1 =
        ((b.exec fuel >>= fun _ => Assembler.actions fuel as) s).1.bind _
      rcases h : b.exec fuel s with ⟨e | ⟨u, s'⟩, log⟩
      · rw [bind_error h, bind_error h]
        rfl
      · rw [bind_ok h, bind_ok h]
        exact ih s'

theorem run_append (fuel : Nat) (answers : Nat → Bool) (as : List Action) (a : Action) :
    Assembler.run fuel answers (as ++ [a]) =
      (Assembler.run fuel answers as).bind fun s => (a.exec fuel s).1.map (·.2) := by
  have h : (Assembler.program fuel (as ++ [a]) (.empty answers)).1 =
      (Assembler.program fuel as (.empty answers)).1.bind fun p => (a.exec fuel p.2).1 := by
    unfold Assembler.program
    rcases h : newSegment "head" (.empty answers) with ⟨e | ⟨u, s'⟩, log⟩
    · rw [bind_error h, bind_error h]
      rfl
    · rw [bind_ok h, bind_ok h]
      exact actions_append fuel as a s'
  unfold Assembler.run
  rw [h]
  cases (Assembler.program fuel as (.empty answers)).1 <;> rfl

end Ttools.Asm
