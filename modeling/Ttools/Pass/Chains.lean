import Ttools.Expr.Refs
import Ttools.Expr.Estimate
import Ttools.Format.Segments
import Ttools.Cmd.Generate

/-!
# Passes over the chains

`pass_canonicalize`, `pass_unroll` and `pass_merge` (`shared/ments.c`) travel through the chains
of all fragments.  Each joins an element with those after it as long as it can (`join`) and then
rewrites it (`settle`); `walk` is the loop over one chain and `Pass.run` the loops over all.

`Element.bytes` is what an element stands for: a block as it is stored, a `DATA` element as its
units, low byte first, and a command padded to its size.

The chains hold their elements by value; the store holds the sizes that `EXPR_ELEMENT` nodes find.
The texts of the error messages are left out, the passes count them.
-/

namespace Ttools

open Support (Logged)
open Support.Logged (stop ofOption)

/-- The element chain of a fragment. -/
abbrev Chain := List (ElemId × Element)

/-- The expressions that the elements of the chain hold. -/
def Chain.exprs (els : Chain) : List Expr := els.flatMap (·.2.exprs)

/-! ### What they stand for -/

/-- The low bytes of `value`, as many as `width` says.  A width of more than 4 is undefined in C. -/
def unitBytes (width value : Word) : List Byte :=
  (List.range width.toInt.toNat).map fun j => lowByte (value.sshiftRight (8 * j))

/-- `count` units. -/
def dataBytes (width value count : Word) : List Byte :=
  (List.replicate count.toInt.toNat (unitBytes width value)).flatten

/-- The size of the element in memory, which a `RANGE` leaves open. -/
def sizeOf (ρ : Valuation) (id : ElemId) (size : Expr) : Word :=
  if size.isRange then ρ.size id else size.value ρ true

/-- The bytes that an element stands for; `none` if its size is not that of its contents, the
count is negative or the width none of a word, or the command does not fit. -/
def Element.bytes (ρ : Valuation) (id : ElemId) (el : Element) : Option (List Byte) :=
  match el.u with
  | .block ptr => if el.size = .const (BitVec.ofNat 32 ptr.length) then some ptr else none
  | .data width value count =>
      if 0 < width.toInt ∧ width.toInt ≤ 4 ∧ 0 ≤ (count.value ρ true).toInt then
        some (dataBytes width (value.value ρ true) (count.value ρ true))
      else none
  | .cmd opcode arg =>
      match cmdGenerate (lowByte opcode) (arg.value ρ true) (sizeOf ρ id el.size).toInt with
      | .ok (_, out) => if out.length = (sizeOf ρ id el.size).toInt then some out else none
      | .error _ => none

/-- The bytes of a chain. -/
def Chain.bytes (ρ : Valuation) : Chain → Option (List Byte)
  | [] => some []
  | (id, el) :: els => do
      let b ← el.bytes ρ id
      let bs ← Chain.bytes ρ els
      some (b ++ bs)

/-! ### The loops -/

/-- What a pass does: `join` makes one element of two neighbours, if it can, and is told what
expressions are in the chains; `settle` rewrites an element and counts the errors. -/
structure Pass where
  join : Holders → Nat → List Expr → ElemId × Element → ElemId × Element → Reducer (Option Element)
  settle : Nat → Word → Element → Reducer (Element × Nat)

/-- The loop over a chain, with the first element taken from it; `around` is held by the elements
before it and in the other chains. -/
def Pass.walk (p : Pass) (h : Holders) (fuel : Nat) (threshold : Word) :
    List Expr → ElemId × Element → Chain → Reducer (Chain × Nat)
  | _, (id, el), [] => do
      let (el, errors) ← p.settle fuel threshold el
      return ([(id, el)], errors)
  | around, (id, el), nl :: els => do
      match ← p.join h fuel (around ++ Chain.exprs ((id, el) :: nl :: els)) (id, el) nl with
      | some el => p.walk h fuel threshold around (id, el) els
      | none => do
          let (el, errors) ← p.settle fuel threshold el
          let (els, errors') ← p.walk h fuel threshold (around ++ el.exprs) nl els
          return ((id, el) :: els, errors + errors')

/-- The loops over all fragments of all segments; with each chain is the `block_threshold` of its
segment. -/
def Pass.run (p : Pass) (h : Holders) (fuel : Nat) :
    List Expr → List (Word × Chain) → Reducer (List Chain × Nat)
  | _, [] => return ([], 0)
  | around, (_, []) :: chains => do
      let (chains, errors) ← p.run h fuel around chains
      return ([] :: chains, errors)
  | around, (threshold, el :: els) :: chains => do
      let (els, errors) ←
        p.walk h fuel threshold (around ++ chains.flatMap (·.2.exprs)) el els
      let (chains, errors') ← p.run h fuel (around ++ els.exprs) chains
      return (els :: chains, errors + errors')

/-! ### `pass_canonicalize` -/

/-- The loop of `byteable`. -/
def bytesEqual (b : Byte) : Nat → Word → Bool
  | 0, _ => true
  | n + 1, word => lowByte (word.sshiftRight 8) == b && bytesEqual b n (word.sshiftRight 8)

/-- `byteable`. -/
def byteable (word width : Word) : Bool := bytesEqual (lowByte word) width.toInt.toNat word

/-- Units of equal bytes become bytes. -/
def canonicalizeElement (fuel : Nat) (el : Element) : Reducer (Element × Nat) :=
  match el.u with
  | .data width value count => do
      let value ← exprReduce fuel value
      match value.const? with
      | some v =>
          if (1 : Word).slt width && byteable v width then do
            let temp ← ofOption .abort (exprBinop false .mul count (.const width))
            return ({ el with u := .data 1 value temp }, 0)
          else return ({ el with u := .data width value count }, 0)
      | none => return ({ el with u := .data width value count }, 0)
  | _ => return (el, 0)

/-- `pass_canonicalize`. -/
def passCanonicalize : Pass where
  join _ _ _ _ _ := return none
  settle fuel _ el := canonicalizeElement fuel el

/-! ### `pass_unroll` -/

/-- The next element is similar data, and neither is referred to. -/
def joinData (h : Holders) (fuel : Nat) (exprs : List Expr) (el nl : ElemId × Element) :
    Reducer (Option Element) := do
  let m ← Logged.get
  match el.2.u, nl.2.u with
  | .data width value count, .data width' value' count' =>
      if h.nrefs m.store exprs el.1 = 0 ∧ h.nrefs m.store exprs nl.1 = 0 then do
        let ptr ← ask
        if exprEqual ptr value value' && width == width' then do
          let lone ← ask
          let count ← ofOption .abort (exprBinop lone .plus count count')
          let lone ← ask
          let temp ← ofOption .abort (exprBinop lone .plus el.2.size nl.2.size)
          -- `abort ()` in `expr_estimate1` is not told from a lack of fuel
          let size ← ofOption .fuel (exprEstimate m.store fuel temp)
          return some ⟨size, .data width value count⟩
        else return none
      else return none
  | _, _ => return none

/-- Small constant data, and commands with a constant argument, become blocks. -/
def unrollElement (fuel : Nat) (threshold : Word) (el : Element) : Reducer (Element × Nat) :=
  match el.u with
  | .block _ => return (el, 0)
  | .data width value count =>
      match value.const?, count.const? with
      | some v, some c =>
          if (c * width).slt threshold then
            -- `element_block_make_space` asserts that the size is a constant
            if el.size.isConst then return ({ el with u := .block (dataBytes width v c) }, 0)
            else stop .abort
          else return (el, 0)
      | _, _ => return (el, 0)
  | .cmd opcode arg => do
      let arg ← exprReduce fuel arg
      match arg.const? with
      | none => return ({ el with u := .cmd opcode arg }, 0)
      | some v =>
          match el.size.const? with
          | none => stop .abort
          | some size =>
              match cmdGenerate (lowByte opcode) v size.toInt with
              | .ok (_, out) => return ({ el with u := .block out }, 0)
              -- "slot is too narrow": what is before the bytes written is not set
              | .error written => return ({ el with u := .block written }, 1)

/-- `pass_unroll`. -/
def passUnroll : Pass where
  join := joinData
  settle := unrollElement

/-! ### `pass_merge` -/

/-- The next element is a block too, and neither is referred to. -/
def joinBlocks (h : Holders) (exprs : List Expr) (el nl : ElemId × Element) :
    Reducer (Option Element) := do
  let m ← Logged.get
  match el.2.u, nl.2.u with
  | .block ptr, .block ptr' =>
      if h.nrefs m.store exprs el.1 = 0 ∧ h.nrefs m.store exprs nl.1 = 0 then
        match el.2.size.const?, nl.2.size.const? with
        | some len, some n => do
            let lone ← ask
            let size ← ofOption .abort (exprPlusConstant lone el.2.size n)
            return some ⟨size, .block (ptr.take len.toInt.toNat ++ ptr'.take n.toInt.toNat)⟩
        | _, _ => stop .abort
      else return none
  | _, _ => return none

/-- `pass_merge`. -/
def passMerge : Pass where
  join h _ exprs el nl := joinBlocks h exprs el nl
  settle _ _ el := return (el, 0)

end Ttools
