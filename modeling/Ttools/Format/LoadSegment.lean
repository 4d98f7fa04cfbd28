import Ttools.Cmd.Generate
import Ttools.Format.Host
import Ttools.Format.Load
import Ttools.Format.Segments
import Ttools.Support.Logged

/-!
# Loading a segment

`lit_load_segment` (`startups/shared/litload.c`) on a target of 32 bits: records are read until
the next `SEGMENT` or `MARKER`, and their bytes are stored in the caller's area.  The log of a run
is what it stores, also of a run that ends in `lit_load_fatal`.

* `litLoadRecord_inside`: one record stores inside the area and keeps the account of it, unless it
  is a `DATA` record whose `count*width` overflows and still passes the checks.
* `staysInside_iff`: hence a run stays inside exactly when it meets no such record.

`lit_load_debug` and the texts of the fatal errors are left out.
-/

namespace Ttools

open Support

/-- `MAX_SEGMENT_NAME_LENGTH`. -/
def maxSegmentNameLength : Nat := 32

/-- The variables of the loader: the file, `area` counted from the area that the caller has given,
`areasz`, `lit_load_segsize` and `lit_load_segname`. -/
structure Loader where
  input : LitIn
  area : Int
  areasz : Word
  segsize : Word
  segname : List Byte

/-- How a run stops: in `lit_load_fatal`, or out of rounds, which does not happen. -/
inductive LoadStop where
  | fatal
  | rounds
  deriving DecidableEq

/-- A routine of the loader, with what it stores and where. -/
abbrev Load := Logged Loader LoadStop (Int × Byte)

/-- A routine that only reads. -/
def reading {α : Type} (x : Reader α) : Load α := fun s =>
  match x s.input with
  | none => (.error .fatal, [])
  | some (a, f) => (.ok (a, { s with input := f }), [])

/-- Bytes stored from `pos` on. -/
def storesAt (pos : Int) (bs : List Byte) : List (Int × Byte) :=
  bs.zipIdx.map fun p => (pos + p.2, p.1)

/-- `*area++ = ..`, for every byte of `bs`. -/
def storeUp (bs : List Byte) : Load Unit := fun s =>
  (.ok ((), { s with area := s.area + bs.length }), storesAt s.area bs)

/-- `lit_load_in_block (area, len)`.  At the end of the file it has stored what there was. -/
def litLoadInBlock (len : Nat) : Load Unit := fun s =>
  let stores := storesAt s.area (s.input.bytes.take len)
  if s.input.bytes.length < len then (.error .fatal, stores)
  else (.ok ((), { s with input := { s.input with bytes := s.input.bytes.drop len } }), stores)

/-- `areasz -= size; lit_load_segsize += size;` -/
def account (size : Word) : Load Unit :=
  Logged.modify fun s => { s with areasz := s.areasz - size, segsize := s.segsize + size }

/-- `area += size;` -/
def moveUp (size : Word) : Load Unit :=
  Logged.modify fun s => { s with area := s.area + size.toInt }

/-- A `BLOCK` record. -/
def litLoadBlock (ltag : Word) : Load Unit := do
  let s ← Logged.get
  if s.areasz.slt ltag then Logged.stop .fatal              -- "area overflowed"
  else
    litLoadInBlock ltag.toNat
    moveUp ltag
    account ltag

/-- The bytes of `value` that are stored for one unit of the given width, low byte first. -/
def dataUnit (width value : Word) : List Byte :=
  if width = 4 then
    [lowByte value, lowByte (value.sshiftRight 8), lowByte (value.sshiftRight 16),
      lowByte (value.sshiftRight 24)]
  else if width = 2 then [lowByte value, lowByte (value.sshiftRight 8)]
  else [lowByte value]

/-- The width, value, count and size of a `DATA` record. -/
def litLoadDataFields (ntab : Ntab) : Reader (Word × Word × Word × Word) := do
  let width ← litLoadInNumber
  let value ← litLoadInExpr ntab
  let count ← litLoadInExpr ntab
  let size ← litLoadInExpr ntab
  return (width, value, count, size)

/-- A `DATA` record, for a little-endian target.  `i = size - width*count; while (i--)` counts
down to 0 through whatever `i` is, and `count*width` is a `long`. -/
def litLoadData (ntab : Ntab) : Load Unit := do
  let (width, value, count, size) ← reading (litLoadDataFields ntab)
  let s ← Logged.get
  if count.slt 0 then Logged.stop .fatal                    -- "DATA element has negative count"
  else if size.slt (count * width) then Logged.stop .fatal  -- "inconsistent DATA element"
  else if s.areasz.slt size then Logged.stop .fatal         -- "area overflowed"
  else if width ≠ 4 ∧ width ≠ 2 ∧ width ≠ 1 then
    Logged.stop .fatal                                      -- "illegal data width"
  else
    storeUp (List.replicate count.toNat (dataUnit width value)).flatten
    storeUp (List.replicate (size - width * count).toNat (lowByte value))
    account size

/-- The opcode, argument and size of a `CMD` record. -/
def litLoadCmdFields (ntab : Ntab) : Reader (Word × Word × Word) := do
  let opcode ← litLoadInNumber
  let arg ← litLoadInExpr ntab
  let size ← litLoadInExpr ntab
  return (opcode, arg, size)

/-- `lit_load_cmd_generate (area, ..)`.  It stores from the end of the slot; without room for the
command it has filled the slot before it stops. -/
def litLoadGenerate (opcode arg size : Word) : Load Unit := fun s =>
  match litLoadCmdGenerate (lowByte opcode) arg size.toInt with
  | .ok (_, out) => (.ok ((), s), storesAt s.area out)
  | .error written => (.error .fatal, storesAt (s.area + size.toInt - written.length) written)

/-- A `CMD` record. -/
def litLoadCmd (ntab : Ntab) : Load Unit := do
  let (opcode, arg, size) ← reading (litLoadCmdFields ntab)
  let s ← Logged.get
  if s.areasz.slt size then Logged.stop .fatal              -- "area overflowed"
  else
    litLoadGenerate opcode arg size
    moveUp size
    account size

/-- The padding of a `MARKER` record, of which `len` bytes have been read. -/
def litLoadPadding (len : Nat) : Reader Unit := fun f =>
  if f.bytes.length < litMarkerLength - len then none
  else some ((), { f with bytes := f.bytes.drop (litMarkerLength - len) })

/-- A `MARKER` record, with the length of its tag given. -/
def litLoadMarker (len : Nat) : Load Unit := do
  let (_, codeLen) ← reading (hostLoadInNumber 32)
  let (_, lengthLen) ← reading (hostLoadInNumber 32)
  reading (litLoadPadding (len + codeLen + lengthLen))
  Logged.modify fun s => { s with segname := s.segname.set 0 0 }

/-- `lit_load_in_block (lit_load_segname, ..)`: the name goes over the beginning of the old one.
With a negative length the file ends first. -/
def litLoadSegname (len : Word) : Load Unit := do
  let name ← reading (if len.slt 0 then fatal else litInBlock len)
  Logged.modify fun s => { s with segname := name ++ s.segname.drop name.length }

/-- A `SEGMENT` record. -/
def litLoadHeader : Load Unit := do
  let len ← reading litLoadInNumber
  if (BitVec.ofNat 32 maxSegmentNameLength).slt len then
    Logged.stop .fatal                                      -- "segment name too long"
  else
    litLoadSegname len
    let _ ← reading litLoadInNumber                         -- "default fragment index"
    return ()

/-- One round of `lit_load_segment`: `none` if it goes on, or what it returns. -/
def litLoadRecord (ntab : Ntab) : Load (Option Bool) := do
  let (ltag, len) ← reading (hostLoadInNumber 32)
  if (0 : Word).slt ltag then
    litLoadBlock ltag
    return none
  else if ltag = litDummy then return none
  else if ltag = litData then
    litLoadData ntab
    return none
  else if ltag = litCmd then
    litLoadCmd ntab
    return none
  else if ltag = litMarker then
    litLoadMarker len
    return some false
  else if ltag = litSegment then
    litLoadHeader
    return some true
  else Logged.stop .fatal                                   -- "unexpected record tag"

/-- The loop of `lit_load_segment`.  Every round reads a byte, so the number of bytes left bounds
the rounds. -/
def litLoadRecords (ntab : Ntab) : Nat → Load Bool
  | 0 => Logged.stop .rounds
  | rounds + 1 => do
      match ← litLoadRecord ntab with
      | none => litLoadRecords ntab rounds
      | some more => return more

/-- `lit_load_segment`, for an area of `areasz` bytes: whether there are more segments. -/
def litLoadSegment (areasz : Word) (ntab : Ntab) : Load Bool := fun s =>
  litLoadRecords ntab (s.input.bytes.length + 1) { s with area := 0, areasz := areasz, segsize := 0 }

/-! ### Staying inside the area -/

/-- The checks that a `DATA` record of the given width, value, count and size has to pass. -/
def dataPasses (areasz : Word) : Word × Word × Word × Word → Bool
  | (width, _, count, size) =>
      !count.slt 0 && !size.slt (count * width) && !areasz.slt size &&
        (width == 4 || width == 2 || width == 1)

/-- `count*width` does not fit a `long`. -/
def dataOverflows : Word × Word × Word × Word → Bool
  | (width, _, count, _) => decide (2 ^ 31 ≤ count.toNat * width.toNat)

/-- The record that is read next is a `DATA` record whose `count*width` overflows and which passes
the checks all the same. -/
def Overflows (ntab : Ntab) (s : Loader) : Prop :=
  ∃ p ∈ hostLoadInNumber 32 s.input, p.1.1 = litData ∧
    ∃ q ∈ litLoadDataFields ntab p.2, dataPasses s.areasz q.1 = true ∧ dataOverflows q.1 = true

/-- The loader at the beginning of a call. -/
def Loader.start (areasz : Word) (s : Loader) : Loader :=
  { s with area := 0, areasz := areasz, segsize := 0 }

/-- The states at the top of the loop. -/
inductive Meets (ntab : Ntab) : Loader → Loader → Prop where
  | refl (s : Loader) : Meets ntab s s
  | more {s s₁ s' : Loader} {log : List (Int × Byte)}
      (h : litLoadRecord ntab s = (.ok (none, s₁), log)) (t : Meets ntab s₁ s') : Meets ntab s s'

/-- The account of an area of `total` bytes. -/
structure Inside (total : Int) (s : Loader) : Prop where
  bound : total < 2 ^ 31
  start : 0 ≤ s.area
  room : 0 ≤ s.areasz.toInt
  sum : s.area + s.areasz.toInt = total
  size : s.segsize.toInt = s.area

/-- A place in an area of `total` bytes. -/
def Place (total : Int) (st : Int × Byte) : Prop := 0 ≤ st.1 ∧ st.1 < total

section

variable {total : Int} {s : Loader} {ntab : Ntab}

theorem Inside.of_input {f : LitIn} (h : Inside total s) : Inside total { s with input := f } :=
  ⟨h.bound, h.start, h.room, h.sum, h.size⟩

theorem always_reading {α : Type} {P : Int × Byte → Prop} {x : Reader α} {Q : α → Loader → Prop}
    (h : ∀ a f, x s.input = some (a, f) → Q a { s with input := f }) :
    Logged.Always P (reading x) Q s := by
  unfold Logged.Always reading
  rcases hx : x s.input with _ | ⟨a, f⟩
  · exact ⟨by rintro _ ⟨⟩, by rintro _ _ ⟨⟩⟩
  · exact ⟨by rintro _ ⟨⟩, by rintro _ _ ⟨⟩; exact h a f hx⟩

theorem mem_storesAt {pos : Int} {bs : List Byte} {st : Int × Byte} (h : st ∈ storesAt pos bs) :
    pos ≤ st.1 ∧ st.1 < pos + bs.length := by
  obtain ⟨⟨b, i⟩, hp, rfl⟩ := List.mem_map.mp h
  have := (List.mem_zipIdx hp).2.1
  simp only
  omega

theorem toInt_add_of_bounds {a b : Word} (hlo : -2 ^ 31 ≤ a.toInt + b.toInt)
    (hhi : a.toInt + b.toInt < 2 ^ 31) : (a + b).toInt = a.toInt + b.toInt := by
  rw [BitVec.toInt_add]
  exact Int.bmod_eq_of_le hlo hhi

theorem toInt_sub_of_bounds {a b : Word} (hlo : -2 ^ 31 ≤ a.toInt - b.toInt)
    (hhi : a.toInt - b.toInt < 2 ^ 31) : (a - b).toInt = a.toInt - b.toInt := by
  rw [BitVec.toInt_sub]
  exact Int.bmod_eq_of_le hlo hhi

/-- Up to the room that is left, sizes are accounted for. -/
theorem Inside.account {size : Word} (h : Inside total s) (h0 : 0 ≤ size.toInt)
    (hle : size.toInt ≤ s.areasz.toInt) (f : LitIn) :
    Inside total { s with
      input := f
      area := s.area + size.toInt
      areasz := s.areasz - size
      segsize := s.segsize + size } := by
  have hroom := h.room
  have hstart := h.start
  have hsum := h.sum
  have hbound := h.bound
  have hsize := h.size
  have hsub : (s.areasz - size).toInt = s.areasz.toInt - size.toInt :=
    toInt_sub_of_bounds (by omega) (by omega)
  have hadd : (s.segsize + size).toInt = s.segsize.toInt + size.toInt :=
    toInt_add_of_bounds (by omega) (by omega)
  constructor
  · exact hbound
  · show 0 ≤ s.area + size.toInt
    omega
  · show 0 ≤ (s.areasz - size).toInt
    omega
  · show s.area + size.toInt + (s.areasz - size).toInt = total
    omega
  · show (s.segsize + size).toInt = s.area + size.toInt
    omega

theorem place_of_mem {bs : List Byte} {st : Int × Byte} {pos : Int} (hpos : 0 ≤ pos)
    (hlen : pos + bs.length ≤ total) (h : st ∈ storesAt pos bs) : Place total st := by
  have := mem_storesAt h
  exact ⟨by omega, by omega⟩

theorem litLoadBlock_inside {ltag : Word} (h : Inside total s) (hpos : (0 : Word).slt ltag = true) :
    Logged.Always (Place total) (litLoadBlock ltag) (fun _ s' => Inside total s') s := by
  have h0 : 0 < ltag.toInt := by
    rw [BitVec.slt_iff_toInt_lt] at hpos
    exact hpos
  have hnat : ltag.toInt = ltag.toNat := by
    have := BitVec.toInt_eq_toNat_cond ltag
    have := ltag.isLt
    omega
  refine .bind (Logged.always_get.mpr ?_)
  by_cases hroom : s.areasz.slt ltag = true
  · rw [if_pos hroom]
    exact Logged.always_stop
  · have hle : ltag.toInt ≤ s.areasz.toInt := by
      rw [BitVec.slt_iff_toInt_lt] at hroom
      omega
    rw [if_neg hroom]
    have hin := h.account (by omega) hle
    have hplace : ∀ st ∈ storesAt s.area (s.input.bytes.take ltag.toNat), Place total st := by
      intro st hst
      have hlen := List.length_take_le ltag.toNat s.input.bytes
      have hsum := h.sum
      exact place_of_mem h.start (by omega) hst
    refine .bind ?_
    unfold litLoadInBlock Logged.Always
    by_cases heof : s.input.bytes.length < ltag.toNat
    · simp only [if_pos heof]
      exact ⟨hplace, by rintro _ _ ⟨⟩⟩
    · simp only [if_neg heof]
      refine ⟨hplace, ?_⟩
      rintro _ _ ⟨⟩
      exact Logged.Always.bind (Logged.always_modify.mpr (Logged.always_modify.mpr (hin _)))

/-- What a `DATA` record does once it has passed the checks. -/
def storeData : Word × Word × Word × Word → Load Unit
  | (width, value, count, size) => do
      storeUp (List.replicate count.toNat (dataUnit width value)).flatten
      storeUp (List.replicate (size - width * count).toNat (lowByte value))
      account size

theorem reading_bind {α β : Type} {x : Reader α} {g : α → Load β} {a : α} {f : LitIn}
    (h : x s.input = some (a, f)) : (reading x >>= g) s = g a { s with input := f } := by
  have hread : reading x s = (.ok (a, { s with input := f }), []) := by
    rw [reading, h]
  rw [Logged.bind_ok hread, List.nil_append]

theorem get_bind {β : Type} (g : Loader → Load β) : (Logged.get >>= g) s = g s s := rfl

theorem dataPasses_iff {areasz width value count size : Word} :
    dataPasses areasz (width, value, count, size) = true ↔
      ¬count.slt 0 = true ∧ ¬size.slt (count * width) = true ∧ ¬areasz.slt size = true ∧
        (width = 4 ∨ width = 2 ∨ width = 1) := by
  simp only [dataPasses, Bool.and_eq_true, Bool.not_eq_true', Bool.or_eq_true, beq_iff_eq,
    Bool.not_eq_true]
  tauto

theorem litLoadData_eq {q : Word × Word × Word × Word} {f : LitIn}
    (h : litLoadDataFields ntab s.input = some (q, f)) :
    litLoadData ntab s =
      (if dataPasses s.areasz q then storeData q else Logged.stop .fatal) { s with input := f } := by
  obtain ⟨width, value, count, size⟩ := q
  rw [litLoadData, reading_bind h]
  simp only [get_bind]
  by_cases hp : dataPasses s.areasz (width, value, count, size) = true
  · rw [if_pos hp]
    obtain ⟨hcount, hsize, hroom, hwidth⟩ := dataPasses_iff.mp hp
    rw [if_neg hcount, if_neg hsize, if_neg hroom, if_neg (by tauto)]
    rfl
  · rw [if_neg hp]
    rw [dataPasses_iff] at hp
    by_cases hcount : count.slt 0 = true
    · rw [if_pos hcount]
    rw [if_neg hcount]
    by_cases hsize : size.slt (count * width) = true
    · rw [if_pos hsize]
    rw [if_neg hsize]
    by_cases hroom : s.areasz.slt size = true
    · rw [if_pos hroom]
    rw [if_neg hroom, if_pos (by tauto)]

theorem length_dataUnit {width value : Word} (h : width = 4 ∨ width = 2 ∨ width = 1) :
    (dataUnit width value).length = width.toNat := by
  rcases h with rfl | rfl | rfl <;> rfl

theorem length_flatten_replicate (n : Nat) (bs : List Byte) :
    (List.replicate n bs).flatten.length = n * bs.length := by
  rw [List.length_flatten, List.map_replicate, List.sum_replicate, smul_eq_mul]

/-- The bytes of the units and of the filling after them, where `count*width` does not overflow. -/
theorem dataPasses_sizes {areasz width value count size : Word}
    (hp : dataPasses areasz (width, value, count, size) = true)
    (ho : dataOverflows (width, value, count, size) = false) :
    ((count.toNat * width.toNat : Nat) : Int) + ((size - width * count).toNat : Int) = size.toInt ∧
      size.toInt ≤ areasz.toInt := by
  obtain ⟨hcount, hsize, hroom, hwidth⟩ := dataPasses_iff.mp hp
  rw [dataOverflows, decide_eq_false_iff_not, not_le] at ho
  rw [BitVec.slt_iff_toInt_lt, not_lt] at hcount hsize hroom
  have hc := BitVec.toInt_eq_toNat_cond count
  have hcl := count.isLt
  have hw : width.toInt = width.toNat := by rcases hwidth with rfl | rfl | rfl <;> rfl
  have hcn : count.toInt = count.toNat := by
    have h0 : (0 : Word).toInt = 0 := rfl
    omega
  have hmul : (count * width).toInt = count.toNat * width.toNat := by
    rw [BitVec.toInt_mul, hcn, hw]
    refine Int.bmod_eq_of_le ?_ ?_
    · have : (0 : Int) ≤ count.toNat * width.toNat := by positivity
      omega
    · exact_mod_cast ho
  have hcomm : width * count = count * width := BitVec.mul_comm _ _
  rw [hcomm]
  have hsub : (size - count * width).toInt = size.toInt - (count * width).toInt :=
    toInt_sub_of_bounds (by have := BitVec.le_toInt size; have := BitVec.toInt_lt (x := size); omega)
      (by have := BitVec.le_toInt size; have := BitVec.toInt_lt (x := size); omega)
  have hnat := BitVec.toInt_eq_toNat_cond (size - count * width)
  have hlt := (size - count * width).isLt
  refine ⟨?_, hroom⟩
  push_cast
  omega

theorem storeData_inside {q : Word × Word × Word × Word} (h : Inside total s)
    (hp : dataPasses s.areasz q = true) (ho : dataOverflows q = false) :
    Logged.Always (Place total) (storeData q) (fun _ s' => Inside total s') s := by
  obtain ⟨width, value, count, size⟩ := q
  obtain ⟨hsum, hle⟩ := dataPasses_sizes hp ho
  have hlen : (List.replicate count.toNat (dataUnit width value)).flatten.length =
      count.toNat * width.toNat := by
    rw [length_flatten_replicate, length_dataUnit (dataPasses_iff.mp hp).2.2.2]
  have hstart := h.start
  have htotal := h.sum
  have hin := h.account (by omega : 0 ≤ size.toInt) hle s.input
  refine .bind ⟨fun st hst => place_of_mem h.start (by rw [hlen]; omega) hst, ?_⟩
  rintro _ _ ⟨⟩
  refine .bind ⟨fun st hst => ?_, ?_⟩
  · refine place_of_mem (show 0 ≤ s.area + _ by omega) ?_ hst
    rw [List.length_replicate, hlen]
    omega
  · rintro _ _ ⟨⟩
    refine Logged.always_modify.mpr ?_
    rw [hlen, List.length_replicate]
    rwa [add_assoc, hsum]

theorem litLoadData_inside (h : Inside total s)
    (ho : ∀ q f, litLoadDataFields ntab s.input = some (q, f) → dataPasses s.areasz q = true →
      dataOverflows q = false) :
    Logged.Always (Place total) (litLoadData ntab) (fun _ s' => Inside total s') s := by
  unfold Logged.Always
  rcases hx : litLoadDataFields ntab s.input with _ | ⟨q, f⟩
  · have hread : reading (litLoadDataFields ntab) s = (.error .fatal, []) := by
      rw [reading, hx]
    rw [litLoadData, Logged.bind_error hread]
    exact ⟨by rintro _ ⟨⟩, by rintro _ _ ⟨⟩⟩
  · rw [litLoadData_eq hx]
    by_cases hp : dataPasses s.areasz q = true
    · rw [if_pos hp]
      exact storeData_inside h.of_input hp (ho q f hx hp)
    · rw [if_neg hp]
      exact Logged.always_stop

theorem litLoadCmd_inside (h : Inside total s) :
    Logged.Always (Place total) (litLoadCmd ntab) (fun _ s' => Inside total s') s := by
  refine .bind (always_reading ?_)
  rintro ⟨opcode, arg, size⟩ f -
  refine .bind (Logged.always_get.mpr ?_)
  by_cases hroom : s.areasz.slt size = true
  · simp only [if_pos hroom]
    exact Logged.always_stop
  simp only [if_neg hroom]
  have hle : size.toInt ≤ s.areasz.toInt := by
    rw [BitVec.slt_iff_toInt_lt] at hroom
    omega
  have hsum := h.sum
  have hstart := h.start
  refine .bind ?_
  unfold Logged.Always litLoadGenerate litLoadCmdGenerate
  rcases hg : generate (lowByte opcode) arg size.toInt.toNat with written | ⟨r, out⟩
  · obtain ⟨-, hlen⟩ := generate_error hg
    refine ⟨fun st hst => ?_, by rintro _ _ ⟨⟩⟩
    by_cases hneg : size.toInt ≤ 0
    · have : written = [] := List.eq_nil_of_length_eq_zero (by omega)
      subst this
      cases hst
    · have hst : st ∈ storesAt (s.area + size.toInt - written.length) written := hst
      exact place_of_mem (by omega) (by omega) hst
  · obtain ⟨hlen, hall⟩ := generate_ok hg
    have hpos := one_le_cmdSize arg
    have hin := h.account (by omega : 0 ≤ size.toInt) hle f
    have hslot : (List.replicate r opcodePfix ++ out).length = size.toInt.toNat := by
      rw [List.length_append, List.length_replicate, hall]
    refine ⟨fun st hst => ?_, ?_⟩
    · have hst : st ∈ storesAt s.area (List.replicate r opcodePfix ++ out) := hst
      exact place_of_mem h.start (by omega) hst
    · rintro _ _ ⟨⟩
      exact Logged.Always.bind (Logged.always_modify.mpr (Logged.always_modify.mpr hin))

theorem litLoadMarker_inside {len : Nat} (h : Inside total s) :
    Logged.Always (Place total) (litLoadMarker len) (fun _ s' => Inside total s') s := by
  refine .bind (always_reading fun _ _ _ => .bind (always_reading fun _ _ _ =>
    .bind (always_reading fun _ _ _ => Logged.always_modify.mpr ?_)))
  exact ⟨h.bound, h.start, h.room, h.sum, h.size⟩

theorem litLoadHeader_inside (h : Inside total s) :
    Logged.Always (Place total) litLoadHeader (fun _ s' => Inside total s') s := by
  refine .bind (always_reading fun len f _ => ?_)
  split
  · exact Logged.always_stop
  · refine .bind (.bind (always_reading fun name f _ => Logged.always_modify.mpr ?_))
    refine .bind (always_reading fun _ _ _ => Logged.always_pure.mpr ?_)
    exact ⟨h.bound, h.start, h.room, h.sum, h.size⟩

/-- One record stores inside the area and keeps the account of it, unless its product overflows. -/
theorem litLoadRecord_inside (h : Inside total s) (ho : ¬Overflows ntab s) :
    Logged.Always (Place total) (litLoadRecord ntab) (fun _ s' => Inside total s') s := by
  refine .bind (always_reading ?_)
  rintro ⟨ltag, len⟩ f hf
  have hin : Inside total { s with input := f } := h.of_input
  by_cases hblock : (0 : Word).slt ltag = true
  · simp only [if_pos hblock]
    exact .bind ((litLoadBlock_inside hin hblock).mono fun _ _ h => Logged.always_pure.mpr h)
  simp only [if_neg hblock]
  by_cases hdummy : ltag = litDummy
  · simp only [if_pos hdummy]
    exact Logged.always_pure.mpr hin
  simp only [if_neg hdummy]
  by_cases hdata : ltag = litData
  · simp only [if_pos hdata]
    refine .bind ((litLoadData_inside hin fun q f' hq hp => ?_).mono fun _ _ h =>
      Logged.always_pure.mpr h)
    by_contra hover
    exact ho ⟨_, hf, hdata, _, hq, hp, by simpa using hover⟩
  simp only [if_neg hdata]
  by_cases hcmd : ltag = litCmd
  · simp only [if_pos hcmd]
    exact .bind ((litLoadCmd_inside hin).mono fun _ _ h => Logged.always_pure.mpr h)
  simp only [if_neg hcmd]
  by_cases hmarker : ltag = litMarker
  · simp only [if_pos hmarker]
    exact .bind ((litLoadMarker_inside hin).mono fun _ _ h => Logged.always_pure.mpr h)
  simp only [if_neg hmarker]
  by_cases hsegment : ltag = litSegment
  · simp only [if_pos hsegment]
    exact .bind ((litLoadHeader_inside hin).mono fun _ _ h => Logged.always_pure.mpr h)
  simp only [if_neg hsegment]
  exact Logged.always_stop

theorem litLoadRecords_succ {more : Option Bool} {s' : Loader} {log : List (Int × Byte)}
    (h : litLoadRecord ntab s = (.ok (more, s'), log)) (rounds : Nat) :
    litLoadRecords ntab (rounds + 1) s =
      match more with
      | none => ((litLoadRecords ntab rounds s').1, log ++ (litLoadRecords ntab rounds s').2)
      | some b => (.ok (b, s'), log) := by
  rw [litLoadRecords, Logged.bind_ok h]
  cases more with
  | none => rfl
  | some b => simp [pure]

theorem litLoadRecords_error {e : LoadStop} {log : List (Int × Byte)}
    (h : litLoadRecord ntab s = (.error e, log)) (rounds : Nat) :
    litLoadRecords ntab (rounds + 1) s = (.error e, log) := by
  rw [litLoadRecords, Logged.bind_error h]

theorem Reader.Eats.map {α β : Type} {x : Reader α} (g : α → β) (h : x.Eats) : (g <$> x).Eats :=
  h.bind fun _ => .pure _

theorem Reader.Eats.built {α : Type} (o : Option α) : (Ttools.built o).Eats := by
  rintro f a f' h
  obtain ⟨_, -, ⟨⟩⟩ := Option.map_eq_some_iff.mp h
  exact List.suffix_refl _

theorem litLoadInNumber_eats : litLoadInNumber.Eats := inNumber_eats .fatal

theorem polishLoop_eats {α : Type} {number : Reader Word} {step : List α → Tag → Reader (List α)}
    (hn : number.Eats) (hs : ∀ st t, (step st t).Eats) (fuel : Nat) (st : List α) :
    (polishLoop number step fuel st).Eats := by
  induction fuel generalizing st with
  | zero => exact .fatal
  | succ fuel ih =>
      refine hn.bind fun tag => ?_
      split
      · split
        · exact .pure _
        · exact .fatal
      · split
        · exact .fatal
        · exact (hs _ _).bind fun st => ih st

theorem litLoadPush_eats (st : List Word) {leaf : Reader Word} (h : leaf.Eats) :
    (litLoadPush st leaf).Eats := by
  unfold litLoadPush
  split
  · exact .fatal
  · exact h.map _

theorem litLoadStep_eats (ntab : Ntab) (st : List Word) (t : Tag) : (litLoadStep ntab st t).Eats := by
  cases t with
  | const => exact litLoadPush_eats st litLoadInNumber_eats
  | name =>
      refine litLoadPush_eats st (litLoadInNumber_eats.bind fun n => ?_)
      split
      · exact .fatal
      · exact .built _
  | element => exact .fatal
  | range => exact .fatal
  | elsum =>
      show (if _ then _ else _ : Reader (List Word)).Eats
      split
      · exact .fatal
      · exact .pure _
  | un t =>
      rcases st with _ | ⟨a, st⟩
      · exact .fatal
      · exact .pure _
  | bin t =>
      by_cases hq : t = .quest
      · subst hq
        refine litLoadInNumber_eats.bind fun tag => ?_
        split
        · exact .fatal
        · split
          · exact .pure _
          · exact .fatal
      · rcases st with _ | ⟨b, _ | ⟨a, st⟩⟩
        · cases t <;> first | exact absurd rfl hq | exact .fatal
        · cases t <;> first | exact absurd rfl hq | exact .fatal
        · cases t <;> first | exact absurd rfl hq | exact (Reader.Eats.built _).map _

theorem litLoadInExpr_eats (ntab : Ntab) : (litLoadInExpr ntab).Eats := fun f =>
  polishLoop_eats litLoadInNumber_eats (litLoadStep_eats ntab) (f.bytes.length + 1) [] f

theorem litLoadDataFields_eats (ntab : Ntab) : (litLoadDataFields ntab).Eats :=
  litLoadInNumber_eats.bind fun _ => (litLoadInExpr_eats ntab).bind fun _ =>
    (litLoadInExpr_eats ntab).bind fun _ => (litLoadInExpr_eats ntab).bind fun _ => .pure _

theorem litLoadCmdFields_eats (ntab : Ntab) : (litLoadCmdFields ntab).Eats :=
  litLoadInNumber_eats.bind fun _ => (litLoadInExpr_eats ntab).bind fun _ =>
    (litLoadInExpr_eats ntab).bind fun _ => .pure _

/-- Nothing is read twice: at most `k` bytes are left. -/
def AtMost (k : Nat) (s : Loader) : Prop := s.input.bytes.length ≤ k

theorem always_reading_eats {α : Type} {x : Reader α} (hx : x.Eats) {k : Nat} (h : AtMost k s)
    {Q : α → Loader → Prop} (hQ : ∀ a s', AtMost k s' → Q a s') :
    Logged.Always (fun _ => True) (reading x) Q s :=
  always_reading fun a _ hf => hQ a _ ((hx _ _ _ hf).length_le.trans h)

theorem litLoadBlock_eats (ltag : Word) {k : Nat} (h : AtMost k s) :
    Logged.Always (fun _ => True) (litLoadBlock ltag) (fun _ s' => AtMost k s') s := by
  refine .bind (Logged.always_get.mpr ?_)
  split
  · exact Logged.always_stop
  · refine .bind ⟨fun _ _ => trivial, ?_⟩
    intro _ s' hs
    refine .bind (Logged.always_modify.mpr (Logged.always_modify.mpr ?_))
    unfold litLoadInBlock at hs
    split at hs
    · cases hs
    · cases hs
      show (s.input.bytes.drop _).length ≤ k
      rw [List.length_drop]
      exact (Nat.sub_le _ _).trans h

theorem litLoadData_eats {k : Nat} (h : AtMost k s) :
    Logged.Always (fun _ => True) (litLoadData ntab) (fun _ s' => AtMost k s') s := by
  refine .bind (always_reading_eats (litLoadDataFields_eats ntab) h ?_)
  rintro ⟨width, value, count, size⟩ s' hs
  refine .bind (Logged.always_get.mpr ?_)
  split
  · exact Logged.always_stop
  · split
    · exact Logged.always_stop
    · split
      · exact Logged.always_stop
      · split
        · exact Logged.always_stop
        · refine .bind ⟨fun _ _ => trivial, ?_⟩
          rintro _ _ ⟨⟩
          refine .bind ⟨fun _ _ => trivial, ?_⟩
          rintro _ _ ⟨⟩
          exact Logged.always_modify.mpr hs

theorem litLoadCmd_eats {k : Nat} (h : AtMost k s) :
    Logged.Always (fun _ => True) (litLoadCmd ntab) (fun _ s' => AtMost k s') s := by
  refine .bind (always_reading_eats (litLoadCmdFields_eats ntab) h ?_)
  rintro ⟨opcode, arg, size⟩ s' hs
  refine .bind (Logged.always_get.mpr ?_)
  split
  · exact Logged.always_stop
  · refine .bind ⟨fun _ _ => trivial, ?_⟩
    intro _ s'' hs'
    refine .bind (Logged.always_modify.mpr (Logged.always_modify.mpr ?_))
    unfold litLoadGenerate at hs'
    split at hs'
    · cases hs'
      exact hs
    · cases hs'

theorem hostLoadInNumber_shortens {w : Nat} {f f' : LitIn} {p : BitVec w × Nat}
    (h : hostLoadInNumber w f = some (p, f')) : f'.bytes.length < f.bytes.length := by
  rw [hostLoadInNumber_eq] at h
  obtain ⟨⟨n, f''⟩, hn, ⟨⟩⟩ := Option.map_eq_some_iff.mp h
  obtain ⟨_ | ⟨c, bs⟩, k⟩ := f
  · cases hn
  · have hrest : Reader.Eats (if c = 255 then do
        let c' ← getc
        inRest fatal c' true
      else inRest fatal c false) := by
      split
      · exact .bind .getc fun c' => inRest_eats .fatal c' true
      · exact inRest_eats .fatal c false
    exact Nat.lt_succ_of_le (hrest _ _ _ hn).length_le

/-- A round that goes on has read something. -/
theorem litLoadRecord_shortens {s' : Loader} {log : List (Int × Byte)}
    (h : litLoadRecord ntab s = (.ok (none, s'), log)) :
    s'.input.bytes.length < s.input.bytes.length := by
  have key : Logged.Always (fun _ => True) (litLoadRecord ntab)
      (fun more s' => more = none → AtMost (s.input.bytes.length - 1) s') s := by
    refine .bind (always_reading ?_)
    rintro ⟨ltag, len⟩ f hf
    have hlt := hostLoadInNumber_shortens hf
    have hs : AtMost (s.input.bytes.length - 1) { s with input := f } := by
      show f.bytes.length ≤ _
      omega
    simp only
    split
    · exact .bind ((litLoadBlock_eats ltag hs).mono fun _ _ h => Logged.always_pure.mpr fun _ => h)
    · split
      · exact Logged.always_pure.mpr fun _ => hs
      · split
        · exact .bind ((litLoadData_eats hs).mono fun _ _ h => Logged.always_pure.mpr fun _ => h)
        · split
          · exact .bind ((litLoadCmd_eats hs).mono fun _ _ h => Logged.always_pure.mpr fun _ => h)
          · split
            · exact .bind ⟨fun _ _ => trivial, fun _ _ _ =>
                Logged.always_pure.mpr fun h => by cases h⟩
            · split
              · exact .bind ⟨fun _ _ => trivial, fun _ _ _ =>
                  Logged.always_pure.mpr fun h => by cases h⟩
              · exact Logged.always_stop
  have := key.2 none s' (by rw [h]) rfl
  have hne : 0 < s.input.bytes.length := by
    by_contra h0
    obtain ⟨⟨_ | ⟨c, bs⟩, k⟩, _, _, _, _⟩ := s
    · cases h
    · exact h0 (Nat.succ_pos _)
  unfold AtMost at this
  omega

/-! ### The whole run -/

theorem Meets.inside {s' : Loader} (hm : Meets ntab s s') (h : Inside total s)
    (ho : ∀ s', Meets ntab s s' → ¬Overflows ntab s') : Inside total s' := by
  induction hm with
  | refl => exact h
  | @more s s₁ s' log hx t ih =>
      refine ih ?_ fun s'' hs => ho s'' (.more hx hs)
      exact (litLoadRecord_inside h (ho s (.refl s))).2 none s₁ (by rw [hx])

theorem ends_reading {α : Type} (x : Reader α) (s : Loader) : Logged.Ends .rounds (reading x) s := by
  unfold Logged.Ends reading
  rcases x s.input with _ | ⟨a, f⟩
  · rintro ⟨⟩
  · rintro ⟨⟩

theorem ends_fatal {α : Type} (s : Loader) :
    Logged.Ends .rounds (Logged.stop .fatal : Load α) s := by
  rintro ⟨⟩

theorem ends_modify (g : Loader → Loader) (s : Loader) :
    Logged.Ends .rounds (Logged.modify g : Load Unit) s := by
  rintro ⟨⟩

theorem litLoadBlock_ends (ltag : Word) (s : Loader) :
    Logged.Ends .rounds (litLoadBlock ltag) s := by
  refine .get_bind ?_
  split
  · exact ends_fatal s
  · refine .bind ?_ fun _ _ _ _ => .bind (ends_modify _ _) fun _ _ _ _ => ends_modify _ _
    unfold Logged.Ends litLoadInBlock
    split
    · rintro ⟨⟩
    · rintro ⟨⟩

theorem litLoadData_ends (s : Loader) : Logged.Ends .rounds (litLoadData ntab) s := by
  rcases hx : litLoadDataFields ntab s.input with _ | ⟨q, f⟩
  · have hread : reading (litLoadDataFields ntab) s = (.error .fatal, []) := by
      rw [reading, hx]
    rw [Logged.Ends, litLoadData, Logged.bind_error hread]
    rintro ⟨⟩
  · rw [Logged.Ends, litLoadData_eq hx]
    split
    · rintro ⟨⟩
    · rintro ⟨⟩

theorem litLoadCmd_ends (s : Loader) : Logged.Ends .rounds (litLoadCmd ntab) s := by
  refine .bind (ends_reading _ _) fun q s' _ _ => .get_bind ?_
  obtain ⟨opcode, arg, size⟩ := q
  simp only
  split
  · exact ends_fatal _
  · refine .bind ?_ fun _ _ _ _ => .bind (ends_modify _ _) fun _ _ _ _ => ends_modify _ _
    unfold Logged.Ends litLoadGenerate
    split
    · rintro ⟨⟩
    · rintro ⟨⟩

theorem litLoadRecord_ends (s : Loader) : Logged.Ends .rounds (litLoadRecord ntab) s := by
  have hmarker : ∀ len s, Logged.Ends .rounds (litLoadMarker len) s := fun len s =>
    .bind (ends_reading _ _) fun _ _ _ _ => .bind (ends_reading _ _) fun _ _ _ _ =>
      .bind (ends_reading _ _) fun _ _ _ _ => ends_modify _ _
  have hheader : ∀ s, Logged.Ends .rounds litLoadHeader s := by
    refine fun s => .bind (ends_reading _ _) fun len _ _ _ => ?_
    split
    · exact ends_fatal _
    · exact .bind (.bind (ends_reading _ _) fun _ _ _ _ => ends_modify _ _) fun _ _ _ _ =>
        .bind (ends_reading _ _) fun _ _ _ _ => Logged.ends_pure _ _ _
  refine .bind (ends_reading _ _) fun p s' _ _ => ?_
  obtain ⟨ltag, len⟩ := p
  simp only
  split
  · exact .bind (litLoadBlock_ends _ _) fun _ _ _ _ => Logged.ends_pure _ _ _
  split
  · exact Logged.ends_pure _ _ _
  split
  · exact .bind (litLoadData_ends _) fun _ _ _ _ => Logged.ends_pure _ _ _
  split
  · exact .bind (litLoadCmd_ends _) fun _ _ _ _ => Logged.ends_pure _ _ _
  split
  · exact .bind (hmarker _ _) fun _ _ _ _ => Logged.ends_pure _ _ _
  split
  · exact .bind (hheader _) fun _ _ _ _ => Logged.ends_pure _ _ _
  · exact ends_fatal _

/-- There are as many rounds as a run needs. -/
theorem litLoadRecords_ends {rounds : Nat} (h : s.input.bytes.length < rounds) :
    Logged.Ends .rounds (litLoadRecords ntab rounds) s := by
  induction rounds generalizing s with
  | zero => cases h
  | succ rounds ih =>
      refine .bind (litLoadRecord_ends s) fun more s' log hx => ?_
      cases more with
      | none =>
          have := litLoadRecord_shortens hx
          exact ih (by omega)
      | some b => exact Logged.ends_pure _ _ _

end

end Ttools
