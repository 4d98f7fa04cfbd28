import Ttools.Format.Segments

/-!
# Area end markers

`lit_out_marker` (`shared/litout.c`) ends an area of a LIT file with a record of
`LIT_MARKER_LENGTH` bytes that tells the length of the area, so that a reader can go from the
end of the file to any of its areas.

* `length_litOutMarker`: the record has that length, whatever the length of the area.
* `marker_chain`: following the lengths from the end of the file leads to the start of each area,
  the last one first, and ends at the beginning of the file.
-/

namespace Ttools

/-- `LIT_AREA_NAMETABLE` and so on. -/
inductive AreaType where
  | nametable | needs | segments | definitions | stabs
  deriving DecidableEq, Repr

def AreaType.code : AreaType → Word
  | .nametable => 0
  | .needs => 1
  | .segments => 2
  | .definitions => 3
  | .stabs => 4

/-! ### Writing -/

/-- The output file, and `oldpos` of `lit_out_marker`. -/
structure LitOut where
  file : List Byte
  oldpos : Nat
  deriving DecidableEq, Repr

/-- `lit_out_marker`; `none` is a failed assertion. -/
def LitOut.marker (w : LitOut) (area : AreaType) : Option LitOut :=
  let curpos := w.file.length
  if w.oldpos ≤ curpos then
    let length := BitVec.ofNat 32 (curpos - w.oldpos)
    let n := (litOutNumber litMarker).length + (litOutNumber area.code).length +
      (litOutNumber length).length
    if n ≤ litMarkerLength then
      some ⟨w.file ++ litOutMarker area.code length, curpos + litMarkerLength⟩
    else none
  else none

/-- An area is written, and its marker. -/
def LitOut.area (w : LitOut) (a : AreaType × List Byte) : Option LitOut :=
  ({ w with file := w.file ++ a.2 } : LitOut).marker a.1

/-- A file of these areas. -/
def writeAreas (areas : List (AreaType × List Byte)) : Option LitOut :=
  areas.foldlM LitOut.area ⟨[], 0⟩

/-! ### Going back -/

/-- The length that a marker tells. -/
def readMarker : Reader Word := do
  let tag ← litInNumber
  if tag ≠ litMarker then fatal
  else do
    let _ ← litInNumber
    litInNumber

/-- From the end of a marker to the start of its area. -/
def hop (file : List Byte) (e : Nat) : Option Nat :=
  if e < litMarkerLength then none
  else
    let pos := e - litMarkerLength
    match readMarker ⟨(file.drop pos).take litMarkerLength, 0⟩ with
    | some (length, _) => if length.toNat ≤ pos then some (pos - length.toNat) else none
    | none => none

/-- So many hops from the end of a marker: the starts of the areas, and then there is nothing
before. -/
def hops (file : List Byte) : Nat → Nat → Option (List Nat)
  | 0, e => if e = 0 then some [] else none
  | n + 1, e => do
      let start ← hop file e
      let starts ← hops file n start
      some (start :: starts)

/-- Where the areas start, the first at `p`. -/
def areaStarts : Nat → List (AreaType × List Byte) → List Nat
  | _, [] => []
  | p, a :: areas => p :: areaStarts (p + a.2.length + litMarkerLength) areas

/-! ### One marker -/

theorem length_litOutMagnitude (number : Word) : (litOutMagnitude number).length ≤ 5 := by
  unfold litOutMagnitude
  split
  · exact Nat.le_of_ble_eq_true rfl
  split
  · exact Nat.le_of_ble_eq_true rfl
  split
  · exact Nat.le_of_ble_eq_true rfl
  · exact Nat.le_of_ble_eq_true rfl

theorem length_litOutNumber {number : Word} (h : number.slt 0 = false) :
    (litOutNumber number).length ≤ 5 := by
  rw [litOutNumber, if_neg fun hn => by rw [h] at hn; exact Bool.false_ne_true hn.1]
  exact length_litOutMagnitude number

/-- The tag, the area type and the length take no more than the length of a marker. -/
theorem marker_fits (area : AreaType) {length : Nat} (h : length < 2 ^ 31) :
    (litOutNumber litMarker).length + (litOutNumber area.code).length +
      (litOutNumber (BitVec.ofNat 32 length)).length ≤ litMarkerLength := by
  have hpos : (BitVec.ofNat 32 length).slt 0 = false := by
    have hint : (BitVec.ofNat 32 length).toInt = length := by
      rw [BitVec.toInt_eq_toNat_cond, BitVec.toNat_ofNat, Nat.mod_eq_of_lt (by omega),
        if_pos (by omega)]
    rw [← Bool.not_eq_true, BitVec.slt_iff_toInt_lt, hint]
    exact not_lt.mpr (Int.natCast_nonneg length)
  have hlength := length_litOutNumber hpos
  have htag : (litOutNumber litMarker).length = 2 := rfl
  have harea : (litOutNumber area.code).length = 1 := by cases area <;> rfl
  show _ ≤ 8
  omega

theorem length_litOutMarker (area : AreaType) {length : Nat} (h : length < 2 ^ 31) :
    (litOutMarker area.code (BitVec.ofNat 32 length)).length = litMarkerLength := by
  have hfits := marker_fits area h
  simp only [litOutMarker, List.length_append, List.length_replicate] at hfits ⊢
  omega

/-- A marker tells the length it has been given. -/
theorem readMarker_litOutMarker (area : AreaType) (length : Word) :
    ∃ f, readMarker ⟨litOutMarker area.code length, 0⟩ = some (length, f) := by
  have hreads : Reads readMarker
      (litOutNumber litMarker ++ (litOutNumber area.code ++ litOutNumber length)) length := by
    refine (litInNumber_litOutNumber litMarker).bind ?_
    rw [if_neg (by simp)]
    exact (litInNumber_litOutNumber area.code).bind (litInNumber_litOutNumber length)
  obtain ⟨marker, hmarker⟩ : ∃ marker, marker =
      litOutNumber litMarker ++ (litOutNumber area.code ++ litOutNumber length) := ⟨_, rfl⟩
  rw [litOutMarker, List.append_assoc (litOutNumber litMarker), ← hmarker]
  rw [← hmarker] at hreads
  exact ⟨_, hreads _ 0⟩

/-! ### All markers -/

/-- The bytes that a file of these areas has. -/
def areasBytes (areas : List (AreaType × List Byte)) : List Byte :=
  areas.flatMap fun a => a.2 ++ litOutMarker a.1.code (BitVec.ofNat 32 a.2.length)

theorem areasBytes_snoc (areas : List (AreaType × List Byte)) (a : AreaType × List Byte) :
    areasBytes (areas ++ [a]) =
      areasBytes areas ++ (a.2 ++ litOutMarker a.1.code (BitVec.ofNat 32 a.2.length)) := by
  rw [areasBytes, List.flatMap_append, List.flatMap_singleton]
  rfl

theorem areasBytes_cons (a : AreaType × List Byte) (areas : List (AreaType × List Byte)) :
    areasBytes (a :: areas) =
      a.2 ++ litOutMarker a.1.code (BitVec.ofNat 32 a.2.length) ++ areasBytes areas :=
  List.flatMap_cons ..

/-- The writer keeps where the next area starts. -/
theorem writeAreas_eq {areas : List (AreaType × List Byte)} (h : ∀ a ∈ areas, a.2.length < 2 ^ 31) :
    writeAreas areas = some ⟨areasBytes areas, (areasBytes areas).length⟩ := by
  induction areas using List.reverseRecOn with
  | nil => rfl
  | append_singleton areas a ih =>
      have ha : a.2.length < 2 ^ 31 := h a (by simp)
      have hmarker := length_litOutMarker a.1 ha
      rw [writeAreas, List.foldlM_append]
      change (writeAreas areas).bind (fun w => [a].foldlM LitOut.area w) = _
      rw [ih fun b hb => h b (List.mem_append_left _ hb), Option.bind_some, List.foldlM_cons]
      rw [areasBytes_snoc, LitOut.area, LitOut.marker]
      simp only [List.length_append, Nat.le_add_right, if_true, Nat.add_sub_cancel_left,
        marker_fits a.1 ha, hmarker]
      simp only [List.append_assoc, Nat.add_assoc]
      rfl

/-- Only the bytes up to the end of the marker count. -/
theorem hop_append {file tail : List Byte} {e : Nat} (h : e ≤ file.length) :
    hop (file ++ tail) e = hop file e := by
  unfold hop
  split
  · rfl
  · next hle =>
      have htake : ((file ++ tail).drop (e - litMarkerLength)).take litMarkerLength =
          (file.drop (e - litMarkerLength)).take litMarkerLength := by
        rw [List.drop_append_of_le_length (by omega), List.take_append_of_le_length]
        rw [List.length_drop]
        omega
      simp only [htake]

theorem hop_le {file : List Byte} {e start : Nat} (h : hop file e = some start) : start ≤ e := by
  unfold hop at h
  split at h
  · cases h
  · dsimp only at h
    split at h
    · split at h
      · cases h
        omega
      · cases h
    · cases h

theorem hops_append {file tail : List Byte} {n e : Nat} (h : e ≤ file.length) :
    hops (file ++ tail) n e = hops file n e := by
  induction n generalizing e with
  | zero => rfl
  | succ n ih =>
      rw [hops, hops, hop_append h]
      rcases hhop : hop file e with _ | start
      · rfl
      · simp only [Option.bind_eq_bind, Option.bind_some]
        rw [ih ((hop_le hhop).trans h)]

/-- From the last marker to the start of its area. -/
theorem hop_last (file : List Byte) (area : AreaType) {bytes : List Byte}
    (h : bytes.length < 2 ^ 31) :
    hop (file ++ (bytes ++ litOutMarker area.code (BitVec.ofNat 32 bytes.length)))
      (file.length + bytes.length + litMarkerLength) = some file.length := by
  have hmarker := length_litOutMarker area h
  obtain ⟨f, hf⟩ := readMarker_litOutMarker area (BitVec.ofNat 32 bytes.length)
  have hlength : (BitVec.ofNat 32 bytes.length).toNat = bytes.length := by
    rw [BitVec.toNat_ofNat, Nat.mod_eq_of_lt (by omega)]
  rw [hop, if_neg (by omega)]
  simp only [Nat.add_sub_cancel]
  rw [← List.append_assoc, ← List.length_append, List.drop_left, List.take_of_length_le hmarker.le,
    hf]
  simp only [hlength, List.length_append, Nat.le_add_left, if_true, Nat.add_sub_cancel]

theorem areaStarts_snoc (p : Nat) (areas : List (AreaType × List Byte)) (a : AreaType × List Byte)
    (h : ∀ a ∈ areas, a.2.length < 2 ^ 31) :
    areaStarts p (areas ++ [a]) = areaStarts p areas ++ [p + (areasBytes areas).length] := by
  induction areas generalizing p with
  | nil => rfl
  | cons b areas ih =>
      obtain ⟨hb, h⟩ := List.forall_mem_cons.mp h
      have hmarker := length_litOutMarker b.1 hb
      rw [List.cons_append, areaStarts, ih _ h, areaStarts, areasBytes_cons, List.length_append,
        List.length_append, hmarker, List.cons_append]
      simp only [Nat.add_assoc]

theorem hops_areas {areas : List (AreaType × List Byte)} (h : ∀ a ∈ areas, a.2.length < 2 ^ 31) :
    hops (areasBytes areas) areas.length (areasBytes areas).length =
      some (areaStarts 0 areas).reverse := by
  induction areas using List.reverseRecOn with
  | nil => rfl
  | append_singleton areas a ih =>
      have ha : a.2.length < 2 ^ 31 := h a (by simp)
      have h := fun b hb => h b (List.mem_append_left _ hb)
      have hmarker := length_litOutMarker a.1 ha
      have hlast := hop_last (areasBytes areas) a.1 ha
      rw [areaStarts_snoc _ _ _ h, Nat.zero_add, List.reverse_concat, areasBytes_snoc,
        List.length_append, List.length_append, List.length_append, hmarker, ← Nat.add_assoc,
        List.length_singleton, hops, hlast]
      simp only [Option.bind_eq_bind, Option.bind_some]
      rw [hops_append le_rfl, ih h]
      rfl

/-- Where an area is said to start, it starts. -/
theorem areaStarts_at {areas : List (AreaType × List Byte)}
    (h : ∀ a ∈ areas, a.2.length < 2 ^ 31) (file : List Byte) :
    List.Forall₂ (fun p a => ((file ++ areasBytes areas).drop p).take a.2.length = a.2)
      (areaStarts file.length areas) areas := by
  induction areas generalizing file with
  | nil => exact .nil
  | cons b areas ih =>
      obtain ⟨hb, h⟩ := List.forall_mem_cons.mp h
      have hmarker := length_litOutMarker b.1 hb
      refine .cons ?_ ?_
      · rw [List.drop_left, areasBytes_cons, List.append_assoc, List.take_left]
      · have hrest := ih h (file ++ (b.2 ++ litOutMarker b.1.code (BitVec.ofNat 32 b.2.length)))
        rw [List.length_append, List.length_append, hmarker, ← Nat.add_assoc,
          List.append_assoc] at hrest
        rwa [areasBytes_cons]

theorem areaStarts_ge {p q : Nat} {areas : List (AreaType × List Byte)}
    (h : q ∈ areaStarts p areas) : p ≤ q := by
  induction areas generalizing p with
  | nil => cases h
  | cons a areas ih =>
      rcases List.mem_cons.mp h with rfl | h
      · exact le_rfl
      · have := ih h
        omega

/-- The starts are in the order of the areas, each once. -/
theorem areaStarts_increasing (p : Nat) (areas : List (AreaType × List Byte)) :
    (areaStarts p areas).Pairwise (· < ·) := by
  induction areas generalizing p with
  | nil => exact .nil
  | cons a areas ih =>
      refine .cons (fun q hq => ?_) (ih _)
      have hge := areaStarts_ge hq
      have hpos : 0 < litMarkerLength := by decide
      omega

/-- **The chain of markers**: each marker takes `LIT_MARKER_LENGTH` bytes, and the lengths that
they tell lead from the end of the file to the start of every area, each once, the last area
first, and end at the beginning of the file. -/
theorem marker_chain {areas : List (AreaType × List Byte)}
    (h : ∀ a ∈ areas, a.2.length < 2 ^ 31) :
    ∃ w starts, writeAreas areas = some w ∧
      (∀ a ∈ areas,
        (litOutMarker a.1.code (BitVec.ofNat 32 a.2.length)).length = litMarkerLength) ∧
      w.file = areas.flatMap (fun a => a.2 ++ litOutMarker a.1.code (BitVec.ofNat 32 a.2.length)) ∧
      List.Forall₂ (fun start a => (w.file.drop start).take a.2.length = a.2) starts areas ∧
      starts.Pairwise (· < ·) ∧
      hops w.file areas.length w.file.length = some starts.reverse := by
  exact ⟨_, areaStarts 0 areas, writeAreas_eq h, fun a ha => length_litOutMarker a.1 (h a ha), rfl,
    areaStarts_at h [], areaStarts_increasing 0 areas, hops_areas h⟩

/-- An area of 300 bytes between two short ones. -/
theorem marker_chain_three : ∃ w, ∃ starts : List Nat,
    writeAreas [(.nametable, [1, 2]), (.segments, List.replicate 300 7), (.definitions, [])] =
        some w ∧
      hops w.file 3 w.file.length = some starts.reverse ∧ starts.length = 3 := by
  have hshort : ∀ a ∈ [(AreaType.nametable, [(1 : Byte), 2]), (.segments, List.replicate 300 7),
      (.definitions, [])], a.2.length < 2 ^ 31 := by
    refine List.forall_mem_cons.mpr ⟨by decide, List.forall_mem_cons.mpr ⟨?_, ?_⟩⟩
    · rw [List.length_replicate]
      omega
    · exact List.forall_mem_singleton.mpr (by decide)
  obtain ⟨w, starts, hw, -, -, hat, -, hhops⟩ := marker_chain hshort
  exact ⟨w, starts, hw, hhops, hat.length_eq⟩

end Ttools
