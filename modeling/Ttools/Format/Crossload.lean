import Ttools.Format.LoadSegments

/-!
# Absolute images

`main` of `startups/absolute/crossload.c`: the segments of a linked file are loaded one behind the
other into a buffer of `MAX_IMAGE_SIZE` bytes, and what has been loaded is written out.

* `written_store`: a call that stores an image at the end of the buffer makes what is written
  longer by it.
* `crossload_eq`: the output for a linked file is the images of its segments, back to back,
  exactly when no record has a conditional in it and no name is too long for the loader.

The options, the names of the files and the messages are left out.
-/

namespace Ttools

open Support

/-- `MAX_IMAGE_SIZE`. -/
def maxImageSize : Int := 512 * 1024

/-- The stores of a call that has been given the area from `p` on. -/
def storeArea (buf : Int → Byte) (p : Int) (log : List (Int × Byte)) : Int → Byte :=
  log.foldl (fun buf st => Function.update buf (p + st.1) st.2) buf

/-- `buf`, `p` counted from it, and the loader. -/
structure Crossload where
  buf : Int → Byte
  p : Int
  loader : Loader

/-- The table of segment addresses is `NULL`, and has no entries. -/
def noTable : Ntab := .alone []

/-- The loop of `main`. -/
def crossloadLoop : Nat → Crossload → Option Crossload
  | 0, _ => none
  | rounds + 1, c =>
      match litLoadSegment (BitVec.ofInt 32 (maxImageSize - c.p)) noTable c.loader with
      | (.error _, _) => none
      | (.ok (more, s), log) =>
          let c : Crossload := ⟨storeArea c.buf c.p log, c.p + s.segsize.toInt, s⟩
          if more then crossloadLoop rounds c else some c

/-- What `fwrite (buf, 1, p-buf, out_f)` writes. -/
def written (buf : Int → Byte) (p : Int) : List Byte :=
  (List.range p.toNat).map fun i : Nat => buf i

/-- What is written for a file, whatever was in the buffer. -/
def crossload (buf : Int → Byte) (file : List Byte) : Option (List Byte) :=
  (crossloadLoop (file.length + 1)
    ⟨buf, 0, ⟨⟨file, 0⟩, 0, 0, 0, List.replicate (maxSegmentNameLength + 1) 0⟩⟩).map fun c =>
      written c.buf c.p

/-! ### The buffer -/

theorem storeArea_append (buf : Int → Byte) (p : Int) (a b : List (Int × Byte)) :
    storeArea buf p (a ++ b) = storeArea (storeArea buf p a) p b := List.foldl_append

/-- A byte at or above the end does not matter. -/
theorem written_update (buf : Int → Byte) {p q : Int} (h : p ≤ q) (b : Byte) :
    written (Function.update buf q b) p = written buf p := by
  refine List.map_congr_left fun i hi => ?_
  have hlt : i < p.toNat := List.mem_range.mp hi
  exact Function.update_of_ne (by omega) _ _

/-- One byte more. -/
theorem written_succ (buf : Int → Byte) {p : Int} (hp : 0 ≤ p) :
    written buf (p + 1) = written buf p ++ [buf p] := by
  obtain ⟨n, rfl⟩ := Int.eq_ofNat_of_zero_le hp
  rw [written, written, show ((n : Int) + 1).toNat = n + 1 by omega, Int.toNat_natCast,
    List.range_succ, List.map_append]
  rfl

/-- An image that is stored from the end on is written behind what was there. -/
theorem written_store (buf : Int → Byte) {p : Int} (hp : 0 ≤ p) (image : List Byte) :
    written (storeArea buf p (storesAt 0 image)) (p + image.length) = written buf p ++ image := by
  induction image using List.reverseRecOn with
  | nil => simp [storesAt, storeArea]
  | append_singleton image b ih =>
      have hlast : storesAt (0 + image.length) [b] = [((image.length : Int), b)] := by
        simp [storesAt]
      have hlen : p + ((image ++ [b]).length : Int) = p + image.length + 1 := by
        rw [List.length_append, List.length_singleton]
        omega
      rw [storesAt_append, storeArea_append, hlast, hlen]
      show written (Function.update _ (p + image.length) b) (p + image.length + 1) = _
      rw [written_succ _ (by omega), written_update _ le_rfl, ih, Function.update_self,
        List.append_assoc]

/-! ### The loop -/

section

variable {ix : Indices}

/-- `lit_load_segsize` after a call that has loaded an image. -/
theorem segsize_toInt {image : List Byte} (h : (image.length : Int) ≤ maxImageSize) :
    ((0 : Word) + BitVec.ofNat 32 image.length).toInt = image.length := by
  have hmax : maxImageSize = 524288 := rfl
  have hzero : (0 : Word) + BitVec.ofNat 32 image.length = BitVec.ofNat 32 image.length :=
    BitVec.zero_add _
  rw [hzero, ofNat_toInt (by omega)]

/-- The area for the rest of the buffer. -/
theorem fitsArea_rest {p : Int} {image : List Byte} (hp : 0 ≤ p)
    (h : p + image.length ≤ maxImageSize) :
    FitsArea (BitVec.ofInt 32 (maxImageSize - p)) image := by
  have hmax : maxImageSize = 524288 := rfl
  rw [FitsArea, BitVec.toInt_ofInt, Int.bmod_eq_of_le (by omega) (by omega)]
  omega

theorem crossloadLoop_ok {rounds : Nat} {c : Crossload} {more : Bool} {s : Loader}
    {log : List (Int × Byte)}
    (h : litLoadSegment (BitVec.ofInt 32 (maxImageSize - c.p)) noTable c.loader =
      (.ok (more, s), log)) :
    crossloadLoop (rounds + 1) c =
      if more then crossloadLoop rounds ⟨storeArea c.buf c.p log, c.p + s.segsize.toInt, s⟩
      else some ⟨storeArea c.buf c.p log, c.p + s.segsize.toInt, s⟩ := by
  rw [crossloadLoop, h]

theorem crossloadLoop_error {rounds : Nat} {c : Crossload} {e : LoadStop}
    (h : (litLoadSegment (BitVec.ofInt 32 (maxImageSize - c.p)) noTable c.loader).1 = .error e) :
    crossloadLoop (rounds + 1) c = none := by
  rcases hx : litLoadSegment (BitVec.ofInt 32 (maxImageSize - c.p)) noTable c.loader with
    ⟨e' | ⟨more, s'⟩, log⟩
  · rw [crossloadLoop, hx]
  · rw [hx] at h
    cases h

/-- What the loop has written when it comes back, and that it comes back at all, for a segment and
those after it. -/
theorem crossloadLoop_segments {frag : Fragment} {segments : List Segment}
    {out bs image : List Byte} {images : List (List Byte)} (hout : litOutElements ix frag.elts = some out)
    (hbs : litOutParts ix (laterParts segments) = some bs)
    (hfrag : FragmentLoads ix noTable frag image)
    (hlater : List.Forall₂ (fun seg image => FragmentLoads ix noTable seg.deffrag image) segments
      images)
    (hident : ∀ seg ∈ segments, seg.ident.length < 2 ^ 31) (buf : Int → Byte) {p : Int} (hp : 0 ≤ p)
    (hfits : p + ((image :: images).flatten.length : Int) ≤ maxImageSize) (s : Loader)
    (area length : Word) (rest : List Byte) (k n : Nat) :
    if (computedElements ix noTable frag.elts = true ∧
        ∀ seg ∈ segments, computedElements ix noTable seg.deffrag.elts = true) ∧
        ∀ seg ∈ segments, seg.ident.length ≤ maxSegmentNameLength then
      ∃ c, crossloadLoop (segments.length + 1 + n)
          ⟨buf, p, s.at ⟨out ++ (bs ++ (litOutMarker area length ++ rest)), k⟩⟩ = some c ∧
        written c.buf c.p = written buf p ++ (image :: images).flatten
    else crossloadLoop (segments.length + 1 + n)
      ⟨buf, p, s.at ⟨out ++ (bs ++ (litOutMarker area length ++ rest)), k⟩⟩ = none := by
  induction segments generalizing frag out bs image images buf p s k with
  | nil =>
      cases hbs
      cases hlater
      rw [List.flatten_singleton] at hfits
      have harea := fitsArea_rest hp hfits
      obtain ⟨hok, hfail⟩ := litLoadSegment_elements hout hfrag.loadable hfrag.image harea s
        (litOutMarker area length ++ rest) k
      have hrounds : ([] : List Segment).length + 1 + n = n + 1 := by
        rw [List.length_nil]
        omega
      rw [List.nil_append, hrounds]
      split
      · next hu =>
          have hrec := @litLoadRecord_marker noTable
            ((s.start (BitVec.ofInt 32 (maxImageSize - p))).loaded image.length ⟨[], 0⟩)
            area length rest k
          rw [crossloadLoop_ok (hok hu.1.1 _ _ hrec), if_neg Bool.false_ne_true]
          refine ⟨_, rfl, ?_⟩
          show written (storeArea buf p (storesAt 0 image))
            (p + ((0 : Word) + BitVec.ofNat 32 image.length).toInt) = _
          rw [segsize_toInt (by omega), written_store buf hp, List.flatten_singleton]
      · next hu =>
          refine crossloadLoop_error (hfail (.inl (Bool.eq_false_iff.mpr fun h => hu ?_)))
          exact ⟨⟨h, by simp⟩, by simp⟩
  | cons seg segments ih =>
      obtain ⟨b, hb, hbs⟩ := Option.bind_eq_some_iff.mp hbs
      obtain ⟨bs', hbs', hbs⟩ := Option.bind_eq_some_iff.mp hbs
      cases hbs
      cases hlater with
      | @cons _ image' _ images' hseg hlater =>
      obtain ⟨hident, hidents⟩ := List.forall_mem_cons.mp hident
      rw [List.flatten_cons, List.length_append] at hfits
      have harea : FitsArea _ image := fitsArea_rest hp (by omega)
      obtain ⟨hok, hfail⟩ := litLoadSegment_elements hout hfrag.loadable hfrag.image harea s
        (litOutHeader (.segment seg.ident) seg.deffrag ++
          (b ++ (bs' ++ (litOutMarker area length ++ rest)))) k
      have hrec := @litLoadRecord_segment noTable
        ((s.start (BitVec.ofInt 32 (maxImageSize - p))).loaded image.length ⟨[], 0⟩)
        seg.ident hident seg.deffrag.index (b ++ (bs' ++ (litOutMarker area length ++ rest))) k
      have hrounds : (seg :: segments).length + 1 + n = segments.length + 1 + n + 1 := by
        rw [List.length_cons]
        omega
      simp only [List.append_assoc, hrounds] at hok hfail ⊢
      by_cases hu : computedElements ix noTable frag.elts = true
      · by_cases hshort : seg.ident.length ≤ maxSegmentNameLength
        · rw [if_pos hshort] at hrec
          have hsize : ((0 : Word) + BitVec.ofNat 32 image.length).toInt = image.length :=
            segsize_toInt (by omega)
          have hnext : 0 ≤ p + ((0 : Word) + BitVec.ofNat 32 image.length).toInt := by omega
          have ih := ih hb hbs' hseg hlater hidents (storeArea buf p (storesAt 0 image)) hnext
            (by rw [hsize]; omega)
            { (s.start (BitVec.ofInt 32 (maxImageSize - p))).loaded image.length ⟨[], 0⟩ with
              segname := seg.ident ++ s.segname.drop seg.ident.length } k
          rw [crossloadLoop_ok (hok hu _ _ hrec), if_pos rfl]
          simp only [List.forall_mem_cons]
          split at ih
          · next hcond =>
              obtain ⟨c, hc, hw⟩ := ih
              rw [if_pos ⟨⟨hu, hcond.1⟩, hshort, hcond.2⟩]
              refine ⟨c, hc, ?_⟩
              rw [hw, hsize, written_store buf hp, List.append_assoc]
              rfl
          · next hcond =>
              rw [if_neg fun h => hcond ⟨h.1.2, h.2.2⟩]
              exact ih
        · rw [if_neg hshort] at hrec
          rw [if_neg fun h => hshort (h.2 seg List.mem_cons_self)]
          exact crossloadLoop_error (hfail (.inr hrec))
      · rw [if_neg fun h => hu h.1.1]
        exact crossloadLoop_error (hfail (.inl (Bool.eq_false_iff.mpr hu)))

end

/-! ### The file -/

/-- Every segment that is written has a header and a marker has a tag. -/
theorem length_parts {ix : Indices} {segments : List Segment} {bs : List Byte}
    (h : litOutParts ix (laterParts segments) = some bs) : segments.length ≤ bs.length := by
  induction segments generalizing bs with
  | nil => exact Nat.zero_le _
  | cons seg segments ih =>
      obtain ⟨b, -, h⟩ := Option.bind_eq_some_iff.mp h
      obtain ⟨bs', hbs', h⟩ := Option.bind_eq_some_iff.mp h
      cases h
      have := ih hbs'
      have htag := litOutNumber_ne_nil litSegment
      simp only [litOutHeader, List.length_append, List.length_cons]
      omega

/-- **The absolute image** of a linked file that fits is the images of its segments back to back,
exactly when no record has a conditional in it and no name is too long; else nothing is written. -/
theorem crossload_eq {ix : Indices} {seg : Segment} {segments : List Segment} {bytes : List Byte}
    {images : List (List Byte)} (h : passOutputSegments ix (seg :: segments) = some bytes)
    (hone : ∀ s ∈ seg :: segments, s.fragments = [])
    (hload : List.Forall₂ (fun seg image => FragmentLoads ix noTable seg.deffrag image)
      (seg :: segments) images)
    (hident : ∀ seg ∈ segments, seg.ident.length < 2 ^ 31)
    (hfits : (images.flatten.length : Int) ≤ maxImageSize) (buf : Int → Byte) (rest : List Byte) :
    crossload buf (bytes ++ rest) =
      if (∀ s ∈ seg :: segments, computedElements ix noTable s.deffrag.elts = true) ∧
        ∀ seg ∈ segments, seg.ident.length ≤ maxSegmentNameLength then some images.flatten
      else none := by
  obtain ⟨area, harea, h⟩ := Option.bind_eq_some_iff.mp h
  cases h
  rw [parts_eq seg segments hone] at harea
  obtain ⟨b, hb, harea⟩ := Option.bind_eq_some_iff.mp harea
  obtain ⟨bs, hbs, harea⟩ := Option.bind_eq_some_iff.mp harea
  obtain rfl : b ++ bs = area := Option.some.inj harea
  cases hload with
  | @cons _ image _ images hseg hlater =>
  have hlen := length_parts hbs
  obtain ⟨n, hn⟩ : ∃ n, (b ++ bs ++
      litOutMarker litAreaSegments (BitVec.ofNat 32 (b ++ bs).length) ++ rest).length + 1
      = segments.length + 1 + n := by
    refine ⟨_, (Nat.add_sub_cancel' ?_).symm⟩
    simp only [List.length_append]
    omega
  have hloop := crossloadLoop_segments hb hbs hseg hlater hident buf le_rfl (by simpa using hfits)
    ⟨⟨[], 0⟩, 0, 0, 0, List.replicate (maxSegmentNameLength + 1) 0⟩ litAreaSegments
    (BitVec.ofNat 32 (b ++ bs).length) rest 0 n
  rw [crossload, hn]
  simp only [List.forall_mem_cons, List.append_assoc] at hloop ⊢
  split at hloop
  · next hcond =>
      obtain ⟨c, hc, hw⟩ := hloop
      rw [if_pos hcond]
      refine (congrArg (Option.map _) hc).trans ?_
      rw [Option.map_some, hw]
      rfl
  · next hcond =>
      rw [if_neg hcond]
      exact congrArg (Option.map _) hloop

/-- The bytes of the block, and those of the data and of the command behind it. -/
theorem crossload_blockAndData :
    crossload (fun _ => 0)
        ([1, 7, 255, 4, 3, 98, 115, 115, 1, 255, 0, 2, 0, 5, 250, 0, 1, 250, 0, 4, 250, 255, 1, 64,
          0, 255, 16, 250, 0, 3, 250, 255, 7, 2, 31, 0, 0, 0, 0] ++ []) =
      some [7, 5, 0, 5, 5, 0x20, 0x61, 0x4f] := by
  have hcmd : (Element.mk (.const 3) (.cmd 0x40 (.const (-17)))).Loadable .inOrder noTable := by
    simp [Element.Loadable, Element.exprs, Expr.loadable, Expr.depth, maxExpressionDepth]
  have hdata : (Element.mk (.const 4) (.data 2 (.const 5) (.const 1))).Loadable .inOrder noTable := by
    simp [Element.Loadable, Element.exprs, Expr.loadable, Expr.depth, maxExpressionDepth]
  refine (@crossload_eq .inOrder blockAndData[0] [blockAndData[1]] _
    [[7], [5, 0, 5, 5, 0x20, 0x61, 0x4f]] (by decide) (by decide) ?_ (by decide) (by decide)
    (fun _ => 0) []).trans (if_pos (by decide))
  refine .cons ⟨?_, rfl⟩ (.cons ⟨?_, by decide⟩ .nil)
  · simp [blockAndData, Element.Loadable, Element.exprs]
  · simp only [blockAndData, List.getElem_cons_succ, List.getElem_cons_zero, List.forall_mem_cons]
    exact ⟨hdata, hcmd, by simp⟩

end Ttools
