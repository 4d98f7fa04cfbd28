import Ttools.Cmd.Disassemble

/-!
# Disassembling a stream

The loops of `main` in `dast/dast.c`: skipping the beginning of an input that cannot be sought,
and disassembling the rest through a buffer of `BUFSIZ` bytes and room for one command more.

* `fread_eq`: `fread` does not depend on how `read` splits the input.
* `dast_streams_iff`: what is shown is what one pass over the whole input shows, unless a command
  of `CMD_MAXLEN` bytes ends at a multiple of `BUFSIZ` before the end: then nothing is left in the
  buffer, and the loop ends.
* `skip_exact_iff`: a buffer is `CMD_MAXLEN` bytes longer than what is read into it, and its size
  is what is counted; so the loop skips too little after whole steps, and otherwise goes on below
  zero until the count is zero again, if it ever is.
-/

namespace Ttools

/-! ### Standard input -/

/-- A stream: what the next calls of `read` return, before the end of the file, and `feof`. -/
structure Stream where
  pieces : List (List Byte)
  eof : Bool
  deriving DecidableEq, Repr

/-- The bytes that are still to come. -/
def Stream.bytes (s : Stream) : List Byte := s.pieces.flatten

/-- `n` bytes, from as many pieces as it takes. -/
def readPieces : Nat → List (List Byte) → List Byte × List (List Byte)
  | _, [] => ([], [])
  | n, piece :: pieces =>
      if n ≤ piece.length then (piece.take n, piece.drop n :: pieces)
      else
        let (bytes, rest) := readPieces (n - piece.length) pieces
        (piece ++ bytes, rest)

/-- `fread (.., 1, n, stdin)`. -/
def Stream.fread (s : Stream) (n : Nat) : List Byte × Stream :=
  let (bytes, pieces) := readPieces n s.pieces
  (bytes, ⟨pieces, s.eof || bytes.length < n⟩)

theorem readPieces_eq (n : Nat) (pieces : List (List Byte)) :
    (readPieces n pieces).1 = pieces.flatten.take n ∧
      (readPieces n pieces).2.flatten = pieces.flatten.drop n := by
  induction pieces generalizing n with
  | nil => simp [readPieces]
  | cons piece pieces ih =>
      rw [readPieces, List.flatten_cons]
      split
      · next hle =>
          refine ⟨?_, ?_⟩
          · rw [List.take_append_of_le_length hle]
          · rw [List.flatten_cons, List.drop_append_of_le_length hle]
      · next hlt =>
          obtain ⟨htake, hdrop⟩ := ih (n - piece.length)
          refine ⟨?_, ?_⟩
          · rw [List.take_append, List.take_of_length_le (by omega)]
            exact congrArg (piece ++ ·) htake
          · rw [List.drop_append, List.drop_eq_nil_of_le (by omega), List.nil_append]
            exact hdrop

/-- The first `n` bytes are read, and the end of the file is seen where there are fewer. -/
theorem fread_eq (s : Stream) (n : Nat) :
    (s.fread n).1 = s.bytes.take n ∧ (s.fread n).2.bytes = s.bytes.drop n ∧
      (s.fread n).2.eof = (s.eof || decide (s.bytes.length < n)) := by
  obtain ⟨htake, hdrop⟩ := readPieces_eq n s.pieces
  refine ⟨htake, hdrop, ?_⟩
  show (s.eof || decide ((readPieces n s.pieces).1.length < n)) = _
  rw [htake, List.length_take]
  simp only [min_lt_iff, lt_self_iff_false, false_or]
  rfl

/-! ### The main loop -/

/-- `bufp` with `bufcount` bytes, `stdin`, the static `das` of `disassemble`, and `point`. -/
structure Dast where
  buf : List Byte
  stdin : Stream
  das : Disassembly
  point : Word
  deriving DecidableEq, Repr

/-- The tail is moved to the beginning of the buffer and `BUFSIZ` bytes more are read. -/
def Dast.refill (bufsiz : Nat) (s : Dast) : Dast :=
  if s.buf.length < cmdMaxlen ∧ s.stdin.eof = false then
    { s with
      buf := s.buf ++ (s.stdin.fread bufsiz).1
      stdin := (s.stdin.fread bufsiz).2 }
  else s

/-- A command has been shown. -/
def Dast.advance (s : Dast) (das : Disassembly) : Dast :=
  { s with
    buf := s.buf.drop das.size
    das := das
    point := s.point + BitVec.ofNat 32 das.size }

/-- The loop `while (bufcount > 0)`: what is shown, each command with its address; `none` is an
assertion that fails, or that there are more than so many commands. -/
def dastLoop (bufsiz : Nat) : Nat → Dast → Option (List (Word × Disassembly))
  | calls, s =>
      if s.buf = [] then some []
      else
        match calls with
        | 0 => none
        | calls + 1 => do
            let s := s.refill bufsiz
            let das ← disassemble s.das s.buf
            let rest ← dastLoop bufsiz calls (s.advance das)
            some ((s.point, das) :: rest)

/-- `main`, from the first `fread` on. -/
def dast (bufsiz calls : Nat) (das : Disassembly) (origin : Word) (stdin : Stream) :
    Option (List (Word × Disassembly)) :=
  let (buf, stdin) := stdin.fread bufsiz
  dastLoop bufsiz calls ⟨buf, stdin, das, origin⟩

/-- Commands with their addresses, the first one at `point`. -/
def addressed : Word → List Disassembly → List (Word × Disassembly)
  | _, [] => []
  | point, das :: rest => (point, das) :: addressed (point + BitVec.ofNat 32 das.size) rest

/-! ### One command -/

theorem skipPrefixes_suffix (o : Word) (bs : List Byte) : (skipPrefixes o bs).2 <:+ bs := by
  induction bs generalizing o with
  | nil => exact List.suffix_rfl
  | cons b bs ih =>
      rw [skipPrefixes]
      split
      · exact (ih _).trans (List.suffix_cons b bs)
      · exact List.suffix_rfl

/-- A command is found in any buffer that is not empty. -/
theorem findCommand_cons {buf : List Byte} (h : buf ≠ []) :
    ∃ o c after, findCommand buf = (o, c :: after) ∧ c :: after <:+ buf := by
  obtain ⟨b, bs, rfl⟩ := List.exists_cons_of_ne_nil h
  have hsuffix := skipPrefixes_suffix 0 (b :: bs)
  rw [findCommand]
  split
  · exact ⟨0, b, bs, rfl, List.suffix_rfl⟩
  · rcases hskip : skipPrefixes 0 (b :: bs) with ⟨o, _ | ⟨c, after⟩⟩
    · exact ⟨0, b, bs, rfl, List.suffix_rfl⟩
    · rw [hskip] at hsuffix
      exact ⟨o, c, after, rfl, hsuffix⟩

/-- `disassemble` takes from one to `CMD_MAXLEN` bytes of those that it is given. -/
theorem disassemble_size (das : Disassembly) {buf : List Byte} (h : buf ≠ []) :
    ∃ d, disassemble das buf = some d ∧ 1 ≤ d.size ∧ d.size ≤ cmdMaxlen ∧
      d.size ≤ buf.length := by
  have htake : buf.take cmdMaxlen ≠ [] := by
    rw [ne_eq, List.take_eq_nil_iff]
    exact fun hor => hor.elim (by decide) h
  obtain ⟨o, c, after, hfind, hsuffix⟩ := findCommand_cons htake
  have hlen := hsuffix.length_le
  rw [List.length_cons, List.length_take] at hlen
  rw [disassemble, hfind]
  refine ⟨_, rfl, ?_, ?_, ?_⟩
  · show 1 ≤ (buf.take cmdMaxlen).length - after.length
    rw [List.length_take]
    omega
  · show (buf.take cmdMaxlen).length - after.length ≤ cmdMaxlen
    rw [List.length_take]
    omega
  · show (buf.take cmdMaxlen).length - after.length ≤ buf.length
    rw [List.length_take]
    omega

/-- It looks no further than `CMD_MAXLEN` bytes. -/
theorem disassemble_take {buf buf' : List Byte} (h : buf.take cmdMaxlen = buf'.take cmdMaxlen)
    (das : Disassembly) : disassemble das buf = disassemble das buf' := by
  rw [disassemble, disassemble, h]

/-! ### The buffer -/

section

variable {bufsiz total p : Nat} {ahead : List Byte} {s : Dast}

/-- `p` bytes of an input of `total` bytes have been shown, `ahead` is the rest.  Before the end
of the input is seen whole buffers have been read; it is seen by a read that is cut short, which
is not made before there are less than `CMD_MAXLEN` bytes. -/
structure Streaming (bufsiz total p : Nat) (ahead : List Byte) (s : Dast) : Prop where
  rest : s.buf ++ s.stdin.bytes = ahead
  all : p + ahead.length = total
  whole : s.stdin.eof = false →
    s.buf.length < bufsiz + cmdMaxlen ∧ ∃ k, p + s.buf.length = k * bufsiz
  ended : s.stdin.eof = true →
    s.stdin.bytes = [] ∧ ∃ k, k * bufsiz < p + cmdMaxlen ∧ total < (k + 1) * bufsiz

theorem Streaming.start (bufsiz : Nat) (pieces : List (List Byte)) (das : Disassembly)
    (origin : Word) (h : 0 < bufsiz) :
    Streaming bufsiz pieces.flatten.length 0 pieces.flatten ⟨[], ⟨pieces, false⟩, das, origin⟩ where
  rest := rfl
  all := Nat.zero_add _
  whole _ := ⟨by show 0 < bufsiz + cmdMaxlen; omega, 0, by rw [Nat.zero_mul]; rfl⟩
  ended h := by cases h

/-- After the refill there are `CMD_MAXLEN` bytes in the buffer, or all that are left. -/
theorem Streaming.refill (h : Streaming bufsiz total p ahead s) (hB : cmdMaxlen ≤ bufsiz) :
    Streaming bufsiz total p ahead (s.refill bufsiz) ∧
      (cmdMaxlen ≤ (s.refill bufsiz).buf.length ∨ (s.refill bufsiz).buf = ahead) := by
  obtain ⟨htake, hdrop, heof⟩ := fread_eq s.stdin bufsiz
  unfold Dast.refill
  split
  · next hshort =>
      obtain ⟨hlt, hopen⟩ := hshort
      obtain ⟨-, k, hk⟩ := h.whole hopen
      have hall := congrArg List.length h.rest
      rw [List.length_append] at hall
      rw [hopen, Bool.false_or] at heof
      have hrest : s.buf ++ (s.stdin.fread bufsiz).1 ++ (s.stdin.fread bufsiz).2.bytes = ahead := by
        rw [htake, hdrop, List.append_assoc, List.take_append_drop]
        exact h.rest
      by_cases hend : s.stdin.bytes.length < bufsiz
      · refine ⟨⟨hrest, h.all, fun hopen' => ?_, fun _ => ⟨?_, k, ?_, ?_⟩⟩, .inr ?_⟩
        · rw [heof] at hopen'
          exact absurd hend (of_decide_eq_false hopen')
        · exact hdrop.trans (List.drop_eq_nil_of_le hend.le)
        · omega
        · have := h.all
          rw [Nat.succ_mul]
          omega
        · show s.buf ++ (s.stdin.fread bufsiz).1 = ahead
          rw [htake, List.take_of_length_le hend.le]
          exact h.rest
      · have hlen : (s.buf ++ (s.stdin.fread bufsiz).1).length = s.buf.length + bufsiz := by
          rw [List.length_append, htake, List.length_take, min_eq_left (not_lt.mp hend)]
        refine ⟨⟨hrest, h.all, fun _ => ⟨?_, k + 1, ?_⟩, fun hclosed => ?_⟩, .inl ?_⟩
        · show (s.buf ++ (s.stdin.fread bufsiz).1).length < _
          omega
        · show p + (s.buf ++ (s.stdin.fread bufsiz).1).length = _
          rw [Nat.succ_mul]
          omega
        · rw [heof] at hclosed
          exact absurd (of_decide_eq_true hclosed) hend
        · show cmdMaxlen ≤ (s.buf ++ (s.stdin.fread bufsiz).1).length
          omega
  · next hshort =>
      refine ⟨h, ?_⟩
      rw [not_and_or, not_lt, Bool.not_eq_false] at hshort
      refine hshort.imp id fun hclosed => ?_
      have hrest := h.rest
      rwa [(h.ended hclosed).1, List.append_nil] at hrest

/-- What `disassemble` is given shows the same command as all that is ahead. -/
theorem Streaming.disassemble_eq (h : Streaming bufsiz total p ahead s)
    (hfull : cmdMaxlen ≤ s.buf.length ∨ s.buf = ahead) (das : Disassembly) :
    disassemble das s.buf = disassemble das ahead := by
  refine disassemble_take ?_ das
  rcases hfull with hlen | hall
  · rw [← h.rest, List.take_append_of_le_length hlen]
  · rw [hall]

theorem Streaming.advance (h : Streaming bufsiz total p ahead s) {d : Disassembly}
    (hsize : d.size ≤ s.buf.length) :
    Streaming bufsiz total (p + d.size) (ahead.drop d.size) (s.advance d) := by
  have hlen : (s.advance d).buf.length = s.buf.length - d.size := List.length_drop ..
  have hall := h.all
  have hahead := congrArg List.length h.rest
  rw [List.length_append] at hahead
  refine ⟨?_, ?_, fun hopen => ?_, fun hclosed => ?_⟩
  · show s.buf.drop d.size ++ s.stdin.bytes = _
    rw [← h.rest, List.drop_append_of_le_length hsize]
  · rw [List.length_drop]
    omega
  · obtain ⟨hlt, k, hk⟩ := h.whole hopen
    exact ⟨by omega, k, by omega⟩
  · obtain ⟨hnil, k, hk, hk'⟩ := h.ended hclosed
    exact ⟨hnil, k, by omega, hk'⟩

/-- Nothing is left in the buffer but there is more to come only at the end of a buffer, after a
command of `CMD_MAXLEN` bytes, and there always then. -/
theorem Streaming.starved_iff (h : Streaming bufsiz total p ahead s)
    (hfull : cmdMaxlen ≤ s.buf.length ∨ s.buf = ahead) {d : Disassembly}
    (hsize : d.size ≤ s.buf.length) (hmax : d.size ≤ cmdMaxlen) :
    (s.advance d).buf = [] ∧ ahead.drop d.size ≠ [] ↔
      d.size = cmdMaxlen ∧ bufsiz ∣ p + d.size ∧ ahead.drop d.size ≠ [] := by
  have hlen : (s.advance d).buf.length = s.buf.length - d.size := List.length_drop ..
  have hahead := congrArg List.length h.rest
  have hall := h.all
  rw [List.length_append] at hahead
  rw [ne_eq, List.drop_eq_nil_iff, not_le, ← List.length_eq_zero_iff, hlen]
  constructor
  · rintro ⟨hempty, hmore⟩
    have hopen : s.stdin.eof = false := by
      refine Bool.not_eq_true _ ▸ fun hclosed => ?_
      rw [(h.ended hclosed).1, List.length_nil] at hahead
      omega
    have hlen' : cmdMaxlen ≤ s.buf.length := by
      refine hfull.resolve_right fun heq => ?_
      rw [heq] at hempty
      omega
    obtain ⟨-, k, hk⟩ := h.whole hopen
    exact ⟨by omega, ⟨k, by rw [Nat.mul_comm, ← hk]; omega⟩, hmore⟩
  · rintro ⟨hd, ⟨j, hj⟩, hmore⟩
    refine ⟨?_, hmore⟩
    by_contra hleft
    rcases heof : s.stdin.eof with _ | _
    · obtain ⟨hlt, k, hk⟩ := h.whole heof
      -- less than a buffer is left, and it would end at a multiple of its size
      have hdiff : (s.buf.length - d.size) = k * bufsiz - bufsiz * j := by omega
      rw [Nat.mul_comm bufsiz, ← Nat.sub_mul] at hdiff
      rcases hkj : k - j with _ | i
      · rw [hkj, Nat.zero_mul] at hdiff
        omega
      · rw [hkj, Nat.succ_mul] at hdiff
        have := Nat.zero_le (i * bufsiz)
        omega
    · obtain ⟨-, k, hk, hk'⟩ := h.ended heof
      have hjk : j * bufsiz < (k + 1) * bufsiz := by
        rw [Nat.mul_comm j, ← hj]
        omega
      have hkj : k * bufsiz < j * bufsiz := by
        rw [Nat.mul_comm j, ← hj]
        omega
      have := Nat.lt_of_mul_lt_mul_right hjk
      have := Nat.lt_of_mul_lt_mul_right hkj
      omega

/-- Bytes that are ahead are not all in the buffer only if there is more to be read. -/
theorem Streaming.nil_of_nil (h : Streaming bufsiz total p ahead s) (hahead : ahead = []) :
    s.buf = [] :=
  (List.append_eq_nil_iff.mp (h.rest.trans hahead)).1

end

/-! ### A whole input -/

/-- After no command of `CMD_MAXLEN` bytes a multiple of `bufsiz` has been reached, the last one
apart. -/
def KeepsGoing (bufsiz : Nat) : Nat → List Disassembly → Prop
  | _, [] => True
  | p, d :: ds =>
      (d.size = cmdMaxlen → bufsiz ∣ p + d.size → ds = []) ∧ KeepsGoing bufsiz (p + d.size) ds

instance (bufsiz : Nat) : (p : Nat) → (ds : List Disassembly) → Decidable (KeepsGoing bufsiz p ds)
  | _, [] => isTrue trivial
  | p, d :: ds =>
      have := instDecidableKeepsGoing bufsiz (p + d.size) ds
      inferInstanceAs (Decidable (_ ∧ _))

/-- The sizes of the commands of one pass. -/
def consumed (ds : List Disassembly) : Nat := (ds.map Disassembly.size).sum

/-- One pass over bytes that are left shows a command first. -/
theorem disassembleAll_cons {calls : Nat} {das d : Disassembly} {ahead : List Byte}
    (hne : ahead ≠ []) (hd : disassemble das ahead = some d) :
    disassembleAll (calls + 1) das ahead =
      (disassembleAll calls d (ahead.drop d.size)).map (d :: ·) := by
  obtain ⟨b, bs, rfl⟩ := List.exists_cons_of_ne_nil hne
  rw [disassembleAll, hd, Option.bind_eq_bind, Option.bind_some]
  cases disassembleAll calls d ((b :: bs).drop d.size) <;> rfl

/-- One pass shows every byte of the input once. -/
theorem disassembleAll_total {calls : Nat} {ahead : List Byte} (h : ahead.length ≤ calls)
    (das : Disassembly) :
    ∃ ds, disassembleAll calls das ahead = some ds ∧ consumed ds = ahead.length ∧
      (ds = [] ↔ ahead = []) := by
  induction calls generalizing das ahead with
  | zero =>
      obtain rfl := List.length_eq_zero_iff.mp (Nat.le_zero.mp h)
      exact ⟨[], rfl, rfl, Iff.rfl.trans (by simp)⟩
  | succ calls ih =>
      by_cases hne : ahead = []
      · subst hne
        exact ⟨[], rfl, rfl, by simp⟩
      · obtain ⟨d, hd, hpos, -, hsize⟩ := disassemble_size das hne
        have hdrop : (ahead.drop d.size).length = ahead.length - d.size := List.length_drop ..
        obtain ⟨ds, hds, hsum, -⟩ := ih (by omega : (ahead.drop d.size).length ≤ calls) d
        refine ⟨d :: ds, ?_, ?_, by simp [hne]⟩
        · rw [disassembleAll_cons hne hd, hds, Option.map_some]
        · rw [consumed, List.map_cons, List.sum_cons]
          rw [consumed] at hsum
          omega

theorem dastLoop_nil {bufsiz : Nat} {s : Dast} (calls : Nat) (h : s.buf = []) :
    dastLoop bufsiz calls s = some [] := by
  cases calls <;> rw [dastLoop, if_pos h]

/-- One turn of the loop while there are bytes ahead. -/
theorem dastLoop_succ {bufsiz total p : Nat} {ahead : List Byte} {s : Dast} (calls : Nat)
    (hB : cmdMaxlen ≤ bufsiz) (h : Streaming bufsiz total p ahead s) (hbuf : s.buf ≠ []) :
    ∃ d, disassemble s.das ahead = some d ∧
      dastLoop bufsiz (calls + 1) s = (dastLoop bufsiz calls ((s.refill bufsiz).advance d)).map
        ((s.point, d) :: ·) ∧
      Streaming bufsiz total (p + d.size) (ahead.drop d.size) ((s.refill bufsiz).advance d) ∧
      1 ≤ d.size ∧
      (((s.refill bufsiz).advance d).buf = [] ∧ ahead.drop d.size ≠ [] ↔
        d.size = cmdMaxlen ∧ bufsiz ∣ p + d.size ∧ ahead.drop d.size ≠ []) := by
  obtain ⟨hread, hfull⟩ := h.refill hB
  have hdas : (s.refill bufsiz).das = s.das := by unfold Dast.refill; split <;> rfl
  have hpoint : (s.refill bufsiz).point = s.point := by unfold Dast.refill; split <;> rfl
  have hne : (s.refill bufsiz).buf ≠ [] := by
    intro hnil
    rcases hfull with hlen | hall
    · rw [hnil] at hlen
      exact absurd hlen (by decide)
    · rw [hnil] at hall
      exact hbuf (h.nil_of_nil hall.symm)
  obtain ⟨d, hd, hpos, hmax, hsize⟩ := disassemble_size s.das hne
  refine ⟨d, ?_, ?_, hread.advance hsize, hpos, hread.starved_iff hfull hsize hmax⟩
  · rw [← hread.disassemble_eq hfull, hd]
  · rw [dastLoop, if_neg hbuf]
    simp only [hdas, hd, hpoint, Option.bind_eq_bind, Option.bind_some]
    cases dastLoop bufsiz calls ((s.refill bufsiz).advance d) <;> rfl

/-- The loop, from any state in which it is about to look at the bytes ahead. -/
theorem dastLoop_eq_iff {bufsiz total calls p : Nat} {ahead : List Byte} {s : Dast}
    {ds : List Disassembly} (hB : cmdMaxlen ≤ bufsiz) (h : Streaming bufsiz total p ahead s)
    (hgo : s.buf = [] → ahead = []) (hcalls : ahead.length ≤ calls)
    (hds : disassembleAll calls s.das ahead = some ds) :
    dastLoop bufsiz calls s = some (addressed s.point ds) ↔ KeepsGoing bufsiz p ds := by
  induction calls generalizing p ahead s ds with
  | zero =>
      obtain rfl := List.length_eq_zero_iff.mp (Nat.le_zero.mp hcalls)
      obtain rfl : [] = ds := Option.some.inj hds
      rw [dastLoop_nil _ (h.nil_of_nil rfl)]
      exact iff_of_true rfl trivial
  | succ calls ih =>
      by_cases hne : ahead = []
      · subst hne
        obtain rfl : [] = ds := Option.some.inj hds
        rw [dastLoop_nil _ (h.nil_of_nil rfl)]
        exact iff_of_true rfl trivial
      · obtain ⟨d, hd, hloop, hnext, hpos, hstarved⟩ := dastLoop_succ calls hB h (mt hgo hne)
        have hpoint : ((s.refill bufsiz).advance d).point = s.point + BitVec.ofNat 32 d.size := by
          unfold Dast.refill
          split <;> rfl
        have hrest : (ahead.drop d.size).length ≤ calls := by
          rw [List.length_drop]
          omega
        obtain ⟨ds', hds', -, hnil⟩ := disassembleAll_total hrest d
        rw [disassembleAll_cons hne hd, hds', Option.map_some] at hds
        obtain rfl := Option.some.inj hds
        rw [hloop, addressed, KeepsGoing]
        by_cases hstop : ((s.refill bufsiz).advance d).buf = [] ∧ ahead.drop d.size ≠ []
        · -- the loop ends, and one pass does not
          obtain ⟨hempty, hmore⟩ := hstop
          obtain ⟨hmax, hdvd, -⟩ := hstarved.mp ⟨hempty, hmore⟩
          have hmore' : ds' ≠ [] := mt hnil.mp hmore
          refine iff_of_false (fun heq => hmore' ?_) fun hkeeps => hmore' (hkeeps.1 hmax hdvd)
          rw [dastLoop_nil calls hempty] at heq
          have htail := (List.cons.inj (Option.some.inj heq)).2
          cases ds' with
          | nil => rfl
          | cons d' ds' => cases htail
        · have hgo' := fun hempty => by_contra fun hmore => hstop ⟨hempty, hmore⟩
          have hkeep : d.size = cmdMaxlen → bufsiz ∣ p + d.size → ds' = [] := fun hmax hdvd =>
            hnil.mpr (by_contra fun hmore => hstop (hstarved.mpr ⟨hmax, hdvd, hmore⟩))
          have hmem := ih hnext hgo' hrest hds'
          rw [hpoint] at hmem
          rw [← hmem, and_iff_right hkeep]
          constructor
          · intro heq
            obtain ⟨rest, hrest', hcons⟩ := Option.map_eq_some_iff.mp heq
            rw [hrest', (List.cons.inj hcons).2]
          · intro heq
            rw [heq, Option.map_some]

/-- Read through the buffer in any pieces, an input is shown as one pass over the whole of it
shows it, each byte once, if and only if no command of `CMD_MAXLEN` bytes ends at a multiple of
`BUFSIZ` with bytes of the input after it. -/
theorem dast_streams_iff {bufsiz calls : Nat} (pieces : List (List Byte)) (das : Disassembly)
    (origin : Word) (hB : cmdMaxlen ≤ bufsiz) (hcalls : pieces.flatten.length ≤ calls) :
    ∃ ds, disassembleAll calls das pieces.flatten = some ds ∧
      (dast bufsiz calls das origin ⟨pieces, false⟩ = some (addressed origin ds) ∧
          consumed ds = pieces.flatten.length ↔
        KeepsGoing bufsiz 0 ds) := by
  obtain ⟨ds, hds, hsum, -⟩ := disassembleAll_total hcalls das
  have hpos : 0 < bufsiz := lt_of_lt_of_le (by decide) hB
  obtain ⟨hread, hfull⟩ := (Streaming.start bufsiz pieces das origin hpos).refill hB
  refine ⟨ds, hds, ?_⟩
  rw [and_iff_left hsum]
  refine dastLoop_eq_iff hB hread (fun hnil => ?_) hcalls hds
  rcases hfull with hlen | hall
  · exact absurd (hlen.trans_eq (List.length_eq_zero_iff.mpr hnil)) (by decide)
  · exact hall.symm.trans hnil

/-- More bytes than the buffer holds, in two reads, with a command that lies across them. -/
theorem dast_streams_iff_two :
    cmdMaxlen ≤ 16 ∧ [List.replicate 19 (0x21 : Byte), 0x42 :: List.replicate 9 0x41].flatten.length ≤ 29 ∧
      ∃ ds, disassembleAll 29 ⟨none, false, false, 0, 0, ""⟩
          [List.replicate 19 0x21, 0x42 :: List.replicate 9 0x41].flatten = some ds ∧
        (dast 16 29 ⟨none, false, false, 0, 0, ""⟩ 0
              ⟨[List.replicate 19 0x21, 0x42 :: List.replicate 9 0x41], false⟩ =
            some (addressed 0 ds) ∧
          consumed ds = [List.replicate 19 (0x21 : Byte), 0x42 :: List.replicate 9 0x41].flatten.length ↔
            KeepsGoing 16 0 ds) :=
  ⟨by decide, by decide,
    dast_streams_iff [List.replicate 19 0x21, 0x42 :: List.replicate 9 0x41]
      ⟨none, false, false, 0, 0, ""⟩ 0 (by decide) (by decide)⟩

/-- `ldc 0x10000001` again and again, with the least `BUFSIZ` that C allows: nothing is left in the
buffer after the first 32, and the last one is not shown. -/
theorem dast_stops :
    (disassembleAll 33 ⟨none, false, false, 0, 0, ""⟩
        (List.replicate 33 [0x21, 0x20, 0x20, 0x20, 0x20, 0x20, 0x20, 0x41#8]).flatten).map
          List.length = some 33 ∧
      (dast 256 33 ⟨none, false, false, 0, 0, ""⟩ 0
        ⟨List.replicate 33 [0x21, 0x20, 0x20, 0x20, 0x20, 0x20, 0x20, 0x41#8], false⟩).map
          List.length = some 32 := by
  decide +kernel

/-! ### Skipping -/

/-- How much is read in one turn of the loop that skips. -/
def skipRequest {w : Nat} (bufsiz : Nat) (skip : BitVec w) : Nat :=
  if skip.toNat < bufsiz then skip.toNat else bufsiz

/-- The loop `for (; skip > 0; skip -= sizeof (buf))`, with an `unsigned long` of `w` bits: what
is left of `stdin`; `none` if there are more than so many turns. -/
def skipLoop {w : Nat} (bufsiz : Nat) : Nat → BitVec w → Stream → Option Stream
  | turns, skip, stdin =>
      if skip = 0 then some stdin
      else
        match turns with
        | 0 => none
        | turns + 1 =>
            skipLoop bufsiz turns (skip - BitVec.ofNat w (bufsiz + cmdMaxlen))
              (stdin.fread (skipRequest bufsiz skip)).2

/-- The loop ends from `skip`, and has asked for so many bytes. -/
inductive Skips {w : Nat} (bufsiz : Nat) : BitVec w → Nat → Prop where
  | done : Skips bufsiz 0 0
  | turn {skip : BitVec w} {n : Nat} (h : skip ≠ 0)
      (t : Skips bufsiz (skip - BitVec.ofNat w (bufsiz + cmdMaxlen)) n) :
      Skips bufsiz skip (skipRequest bufsiz skip + n)

section

variable {w bufsiz : Nat} {skip : BitVec w} {n : Nat}

theorem Skips.of_loop {turns : Nat} {stdin rest : Stream}
    (h : skipLoop bufsiz turns skip stdin = some rest) :
    ∃ n, Skips bufsiz skip n ∧ rest.bytes = stdin.bytes.drop n := by
  induction turns generalizing skip stdin with
  | zero =>
      rw [skipLoop] at h
      split at h
      · next hzero =>
          obtain rfl := Option.some.inj h
          exact ⟨0, hzero ▸ .done, rfl⟩
      · cases h
  | succ turns ih =>
      rw [skipLoop] at h
      split at h
      · next hzero =>
          obtain rfl := Option.some.inj h
          exact ⟨0, hzero ▸ .done, rfl⟩
      · next hne =>
          obtain ⟨n, hn, hbytes⟩ := ih h
          refine ⟨_, .turn hne hn, ?_⟩
          rw [hbytes, (fread_eq stdin _).2.1, List.drop_drop]

theorem Skips.loop (h : Skips bufsiz skip n) (stdin : Stream) :
    ∃ turns rest, skipLoop bufsiz turns skip stdin = some rest ∧
      rest.bytes = stdin.bytes.drop n := by
  induction h generalizing stdin with
  | done => exact ⟨0, stdin, by rw [skipLoop, if_pos rfl], rfl⟩
  | @turn skip n hne _ ih =>
      obtain ⟨turns, rest, hloop, hbytes⟩ := ih (stdin.fread (skipRequest bufsiz skip)).2
      refine ⟨turns + 1, rest, ?_, ?_⟩
      · rw [skipLoop, if_neg hne]
        exact hloop
      · rw [hbytes, (fread_eq stdin _).2.1, List.drop_drop]

theorem skips_zero_iff : Skips bufsiz (0 : BitVec w) n ↔ n = 0 := by
  constructor
  · intro h
    generalize hzero : (0 : BitVec w) = skip at h
    cases h with
    | done => rfl
    | turn hne _ => exact absurd hzero.symm hne
  · rintro rfl
    exact .done

theorem skips_iff (h : skip ≠ 0) :
    Skips bufsiz skip n ↔
      ∃ m, Skips bufsiz (skip - BitVec.ofNat w (bufsiz + cmdMaxlen)) m ∧
        n = skipRequest bufsiz skip + m := by
  constructor
  · intro hskips
    cases hskips with
    | done => exact absurd rfl h
    | turn _ t => exact ⟨_, t, rfl⟩
  · rintro ⟨m, hm, rfl⟩
    exact .turn h hm

/-- The loop ends from the multiples of the step. -/
theorem Skips.ends_iff :
    (∃ n, Skips bufsiz skip n) ↔ ∃ t, skip = BitVec.ofNat w (t * (bufsiz + cmdMaxlen)) := by
  constructor
  · rintro ⟨n, h⟩
    induction h with
    | done => exact ⟨0, (congrArg (BitVec.ofNat w) (Nat.zero_mul _)).symm⟩
    | turn _ _ ih =>
        obtain ⟨t, ht⟩ := ih
        refine ⟨t + 1, ?_⟩
        rw [Nat.succ_mul, BitVec.ofNat_add, ← ht, BitVec.sub_add_cancel]
  · rintro ⟨t, rfl⟩
    induction t with
    | zero => exact ⟨0, by rw [Nat.zero_mul]; exact .done⟩
    | succ t ih =>
        obtain ⟨n, hn⟩ := ih
        by_cases hzero : BitVec.ofNat w ((t + 1) * (bufsiz + cmdMaxlen)) = 0
        · exact ⟨0, hzero ▸ .done⟩
        · refine ⟨_, .turn (n := n) hzero ?_⟩
          rwa [Nat.succ_mul, BitVec.ofNat_add, BitVec.add_sub_cancel]

/-- While there is more than a step to go a whole buffer is asked for. -/
theorem skips_steps_iff (q r : Nat) (h : q * (bufsiz + cmdMaxlen) + r < 2 ^ w) :
    Skips bufsiz (BitVec.ofNat w (q * (bufsiz + cmdMaxlen) + r)) n ↔
      ∃ m, Skips bufsiz (BitVec.ofNat w r) m ∧ n = q * bufsiz + m := by
  induction q generalizing n with
  | zero => simp only [Nat.zero_mul, Nat.zero_add, exists_eq_right']
  | succ q ih =>
      rw [Nat.succ_mul] at h
      have hval : (BitVec.ofNat w ((q + 1) * (bufsiz + cmdMaxlen) + r)).toNat =
          q * (bufsiz + cmdMaxlen) + r + (bufsiz + cmdMaxlen) := by
        rw [BitVec.toNat_ofNat, Nat.succ_mul, Nat.mod_eq_of_lt (by omega)]
        omega
      have hpos : 0 < cmdMaxlen := by decide
      have hne : BitVec.ofNat w ((q + 1) * (bufsiz + cmdMaxlen) + r) ≠ 0 := by
        intro hzero
        rw [hzero, show (0 : BitVec w).toNat = 0 by simp] at hval
        omega
      have hstep : BitVec.ofNat w ((q + 1) * (bufsiz + cmdMaxlen) + r) -
          BitVec.ofNat w (bufsiz + cmdMaxlen) =
            BitVec.ofNat w (q * (bufsiz + cmdMaxlen) + r) := by
        rw [Nat.succ_mul, Nat.add_right_comm, BitVec.ofNat_add, BitVec.add_sub_cancel]
      have hrequest : skipRequest bufsiz
          (BitVec.ofNat w ((q + 1) * (bufsiz + cmdMaxlen) + r)) = bufsiz := by
        rw [skipRequest, hval, if_neg (by omega)]
      rw [skips_iff hne, hstep, hrequest]
      constructor
      · rintro ⟨m, hm, rfl⟩
        obtain ⟨m', hm', rfl⟩ := (ih (by omega)).mp hm
        exact ⟨m', hm', by rw [Nat.succ_mul]; omega⟩
      · rintro ⟨m, hm, rfl⟩
        exact ⟨q * bufsiz + m, (ih (by omega)).mpr ⟨m, hm, rfl⟩, by rw [Nat.succ_mul]; omega⟩

/-- The loop ends if and only if the step reaches the number modulo `2 ^ w`. -/
theorem Skips.ends_iff_gcd (h : bufsiz + cmdMaxlen < 2 ^ w) :
    (∃ n, Skips bufsiz skip n) ↔ Nat.gcd (bufsiz + cmdMaxlen) (2 ^ w) ∣ skip.toNat := by
  rw [Skips.ends_iff]
  constructor
  · rintro ⟨t, rfl⟩
    rw [BitVec.toNat_ofNat]
    exact (Nat.dvd_mod_iff (Nat.gcd_dvd_right _ _)).mpr
      ((Nat.gcd_dvd_left _ _).mul_left t)
  · rintro ⟨c, hc⟩
    have hpos : 0 < bufsiz + cmdMaxlen := Nat.lt_add_left bufsiz (by decide)
    obtain ⟨m, -, hm⟩ := Nat.exists_mul_mod_eq_gcd
      (lt_of_le_of_lt (Nat.gcd_le_left (2 ^ w) hpos) h)
    refine ⟨c * m, BitVec.eq_of_toNat_eq ?_⟩
    have hlt := skip.isLt
    calc skip.toNat
        = (Nat.gcd (bufsiz + cmdMaxlen) (2 ^ w) * c) % 2 ^ w := by
          rw [← hc, Nat.mod_eq_of_lt hlt]
      _ = ((bufsiz + cmdMaxlen) * m * c) % 2 ^ w := by
          rw [← hm, Nat.mod_mul_mod]
      _ = (BitVec.ofNat w (c * m * (bufsiz + cmdMaxlen))).toNat := by
          rw [BitVec.toNat_ofNat, Nat.mul_comm (c * m), Nat.mul_comm c, Nat.mul_assoc]

/-- A last piece that is not a whole step takes the count below zero. -/
theorem skips_part_iff {r : Nat} (hpos : 0 < r) (hr : r < bufsiz + cmdMaxlen)
    (h : bufsiz + cmdMaxlen ≤ 2 ^ w) :
    Skips bufsiz (BitVec.ofNat w r) n ↔
      ∃ m, Skips bufsiz (BitVec.ofNat w (2 ^ w + r - (bufsiz + cmdMaxlen))) m ∧
        n = min r bufsiz + m := by
  have hval : (BitVec.ofNat w r).toNat = r := by
    rw [BitVec.toNat_ofNat, Nat.mod_eq_of_lt (by omega)]
  have hne : BitVec.ofNat w r ≠ 0 := by
    intro hzero
    rw [hzero, show (0 : BitVec w).toNat = 0 by simp] at hval
    omega
  have hstep : BitVec.ofNat w r - BitVec.ofNat w (bufsiz + cmdMaxlen) =
      BitVec.ofNat w (2 ^ w + r - (bufsiz + cmdMaxlen)) := by
    have hadd : 2 ^ w + r - (bufsiz + cmdMaxlen) + (bufsiz + cmdMaxlen) = 2 ^ w + r := by omega
    have hsum : BitVec.ofNat w (2 ^ w + r - (bufsiz + cmdMaxlen)) +
        BitVec.ofNat w (bufsiz + cmdMaxlen) = BitVec.ofNat w r := by
      rw [← BitVec.ofNat_add, hadd]
      exact BitVec.eq_of_toNat_eq (by
        rw [BitVec.toNat_ofNat, BitVec.toNat_ofNat, Nat.add_mod_left])
    rw [← hsum, BitVec.add_sub_cancel]
  have hrequest : skipRequest bufsiz (BitVec.ofNat w r) = min r bufsiz := by
    rw [skipRequest, hval]
    split <;> omega
  rw [skips_iff hne, hstep, hrequest]

/-- Then more is asked for than there was to skip. -/
theorem Skips.over {q r : Nat}
    (hskips : Skips bufsiz (BitVec.ofNat w (q * (bufsiz + cmdMaxlen) + r)) n)
    (h : q * (bufsiz + cmdMaxlen) + r < 2 ^ w) (hpos : 0 < r) (hr : r < bufsiz + cmdMaxlen)
    (hB : 32 ≤ bufsiz) (hw : 2 * (bufsiz + cmdMaxlen) ≤ 2 ^ w) :
    q * (bufsiz + cmdMaxlen) + r < n := by
  obtain ⟨m, hm, rfl⟩ := (skips_steps_iff q r h).mp hskips
  obtain ⟨m', hm', rfl⟩ := (skips_part_iff hpos hr (by omega)).mp hm
  -- what is left, in steps
  have hS : 0 < bufsiz + cmdMaxlen := by omega
  have hdiv := Nat.div_add_mod' (2 ^ w + r - (bufsiz + cmdMaxlen)) (bufsiz + cmdMaxlen)
  have hone : 1 ≤ (2 ^ w + r - (bufsiz + cmdMaxlen)) / (bufsiz + cmdMaxlen) :=
    (Nat.le_div_iff_mul_le hS).mpr (by omega)
  have hmany : q - 1 ≤ (2 ^ w + r - (bufsiz + cmdMaxlen)) / (bufsiz + cmdMaxlen) := by
    refine (Nat.le_div_iff_mul_le hS).mpr ?_
    rw [Nat.sub_mul]
    omega
  rw [← hdiv] at hm'
  obtain ⟨m'', -, rfl⟩ := (skips_steps_iff _ _ (by rw [hdiv]; omega)).mp hm'
  generalize (2 ^ w + r - (bufsiz + cmdMaxlen)) / (bufsiz + cmdMaxlen) = q' at hone hmany
  have hq' : q' * 32 ≤ q' * bufsiz := Nat.mul_le_mul_left q' hB
  have hmax : cmdMaxlen = 8 := rfl
  rw [Nat.mul_add, hmax]
  omega

theorem skipLoop_exact_iff (skip : BitVec w) (stdin : Stream) :
    (∃ turns rest, skipLoop bufsiz turns skip stdin = some rest ∧
        rest.bytes = stdin.bytes.drop skip.toNat) ↔
      ∃ n, Skips bufsiz skip n ∧
        min n stdin.bytes.length = min skip.toNat stdin.bytes.length := by
  constructor
  · rintro ⟨turns, rest, hloop, hrest⟩
    obtain ⟨n, hn, hbytes⟩ := Skips.of_loop hloop
    exact ⟨n, hn, List.drop_eq_drop_iff.mp (hbytes.symm.trans hrest)⟩
  · rintro ⟨n, hn, hmin⟩
    obtain ⟨turns, rest, hloop, hbytes⟩ := hn.loop stdin
    exact ⟨turns, rest, hloop, hbytes.trans (List.drop_eq_drop_iff.mpr hmin)⟩

/-- From a multiple of the step as many buffers are asked for. -/
theorem skips_multiple_iff {q : Nat} (h : q * (bufsiz + cmdMaxlen) < 2 ^ w) :
    Skips bufsiz (BitVec.ofNat w (q * (bufsiz + cmdMaxlen))) n ↔ n = q * bufsiz := by
  refine (skips_steps_iff q 0 h).trans ⟨?_, ?_⟩
  · rintro ⟨m, hm, rfl⟩
    rw [skips_zero_iff.mp hm, Nat.add_zero]
  · rintro rfl
    exact ⟨0, .done, rfl⟩

/-- As many bytes are skipped as were asked for, or all there are, if and only if nothing was asked
for, or the count gets to zero modulo `2 ^ w` and the input has no bytes beyond those that a
multiple of the step asks for, or beyond those that were asked for. -/
theorem skip_exact_iff (skip : BitVec w) (stdin : Stream) (hB : 256 ≤ bufsiz)
    (hw : 2 * (bufsiz + cmdMaxlen) ≤ 2 ^ w) :
    (∃ turns rest, skipLoop bufsiz turns skip stdin = some rest ∧
        rest.bytes = stdin.bytes.drop skip.toNat) ↔
      skip = 0 ∨ Nat.gcd (bufsiz + cmdMaxlen) (2 ^ w) ∣ skip.toNat ∧
        if bufsiz + cmdMaxlen ∣ skip.toNat then
          stdin.bytes.length ≤ skip.toNat / (bufsiz + cmdMaxlen) * bufsiz
        else stdin.bytes.length ≤ skip.toNat := by
  have hS : 0 < bufsiz + cmdMaxlen := by omega
  have hlt := skip.isLt
  rw [skipLoop_exact_iff]
  by_cases hzero : skip = 0
  · subst hzero
    exact iff_of_true ⟨0, .done, by simp⟩ (.inl rfl)
  rw [or_iff_right hzero]
  have hpos : skip.toNat ≠ 0 := fun h => hzero (BitVec.eq_of_toNat_eq (by rw [h]; simp))
  by_cases hdvd : bufsiz + cmdMaxlen ∣ skip.toNat
  · rw [if_pos hdvd, and_iff_right ((Nat.gcd_dvd_left _ _).trans hdvd)]
    obtain ⟨q, hq⟩ := hdvd
    rw [Nat.mul_comm] at hq
    have hskip : skip = BitVec.ofNat w (q * (bufsiz + cmdMaxlen)) := by
      rw [← hq, BitVec.ofNat_toNat, BitVec.setWidth_eq]
    have hskips (n : Nat) : Skips bufsiz skip n ↔ n = q * bufsiz := by
      rw [hskip]
      exact skips_multiple_iff (hq ▸ hlt)
    simp only [hskips, exists_eq_left]
    have hq0 : q ≠ 0 := by
      rintro rfl
      omega
    have hmax : q * cmdMaxlen = q * 8 := rfl
    rw [hq, Nat.mul_div_cancel q hS, Nat.mul_add]
    omega
  · rw [if_neg hdvd, ← Skips.ends_iff_gcd (by omega)]
    have hdiv := Nat.div_add_mod' skip.toNat (bufsiz + cmdMaxlen)
    have hover (n : Nat) (hn : Skips bufsiz skip n) : skip.toNat < n := by
      rw [← BitVec.setWidth_eq skip, ← BitVec.ofNat_toNat, ← hdiv] at hn
      have hrest := Nat.pos_of_ne_zero fun h => hdvd (Nat.dvd_of_mod_eq_zero h)
      have := hn.over (by rw [hdiv]; exact hlt) hrest (Nat.mod_lt _ hS) (by omega) hw
      rwa [hdiv] at this
    constructor
    · rintro ⟨n, hn, hmin⟩
      have := hover n hn
      exact ⟨⟨n, hn⟩, by omega⟩
    · rintro ⟨⟨n, hn⟩, hlen⟩
      have := hover n hn
      exact ⟨n, hn, by omega⟩

end

/-- Two steps asked for, of an input that has fewer bytes than two buffers. -/
theorem skip_exact_iff_two :
    256 ≤ 8192 ∧ 2 * (8192 + cmdMaxlen) ≤ 2 ^ 64 ∧
      ∃ turns rest, skipLoop 8192 turns 16400#64 ⟨[[0x41, 0x42], [0x43]], false⟩ = some rest ∧
        rest.bytes = [] :=
  ⟨by decide, by decide,
    (skip_exact_iff 16400#64 ⟨[[0x41, 0x42], [0x43]], false⟩ (by decide) (by decide)).mpr
      (.inr ⟨by decide, by decide⟩)⟩

/-- `--skip 1` never ends. -/
theorem skip_one_hangs :
    ¬ ∃ turns rest, skipLoop 8192 turns 1#64 ⟨[[0x41, 0x42]], false⟩ = some rest := by
  rintro ⟨turns, rest, hrest⟩
  obtain ⟨n, hn, -⟩ := Skips.of_loop hrest
  exact absurd ((Skips.ends_iff_gcd (by decide)).mp ⟨n, hn⟩) (by decide)

end Ttools
