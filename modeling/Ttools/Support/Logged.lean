/-!
# Support — Logged

Programs over a state that may stop with an error and that keep a log, and the rules for what
such a program ensures.  `Le e x y` compares two programs of which one may give up, with `e`, where
the other goes on.

`Ensures ok err x Q s` says of the run of `x` from `s`: if every entry of its log is `ok`, it ends
in `Q`, or stops with an error that satisfies `err`.  The log of a run that stops counts too.
-/

namespace Support

/-- A program with state `σ`, errors `ε` and log entries `ω`. -/
def Logged (σ ε ω α : Type) : Type := σ → Except ε (α × σ) × List ω

namespace Logged

variable {σ ε ω α β : Type}

instance : Monad (Logged σ ε ω) where
  pure a := fun s => (.ok (a, s), [])
  bind x f := fun s =>
    match x s with
    | (.ok (a, s'), log) => ((f a s').1, log ++ (f a s').2)
    | (.error e, log) => (.error e, log)

/-- Stop. -/
def stop (e : ε) : Logged σ ε ω α := fun _ => (.error e, [])

/-- Add an entry to the log. -/
def note (w : ω) : Logged σ ε ω Unit := fun s => (.ok ((), s), [w])

/-- Add an entry to the log if `b`. -/
def noteIf (b : Bool) (w : ω) : Logged σ ε ω Unit := if b then note w else pure ()

/-- The state. -/
def get : Logged σ ε ω σ := fun s => (.ok (s, s), [])

/-- Change the state. -/
def modify (f : σ → σ) : Logged σ ε ω Unit := fun s => (.ok ((), f s), [])

/-- A value, or an error in its place. -/
def ofOption (e : ε) : Option α → Logged σ ε ω α
  | some a => pure a
  | none => stop e

theorem bind_ok {x : Logged σ ε ω α} {f : α → Logged σ ε ω β} {s s' : σ} {a : α} {log : List ω}
    (h : x s = (.ok (a, s'), log)) : (x >>= f) s = ((f a s').1, log ++ (f a s').2) := by
  show (match x s with | (.ok (a, s'), log) => _ | (.error e, log) => _) = _
  rw [h]

theorem bind_error {x : Logged σ ε ω α} {f : α → Logged σ ε ω β} {s : σ} {e : ε} {log : List ω}
    (h : x s = (.error e, log)) : (x >>= f) s = (.error e, log) := by
  show (match x s with | (.ok (a, s'), log) => _ | (.error e, log) => _) = _
  rw [h]

/-- A run of two programs that goes well is a run of the one and then of the other. -/
theorem of_bind_ok {x : Logged σ ε ω α} {f : α → Logged σ ε ω β} {s s'' : σ} {b : β} {log : List ω}
    (h : (x >>= f) s = (.ok (b, s''), log)) :
    ∃ a s' log₁ log₂, x s = (.ok (a, s'), log₁) ∧ f a s' = (.ok (b, s''), log₂) := by
  rcases hx : x s with ⟨e | ⟨a, s'⟩, log₁⟩
  · rw [bind_error hx] at h
    cases h
  · rw [bind_ok hx, Prod.mk.injEq] at h
    exact ⟨a, s', log₁, (f a s').2, rfl, Prod.ext h.1 rfl⟩

/-- What holds after the run if all it logged is `ok`. -/
def Ensures (ok : ω → Prop) (err : ε → Prop) (x : Logged σ ε ω α) (Q : α → σ → Prop) (s : σ) : Prop :=
  (∀ w ∈ (x s).2, ok w) →
    match (x s).1 with
    | .ok (a, s') => Q a s'
    | .error e => err e

variable {ok : ω → Prop} {err : ε → Prop} {x : Logged σ ε ω α} {f : α → Logged σ ε ω β} {s : σ}

@[simp] theorem ensures_pure {a : α} {Q : α → σ → Prop} :
    Ensures ok err (pure a : Logged σ ε ω α) Q s ↔ Q a s :=
  ⟨fun h => h (by rintro _ ⟨⟩), fun h _ => h⟩

@[simp] theorem ensures_bind {Q : β → σ → Prop} :
    Ensures ok err (x >>= f) Q s ↔ Ensures ok err x (fun a s' => Ensures ok err (f a) Q s') s := by
  unfold Ensures
  rcases hx : x s with ⟨e | ⟨a, s'⟩, log⟩
  · rw [bind_error hx]
  · rw [bind_ok hx]
    constructor
    · intro h hlog hlog'
      exact h fun w hw => (List.mem_append.mp hw).elim (hlog w) (hlog' w)
    · intro h hlog
      exact h (fun w hw => hlog w (List.mem_append_left _ hw))
        fun w hw => hlog w (List.mem_append_right _ hw)

@[simp] theorem ensures_map {g : α → β} {Q : β → σ → Prop} :
    Ensures ok err (g <$> x) Q s ↔ Ensures ok err x (fun a s' => Q (g a) s') s := by
  show Ensures ok err (x >>= fun a => pure (g a)) Q s ↔ _
  rw [ensures_bind]
  simp only [ensures_pure]

@[simp] theorem ensures_stop {e : ε} {Q : α → σ → Prop} :
    Ensures ok err (stop e : Logged σ ε ω α) Q s ↔ err e :=
  ⟨fun h => h (by rintro _ ⟨⟩), fun h _ => h⟩

@[simp] theorem ensures_note {w : ω} {Q : Unit → σ → Prop} :
    Ensures ok err (note w : Logged σ ε ω Unit) Q s ↔ (ok w → Q () s) :=
  ⟨fun h hw => h (by rintro _ (_ | ⟨_, ⟨⟩⟩); exact hw), fun h hlog => h (hlog w (.head _))⟩

@[simp] theorem ensures_noteIf {b : Bool} {w : ω} {Q : Unit → σ → Prop} :
    Ensures ok err (noteIf b w : Logged σ ε ω Unit) Q s ↔ ((b = true → ok w) → Q () s) := by
  cases b with
  | false => simp [noteIf]
  | true => simp [noteIf]

@[simp] theorem ensures_get {Q : σ → σ → Prop} :
    Ensures ok err (get : Logged σ ε ω σ) Q s ↔ Q s s :=
  ⟨fun h => h (by rintro _ ⟨⟩), fun h _ => h⟩

@[simp] theorem ensures_modify {g : σ → σ} {Q : Unit → σ → Prop} :
    Ensures ok err (modify g : Logged σ ε ω Unit) Q s ↔ Q () (g s) :=
  ⟨fun h => h (by rintro _ ⟨⟩), fun h _ => h⟩

@[simp] theorem ensures_ofOption {e : ε} {o : Option α} {Q : α → σ → Prop} :
    Ensures ok err (ofOption e o : Logged σ ε ω α) Q s ↔
      (∀ a, o = some a → Q a s) ∧ (o = none → err e) := by
  cases o with
  | none => simp [ofOption]
  | some a => simp [ofOption]

theorem Ensures.mono {Q Q' : α → σ → Prop} (h : Ensures ok err x Q s)
    (hQ : ∀ a s', Q a s' → Q' a s') : Ensures ok err x Q' s := by
  unfold Ensures at *
  rcases hx : x s with ⟨e | ⟨a, s'⟩, log⟩ <;> rw [hx] at h
  · exact h
  · exact fun hlog => hQ a s' (h hlog)

/-- Two facts about one run. -/
theorem Ensures.and {err' : ε → Prop} {Q Q' : α → σ → Prop} (h : Ensures ok err x Q s)
    (h' : Ensures ok err' x Q' s) : Ensures ok err x (fun a s' => Q a s' ∧ Q' a s') s := by
  unfold Ensures at *
  rcases hx : x s with ⟨e | ⟨a, s'⟩, log⟩ <;> rw [hx] at h h'
  · exact h
  · exact fun hlog => ⟨h hlog, h' hlog⟩

/-- Fewer logs and more errors are allowed for. -/
theorem Ensures.weaken {ok' : ω → Prop} {err' : ε → Prop} {Q : α → σ → Prop}
    (h : Ensures ok err x Q s) (hok : ∀ w, ok' w → ok w) (herr : ∀ e, err e → err' e) :
    Ensures ok' err' x Q s := by
  unfold Ensures at *
  rcases hx : x s with ⟨e | ⟨a, s'⟩, log⟩ <;> rw [hx] at h
  · exact fun hlog => herr e (h fun w hw => hok w (hlog w hw))
  · exact fun hlog => h fun w hw => hok w (hlog w hw)

/-- A result is what it was ensured to be. -/
theorem Ensures.run {Q : α → σ → Prop} (h : Ensures ok err x Q s) {a : α} {s' : σ} {log : List ω}
    (hx : x s = (.ok (a, s'), log)) (hlog : ∀ w ∈ log, ok w) : Q a s' := by
  rw [Ensures, hx] at h
  exact h hlog

/-- What is ensured whatever is logged holds where a run ends. -/
theorem Ensures.ended {Q : α → σ → Prop} (h : Ensures (fun _ => True) err x Q s) {s' : σ}
    (hx : (x s).1.map (·.2) = .ok s') : ∃ a, Q a s' := by
  unfold Ensures at h
  rcases hrun : x s with ⟨e | ⟨a, s''⟩, log⟩ <;> rw [hrun] at h hx
  · cases hx
  · cases hx
    exact ⟨a, h fun _ _ => trivial⟩

/-! ### The log of any run -/

/-- Every entry of the log is `P`, also where the run stops, and if the run ends it ends in `Q`. -/
def Always (P : ω → Prop) (x : Logged σ ε ω α) (Q : α → σ → Prop) (s : σ) : Prop :=
  (∀ w ∈ (x s).2, P w) ∧ ∀ a s', (x s).1 = .ok (a, s') → Q a s'

section Always

variable {P : ω → Prop}

@[simp] theorem always_pure {a : α} {Q : α → σ → Prop} :
    Always P (pure a : Logged σ ε ω α) Q s ↔ Q a s :=
  ⟨fun h => h.2 a s rfl, fun h => ⟨by rintro _ ⟨⟩, by rintro _ _ ⟨⟩; exact h⟩⟩

@[simp] theorem always_stop {e : ε} {Q : α → σ → Prop} :
    Always P (stop e : Logged σ ε ω α) Q s :=
  ⟨by rintro _ ⟨⟩, by rintro _ _ ⟨⟩⟩

@[simp] theorem always_get {Q : σ → σ → Prop} :
    Always P (get : Logged σ ε ω σ) Q s ↔ Q s s :=
  ⟨fun h => h.2 s s rfl, fun h => ⟨by rintro _ ⟨⟩, by rintro _ _ ⟨⟩; exact h⟩⟩

@[simp] theorem always_modify {g : σ → σ} {Q : Unit → σ → Prop} :
    Always P (modify g : Logged σ ε ω Unit) Q s ↔ Q () (g s) :=
  ⟨fun h => h.2 () (g s) rfl, fun h => ⟨by rintro _ ⟨⟩, by rintro _ _ ⟨⟩; exact h⟩⟩

theorem Always.bind {Q : β → σ → Prop}
    (h : Always P x (fun a s' => Always P (f a) Q s') s) : Always P (x >>= f) Q s := by
  obtain ⟨hlog, hval⟩ := h
  rcases hx : x s with ⟨e | ⟨a, s'⟩, log⟩ <;> rw [hx] at hlog hval
  · rw [Always, bind_error hx]
    exact ⟨hlog, by rintro _ _ ⟨⟩⟩
  · obtain ⟨hlog', hval'⟩ := hval a s' rfl
    rw [Always, bind_ok hx]
    exact ⟨fun w hw => (List.mem_append.mp hw).elim (hlog w) (hlog' w), hval'⟩

theorem Always.mono {Q Q' : α → σ → Prop} (h : Always P x Q s)
    (hQ : ∀ a s', Q a s' → Q' a s') : Always P x Q' s :=
  ⟨h.1, fun a s' hx => hQ a s' (h.2 a s' hx)⟩

end Always

/-! ### What a run relates -/

/-- If the run ends, the state before and the state after it are related. -/
def Relates (R : σ → σ → Prop) (x : Logged σ ε ω α) : Prop :=
  ∀ s a s', (x s).1 = .ok (a, s') → R s s'

section Relates

variable {R : σ → σ → Prop}

theorem relates_stop {e : ε} : Relates R (stop e : Logged σ ε ω α) := by rintro s a s' ⟨⟩

variable (hrefl : ∀ s, R s s)

include hrefl

theorem relates_pure {a : α} : Relates R (pure a : Logged σ ε ω α) := by
  rintro s a s' ⟨⟩
  exact hrefl s

theorem relates_get : Relates R (get : Logged σ ε ω σ) := by
  rintro s a s' ⟨⟩
  exact hrefl s

omit hrefl

theorem Relates.bind (htrans : ∀ a b c, R a b → R b c → R a c) (h : Relates R x)
    (hf : ∀ a, Relates R (f a)) : Relates R (x >>= f) := by
  intro s b s'' hrun
  rcases hx : x s with ⟨e | ⟨a, s'⟩, log⟩
  · rw [bind_error hx] at hrun
    cases hrun
  · rw [bind_ok hx] at hrun
    exact htrans _ _ _ (h s a s' (by rw [hx])) (hf a s' b s'' hrun)

end Relates

/-! ### Giving up -/

/-- `y` does what `x` does, unless `x` gives up with `e`. -/
def Le (e : ε) (x y : Logged σ ε ω α) : Prop := ∀ s, (x s).1 = .error e ∨ y s = x s

variable {e : ε} {y : Logged σ ε ω α} {g : α → Logged σ ε ω β}

theorem Le.refl (e : ε) (x : Logged σ ε ω α) : Le e x x := fun _ => .inr rfl

theorem Le.trans {z : Logged σ ε ω α} (h : Le e x y) (h' : Le e y z) : Le e x z := fun s => by
  rcases h s with h | h
  · exact .inl h
  · rcases h' s with h' | h'
    · exact .inl (h ▸ h')
    · exact .inr (h'.trans h)

theorem le_stop (e : ε) (y : Logged σ ε ω α) : Le e (stop e) y := fun _ => .inl rfl

theorem Le.bind (h : Le e x y) (hf : ∀ a, Le e (f a) (g a)) : Le e (x >>= f) (y >>= g) := fun s => by
  rcases h s with h | h
  · rcases hx : x s with ⟨e' | ⟨a, s'⟩, log⟩
    · rw [hx] at h
      obtain rfl : e' = e := Except.error.inj h
      rw [bind_error hx]
      exact .inl rfl
    · rw [hx] at h
      cases h
  · rcases hx : x s with ⟨e' | ⟨a, s'⟩, log⟩
    · rw [bind_error hx, bind_error (h.trans hx)]
      exact .inr rfl
    · rw [bind_ok hx, bind_ok (h.trans hx)]
      rcases hf a s' with hfa | hfa
      · exact .inl hfa
      · rw [hfa]
        exact .inr rfl

/-- The program does not give up. -/
def Ends (e : ε) (x : Logged σ ε ω α) (s : σ) : Prop := (x s).1 ≠ .error e

theorem Ends.le (h : Ends e x s) (hle : Le e x y) : y s = x s := (hle s).resolve_left h

theorem Ends.mono (h : Ends e x s) (hle : Le e x y) : Ends e y s := by
  rw [Ends, h.le hle]
  exact h

theorem Ends.bind (h : Ends e x s) (hf : ∀ a s' log, x s = (.ok (a, s'), log) → Ends e (f a) s') :
    Ends e (x >>= f) s := by
  unfold Ends
  rcases hx : x s with ⟨e' | ⟨a, s'⟩, log⟩
  · rw [bind_error hx]
    rintro ⟨⟩
    exact h (by rw [hx])
  · rw [bind_ok hx]
    exact hf a s' log hx

/-- The first part of a program that does not give up does not. -/
theorem Ends.of_bind (h : Ends e (x >>= f) s) : Ends e x s := by
  unfold Ends at *
  rcases hx : x s with ⟨e' | ⟨a, s'⟩, log⟩
  · rw [bind_error hx] at h
    rintro ⟨⟩
    exact h rfl
  · exact fun he => by cases he

/-- A program that stops with other errors only does not give up. -/
theorem Ensures.ends {Q : α → σ → Prop} (h : Ensures (fun _ => True) err x Q s) (he : ¬err e) :
    Ends e x s := by
  unfold Ensures at h
  unfold Ends
  rcases hx : x s with ⟨e' | ⟨a, s'⟩, log⟩ <;> rw [hx] at h
  · rintro ⟨⟩
    exact he (h fun _ _ => trivial)
  · exact fun he => by cases he

theorem Ends.get_bind {f : σ → Logged σ ε ω β} (h : Ends e (f s) s) : Ends e (get >>= f) s := h

theorem ends_pure (e : ε) (a : α) (s : σ) : Ends e (pure a : Logged σ ε ω α) s := fun h => by cases h

/-! ### Enough fuel -/

/-- From some fuel on the run is the same one and does not give up.  What it ends in may depend on
whether everything it logged is `ok`. -/
def Settles (ok : ω → Prop) (e : ε) (x : Nat → Logged σ ε ω α) (Q : Prop → α → σ → Prop)
    (s : σ) : Prop :=
  ∃ n r, (∀ fuel, n ≤ fuel → x fuel s = r) ∧ r.1 ≠ .error e ∧
    ∀ a s', r.1 = .ok (a, s') → Q (∀ w ∈ r.2, ok w) a s'

section Settles

variable {Q Q' : Prop → α → σ → Prop} {R : Prop → β → σ → Prop} {z : Nat → Logged σ ε ω α}

theorem Settles.mono (h : Settles ok e z Q s) (hQ : ∀ H a s', Q H a s' → Q' H a s') :
    Settles ok e z Q' s := by
  obtain ⟨n, r, hr, hend, hpost⟩ := h
  exact ⟨n, r, hr, hend, fun a s' ha => hQ _ a s' (hpost a s' ha)⟩

theorem forall_mem_nil_iff : (∀ w ∈ ([] : List ω), ok w) ↔ True :=
  ⟨fun _ => trivial, fun _ _ hw => by cases hw⟩

theorem settles_pure {a : α} (h : Q True a s) : Settles ok e (fun _ => pure a) Q s := by
  refine ⟨0, (.ok (a, s), []), fun _ _ => rfl, by rintro ⟨⟩, ?_⟩
  rintro _ _ ⟨⟩
  rwa [propext forall_mem_nil_iff]

theorem settles_stop {e' : ε} (he : e' ≠ e) : Settles ok e (fun _ => stop e') Q s :=
  ⟨0, (.error e', []), fun _ _ => rfl, fun h => he (Except.error.inj h), by rintro _ _ ⟨⟩⟩

theorem settles_get {Q : Prop → σ → σ → Prop} (h : Q True s s) :
    Settles ok e (fun _ => (get : Logged σ ε ω σ)) Q s := by
  refine ⟨0, (.ok (s, s), []), fun _ _ => rfl, by rintro ⟨⟩, ?_⟩
  rintro _ _ ⟨⟩
  rwa [propext forall_mem_nil_iff]

theorem settles_ofOption {e' : ε} {o : Option α} (he : e' ≠ e)
    (h : ∀ a, o = some a → Q True a s) : Settles ok e (fun _ => ofOption e' o) Q s := by
  cases o with
  | none => exact settles_stop he
  | some a => exact settles_pure (h a rfl)

/-- The parts settle one after the other; all that the two logged is `ok` if both logs are. -/
theorem Settles.bind {k : Nat → α → Logged σ ε ω β} (h : Settles ok e z Q s)
    (hk : ∀ H a s', Q H a s' →
      Settles ok e (fun fuel => k fuel a) (fun H' b s'' => R (H ∧ H') b s'') s') :
    Settles ok e (fun fuel => z fuel >>= k fuel) R s := by
  obtain ⟨n, ⟨r, log⟩, hr, hend, hpost⟩ := h
  rcases r with e' | ⟨a, s'⟩
  · refine ⟨n, (.error e', log), fun fuel hn => bind_error (hr fuel hn), ?_, by rintro _ _ ⟨⟩⟩
    rintro ⟨⟩
    exact hend rfl
  · obtain ⟨m, r', hr', hend', hpost'⟩ := hk _ a s' (hpost a s' rfl)
    refine ⟨max n m, (r'.1, log ++ r'.2), fun fuel hfuel => ?_, hend', fun b s'' hb => ?_⟩
    · show (z fuel >>= k fuel) s = _
      rw [bind_ok (hr fuel (Nat.le_trans (Nat.le_max_left n m) hfuel)),
        show k fuel a s' = r' from hr' fuel (Nat.le_trans (Nat.le_max_right n m) hfuel)]
    · rw [propext List.forall_mem_append]
      exact hpost' b s'' hb

/-- A program that only gains by more fuel settles where it ends. -/
theorem Settles.of_ends {n : Nat} (hle : ∀ fuel, n ≤ fuel → Le e (z n) (z fuel))
    (hend : Ends e (z n) s)
    (hQ : ∀ a s' log, z n s = (.ok (a, s'), log) → Q (∀ w ∈ log, ok w) a s') :
    Settles ok e z Q s := by
  refine ⟨n, z n s, fun fuel hn => hend.le (hle fuel hn), hend, fun a s' ha => hQ a s' _ ?_⟩
  rw [← ha]

end Settles

/-- From some fuel on the run is the same one, and it succeeds and ends in `Q`. -/
def Succeeds (x : Nat → Logged σ ε ω α) (Q : α → σ → Prop) (s : σ) : Prop :=
  ∃ n a s' log, (∀ fuel, n ≤ fuel → x fuel s = (.ok (a, s'), log)) ∧ Q a s'

section Succeeds

variable {Q Q' : α → σ → Prop} {R : β → σ → Prop} {z : Nat → Logged σ ε ω α}

theorem Succeeds.mono (h : Succeeds z Q s) (hQ : ∀ a s', Q a s' → Q' a s') : Succeeds z Q' s := by
  obtain ⟨n, a, s', log, hrun, hpost⟩ := h
  exact ⟨n, a, s', log, hrun, hQ a s' hpost⟩

/-- A program without fuel. -/
theorem succeeds_of_run {a : α} {s' : σ} {log : List ω} (h : x s = (.ok (a, s'), log)) (hQ : Q a s') :
    Succeeds (fun _ => x) Q s := ⟨0, a, s', log, fun _ _ => h, hQ⟩

/-- The first fuels do not matter. -/
theorem Succeeds.from {y : Nat → Logged σ ε ω α} (hy : Succeeds y Q s) (n : Nat)
    (h : ∀ fuel, n ≤ fuel → z fuel s = y fuel s) : Succeeds z Q s := by
  obtain ⟨k, a, s', log, hrun, hpost⟩ := hy
  exact ⟨max n k, a, s', log, fun fuel hf => (h fuel (Nat.le_trans (Nat.le_max_left n k) hf)).trans
    (hrun fuel (Nat.le_trans (Nat.le_max_right n k) hf)), hpost⟩

theorem Succeeds.bind {k : Nat → α → Logged σ ε ω β} (h : Succeeds z Q s)
    (hk : ∀ a s', Q a s' → Succeeds (fun fuel => k fuel a) R s') :
    Succeeds (fun fuel => z fuel >>= k fuel) R s := by
  obtain ⟨n, a, s', log, hrun, hpost⟩ := h
  obtain ⟨m, b, s'', log', hrun', hpost'⟩ := hk a s' hpost
  refine ⟨max n m, b, s'', log ++ log', fun fuel hf => ?_, hpost'⟩
  show (z fuel >>= k fuel) s = _
  rw [bind_ok (hrun fuel (Nat.le_trans (Nat.le_max_left n m) hf)),
    show k fuel a s' = _ from hrun' fuel (Nat.le_trans (Nat.le_max_right n m) hf)]

end Succeeds

end Logged

end Support
