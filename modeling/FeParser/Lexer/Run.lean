import FeParser.Lexer.Tokenize

/-!
# Properties of whole runs of the line loop

Every property of whole runs of `tokenize` in this development is proved the same way: a step
lemma for the top of the loop body (`startLine`), one for a pass of the in-line scan
(`scanStep`), and an induction over the passes of the scan and over the lines of the source.
This module does the two inductions once, and each property brings only its step lemmas.

A property of a computation of the lexer is stated with `EndsIn E Q`: it stops only with a
stop that `E` allows, and ends well only with a value that `Q` allows. An invariant of the
state allows every stop; how the loop may stop allows every state. `EndsIn.bind` is the rule
for one computation after another.

Properties indexed by a position of the source are kept by the rounds of the loop over the
lines of the source, each read at its place (`LineAt`); properties of the state alone are kept
by the rounds over any list of lines.

## Main results

* `scanLine_endsIn`: a property of the scan that every pass keeps holds where the scan ends.
* `lineLoop_endsIn`: a property of the state after each line of the source that every round of
  the loop keeps holds after the loop.
* `lineLoop_keeps`: a property of the state that the top of the loop body and every pass of
  the scan keep holds after the loop, over any lines.
-/

namespace FeParser

namespace Lexer

/-! ### How a computation ends -/

/-- `x` **ends in** `E` and `Q`: it stops only with a stop that `E` allows, and ends well only
with a value that `Q` allows. -/
def EndsIn {α : Type} (E : LexStop → Prop) (Q : α → Prop) : Except LexStop α → Prop
  | .ok a => Q a
  | .error s => E s

section EndsIn

variable {α β : Type} {E : LexStop → Prop} {Q : α → Prop}

/-- With every stop allowed, a computation ends in `Q` when each value it ends well with
does. -/
theorem EndsIn.of_ok {x : Except LexStop α} (h : ∀ a, x = .ok a → Q a) :
    EndsIn (fun _ => True) Q x := by
  cases x with
  | ok a => exact h a rfl
  | error _ => trivial

/-- The value a computation that ends in `Q` ends well with has `Q`. -/
theorem EndsIn.of_eq_ok {x : Except LexStop α} (h : EndsIn E Q x) {a : α} (ha : x = .ok a) :
    Q a := by
  subst ha
  exact h

/-- A value that `Q` allows is an end that `Q` allows. -/
theorem EndsIn.pure {a : α} (h : Q a) : EndsIn E Q (pure a : Except LexStop α) := h

/-- One computation after another ends in `R` if the first ends in `Q` and the second, from
any value with `Q`, ends in `R`. -/
theorem EndsIn.bind {x : Except LexStop α} {f : α → Except LexStop β} {R : β → Prop}
    (hx : EndsIn E Q x) (hf : ∀ a, Q a → EndsIn E R (f a)) : EndsIn E R (x >>= f) := by
  cases x with
  | ok a => exact hf a hx
  | error _ => exact hx

/-- A computation that ends in `Q` and in `R` ends in both. -/
theorem EndsIn.and {x : Except LexStop α} {R : α → Prop} (hq : EndsIn E Q x) (hr : EndsIn E R x) :
    EndsIn E (fun a => Q a ∧ R a) x := by
  cases x with
  | ok _ => exact ⟨hq, hr⟩
  | error _ => exact hq

end EndsIn

/-! ### The in-line scan -/

/-- What a pass of the scan asks of the rest of the scan: `S` of the state and the position
where the scan goes on, `D` of the state where it breaks off. -/
def ScanStep.Holds (S : LexState → Nat → Prop) (D : LexState → Prop) : ScanStep → Prop
  | .next st lp => S st lp
  | .done st => D st

section Scan

variable {input line : List Char} {lineStart : Nat} {E : LexStop → Prop}
  {S : LexState → Nat → Prop} {D : LexState → Prop}

/-- A property `S` of the scan at a position, kept by every pass and giving `D` once the line
is read, gives `D` of the state the scan leaves, if running out of fuel is allowed. -/
theorem scanLine_endsIn (hfuel : E .outOfFuel)
    (hstep : ∀ {st lp}, S st lp → lp < utf8Len line →
      EndsIn E (ScanStep.Holds S D) (scanStep input line lineStart st lp))
    (hend : ∀ {st lp}, S st lp → utf8Len line ≤ lp → D st) :
    ∀ {fuel : Nat} {st : LexState} {lp : Nat}, S st lp →
      EndsIn E D (scanLine input line lineStart fuel st lp)
  | 0, _, _, _ => hfuel
  | fuel + 1, st, lp, hs => by
    unfold scanLine
    split_ifs with hlt
    · refine (hstep hs hlt).bind fun r hr => ?_
      cases r with
      | next st' lp' => exact scanLine_endsIn hfuel hstep hend hr
      | done st' => exact hr
    · exact hend hs (Nat.le_of_not_lt hlt)

/-- A property of the state alone that every pass keeps holds where the scan ends. -/
theorem scanLine_keeps {Q : LexState → Prop}
    (hscan : ∀ {st lp r}, Q st → scanStep input line lineStart st lp = .ok r → Q r.state)
    {fuel : Nat} {st : LexState} {lp : Nat} (hq : Q st) :
    EndsIn (fun _ => True) Q (scanLine input line lineStart fuel st lp) :=
  scanLine_endsIn (S := fun st _ => Q st) trivial
    (fun hs _ => EndsIn.of_ok fun r hr => by cases r <;> exact hscan hs hr) (fun hs _ => hs) hq

end Scan

/-! ### The line loop over the lines of the source -/

/-- What the top of the loop body asks of the rest of the round: `S` of the state and the
position where the scan starts, `N` of the state where the loop goes on to the next line, `T`
of the state where it stops. -/
def LineStart.Holds (S : LexState → Nat → Prop) (N T : LexState → Prop) : LineStart → Prop
  | .scan st lp => S st lp
  | .next st => N st
  | .stop st => T st

/-- A line of the source where the line loop reads it: after the whole lines `done` and before
the text `rest`; only its last character may be a line feed, and a line without one is the
last. -/
structure LineAt (input done line rest : List Char) : Prop where
  split : input = done ++ line ++ rest
  start : done = [] ∨ done.getLast? = some '\n'
  ne_nil : line ≠ []
  inner : ∀ P Q, line = P ++ '\n' :: Q → Q = []
  last : '\n' ∉ line → rest = []

/-- The first of the lines of the source left to read, after `done`. -/
theorem LineAt.of_lines {input done l : List Char} {ls : List (List Char)} (hls : Lines (l :: ls))
    (hin : input = done ++ (l :: ls).flatten) (hdone : done = [] ∨ done.getLast? = some '\n') :
    LineAt input done l ls.flatten := by
  refine ⟨by simp [hin], hdone, ?_, ?_, ?_⟩
  · cases hls with
    | last hne _ => exact hne
    | cons => simp
  · cases hls with
    | last _ hn => exact fun P Q h => absurd (by rw [h]; simp) hn
    | cons hb _ => exact fun P Q => eq_nil_of_newline hb
  · cases hls with
    | last => exact fun _ => rfl
    | cons => exact fun hn => absurd (by simp) hn

/-- The round of the line loop at the line `l`, after the lines `done`, from the state `st`,
**keeps** `P`: the top of the loop body gives `P` after the line where the loop goes on, `P`
after the whole source where it stops, and, where the scan starts, a scan that ends in `P`
after the line; it stops only as `E` allows. -/
def RoundKeeps (input : List Char) (E : LexStop → Prop) (P : List Char → LexState → Prop)
    (done l : List Char) (st : LexState) : Prop :=
  EndsIn E (LineStart.Holds
      (fun st lp => EndsIn E (P (done ++ l)) (scanLine input l (utf8Len done) (utf8Len l + 1) st lp))
      (P (done ++ l)) (P input))
    (startLine input st l (utf8Len done) (utf8Len done + utf8Len l))

section Loop

variable {input : List Char} {E : LexStop → Prop} {P : List Char → LexState → Prop}

/-- A round that keeps `P` and keeps `P'` keeps both. -/
theorem RoundKeeps.and {P' : List Char → LexState → Prop} {done l : List Char} {st : LexState}
    (h : RoundKeeps input E P done l st) (h' : RoundKeeps input E P' done l st) :
    RoundKeeps input E (fun d s => P d s ∧ P' d s) done l st := by
  unfold RoundKeeps at *
  generalize startLine input st l (utf8Len done) (utf8Len done + utf8Len l) = x at h h' ⊢
  rcases x with _ | ⟨_ | _ | _⟩
  exacts [h, EndsIn.and (Q := P (done ++ l)) h h', ⟨h, h'⟩, ⟨h, h'⟩]

/-- A round keeps a property of the state alone that the top of the loop body and every pass of
the scan of its line keep. -/
theorem roundKeeps_of_state {Q : LexState → Prop} {done l : List Char} {st : LexState}
    (hstart : ∀ {r}, startLine input st l (utf8Len done) (utf8Len done + utf8Len l) = .ok r →
      Q r.state)
    (hscan : ∀ {st lp r}, Q st → scanStep input l (utf8Len done) st lp = .ok r → Q r.state) :
    RoundKeeps input (fun _ => True) (fun _ => Q) done l st :=
  EndsIn.of_ok fun r hr => by
    have := hstart hr
    cases r with
    | scan _ _ => exact scanLine_keeps hscan this
    | next _ | stop _ => exact this

/-- **The run lemma.** A property `P done st` of the state after the lines `done` of the source
holds after the loop, if every round keeps it. -/
theorem lineLoop_endsIn
    (hline : ∀ {done l rest st}, LineAt input done l rest → P done st → RoundKeeps input E P done l st) :
    ∀ {ls : List (List Char)} {done : List Char} {st : LexState} {prev : List Char}, Lines ls →
      input = done ++ ls.flatten → (done = [] ∨ done.getLast? = some '\n') → P done st →
      EndsIn E (fun r => P input r.1) (lineLoop input (withOffsets (utf8Len done) ls) st prev)
  | [], done, st, prev, _, hin, _, hp => by
    rw [List.flatten_nil, List.append_nil] at hin
    subst hin
    exact hp
  | l :: ls, done, st, prev, hls, hin, hdone, hp => by
    -- the rounds after this line start at a line start too, unless nothing is left
    have hnext : ∀ st', P (done ++ l) st' → EndsIn E (fun r => P input r.1)
        (lineLoop input (withOffsets (utf8Len done + utf8Len l) ls) st' l) := by
      intro st' hp'
      cases hls with
      | last =>
        rw [hin, List.flatten_singleton]
        exact hp'
      | cons _ hls =>
        simpa using lineLoop_endsIn hline hls (by simp [hin]) (.inr (by simp)) hp'
    simp only [withOffsets, lineLoop]
    refine (hline (LineAt.of_lines hls hin hdone) hp).bind fun r hr => ?_
    cases r with
    | stop st' => exact hr
    | next st' => exact hnext st' hr
    | scan st' lp => exact hr.bind hnext

end Loop

/-! ### The line loop over any lines -/

section Keeps

variable {input : List Char} {Q : LexState → Prop}

/-- A property of the state alone that the top of the loop body and every pass of the scan
keep holds after the loop, over any lines. -/
theorem lineLoop_keeps
    (hstart : ∀ {st line lineStart lineEnd r}, Q st →
      startLine input st line lineStart lineEnd = .ok r → Q r.state)
    (hscan : ∀ {st line lineStart lp r}, Q st →
      scanStep input line lineStart st lp = .ok r → Q r.state) :
    ∀ {lines : List (List Char × Nat × Nat)} {st st' : LexState} {prev last : List Char},
      Q st → lineLoop input lines st prev = .ok (st', last) → Q st'
  | [], _, _, _, _, hq, h => by
    cases h
    exact hq
  | (line, lineStart, lineEnd) :: lines, st, st', prev, last, hq, h => by
    simp only [lineLoop] at h
    obtain ⟨r, hr, h⟩ := bind_eq_ok.1 h
    have hr' := hstart hq hr
    cases r with
    | stop _ =>
      cases h
      exact hr'
    | next _ => exact lineLoop_keeps hstart hscan hr' h
    | scan _ _ =>
      obtain ⟨st3, h3, h⟩ := bind_eq_ok.1 h
      exact lineLoop_keeps hstart hscan ((scanLine_keeps hscan hr').of_eq_ok h3) h

end Keeps

end Lexer

end FeParser
