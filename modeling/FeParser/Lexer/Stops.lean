import FeParser.Lexer.Run

/-!
# How a run of `tokenize` ends

`tokenize` returns a `TokenizeError` in three places only: at the end of the source inside a
multi-line string, at the end of the source after a backslash continuation, and at a logical
line whose column is on no level of the indentation stack. Everything else that can go wrong
is a Rust panic: a failed `unwrap`, `parenlev -= 1` at `0`, a slice out of bounds or off a
character boundary.

The model bounds the in-line scan `while line_pos < line_len` by the length of the line plus
one. Every pass moves `line_pos` on by at least a byte (`scanStep_advances`): an empty match
of the pseudo-token pattern only happens after whitespace or at the end of the text, since
every token pattern reads at least a character. So the bound is never reached.

`StopsWith P x` says that `x` succeeds or stops with a stop satisfying `P`. Each function of
the lexer has such a statement, built from those of the functions it calls.

## Main results

* `scanLine_terminates`: every pass of the in-line scan moves on, so the scan of a line ends
  before its bound.
* `tokenize_stops`: how a run can stop: the two errors at the end of the source, the unindent
  error at the first character of a line's text, or a panic; never for want of a bound.
-/

namespace FeParser

namespace Lexer

open Pattern

/-- The panics of `tokenize`: a failed `unwrap`, `parenlev -= 1` at `0`, and a slice off a
character boundary or out of bounds. -/
def IsPanic : LexStop → Prop
  | .panic msg => msg = "called `Option::unwrap()` on a `None` value" ∨
      msg = "attempt to subtract with overflow" ∨ msg = "byte index is not a char boundary" ∨
      msg = "byte index out of bounds"
  | _ => False

/-- `x` succeeds, or stops with a stop that satisfies `P`. -/
def StopsWith {α : Type} (P : LexStop → Prop) (x : Except LexStop α) : Prop :=
  ∀ s, x = .error s → P s

/-! ### Stops of the steps -/

section Outcome

variable {α β : Type} {P Q : LexStop → Prop}

/-- A computation that succeeds stops with nothing. -/
theorem StopsWith.pure (a : α) : StopsWith P (pure a : Except LexStop α) := fun _ h => by cases h

/-- A stop that `P` allows. -/
theorem StopsWith.throw {s : LexStop} (hs : P s) : StopsWith P (.error s : Except LexStop α) :=
  fun _ h => by cases h; exact hs

/-- A weaker condition on the stops holds of the same computation. -/
theorem StopsWith.mono {x : Except LexStop α} (h : StopsWith P x) (hPQ : ∀ s, P s → Q s) :
    StopsWith Q x :=
  fun s hs => hPQ s (h s hs)

/-- A sequence stops where its first step does, or where the rest does after the value the
first step gave. -/
theorem StopsWith.bind {x : Except LexStop α} {f : α → Except LexStop β} (hx : StopsWith P x)
    (hf : ∀ a, x = .ok a → StopsWith P (f a)) : StopsWith P (x >>= f) := by
  intro s h
  cases hx' : x with
  | error e => rw [hx'] at h; cases h; exact hx _ hx'
  | ok a => rw [hx', ok_bind] at h; exact hf a hx' s h

/-- A computation that stops only as `P` allows, and whose values have `Q`, ends in `P` and
`Q`. -/
theorem StopsWith.endsIn {x : Except LexStop α} {R : α → Prop} (h : StopsWith P x)
    (hr : ∀ a, x = .ok a → R a) : EndsIn P R x := by
  cases x with
  | ok a => exact hr a rfl
  | error s => exact h s rfl

/-- A computation that ends in `P` and `R` stops only as `P` allows. -/
theorem EndsIn.stopsWith {x : Except LexStop α} {R : α → Prop} (h : EndsIn P R x) :
    StopsWith P x :=
  fun _ hs => by subst hs; exact h

/-- `unwrap` stops only with its panic. -/
theorem stopsWith_unwrap (o : Option α) : StopsWith IsPanic (unwrap o) := by
  cases o with
  | none => exact StopsWith.throw (.inl rfl)
  | some a => exact StopsWith.pure a

/-- `&s[pos..]` stops only with a panic: out of bounds or off a character boundary. -/
theorem stopsWith_sliceFrom : ∀ (cs : List Char) (n : Nat), StopsWith IsPanic (sliceFrom cs n)
  | _, 0 => fun _ h => by simp [sliceFrom] at h
  | [], _ + 1 => StopsWith.throw (.inr (.inr (.inr rfl)))
  | c :: cs, n + 1 => by
    rw [sliceFrom]
    split_ifs
    · exact stopsWith_sliceFrom cs _
    · exact StopsWith.throw (.inr (.inr (.inl rfl)))

/-- `&s[..n]` stops only with a panic: out of bounds or off a character boundary. -/
theorem stopsWith_takeBytes : ∀ (cs : List Char) (n : Nat), StopsWith IsPanic (takeBytes cs n)
  | _, 0 => fun _ h => by simp [takeBytes] at h
  | [], _ + 1 => StopsWith.throw (.inr (.inr (.inr rfl)))
  | c :: cs, n + 1 => by
    rw [takeBytes]
    split_ifs
    · intro s h
      cases ht : takeBytes cs (n + 1 - c.utf8Size) with
      | error e => rw [ht] at h; cases h; exact stopsWith_takeBytes cs _ _ ht
      | ok r => rw [ht] at h; cases h
    · exact StopsWith.throw (.inr (.inr (.inl rfl)))

/-- `&s[start..stop]` stops only with a panic. -/
theorem stopsWith_slice (cs : List Char) (start stop : Nat) :
    StopsWith IsPanic (slice cs start stop) :=
  (stopsWith_sliceFrom cs start).bind fun rest _ => stopsWith_takeBytes rest _

/-- The bracket counter stops only with the overflow panic of `parenlev -= 1` at `0`. -/
theorem stopsWith_bracketLevel (parenlev : Nat) (initial : Char) :
    StopsWith IsPanic (bracketLevel parenlev initial) := by
  unfold bracketLevel
  split_ifs
  · exact StopsWith.pure _
  · exact StopsWith.throw (.inr (.inl rfl))
  · exact StopsWith.pure _
  · exact StopsWith.pure _

end Outcome

/-! ### The in-line scan -/

section Scan

variable {input line : List Char} {lineStart : Nat} {st : LexState}

/-- A pass with a token stops only with a panic: of `unwrap`, of the bracket counter, or of a slice.
-/
theorem scanToken_stops {token : List Char} {initial : Char} {tokStart tokEnd : Nat} :
    StopsWith IsPanic (scanToken input line lineStart st token initial tokStart tokEnd) := by
  intro s h
  unfold scanToken at h
  rcases ite_eq_iff.1 h with ⟨-, h⟩ | ⟨-, h⟩
  · cases h
  rcases ite_eq_iff.1 h with ⟨-, h⟩ | ⟨-, h⟩
  · cases h
  rcases ite_eq_iff.1 h with ⟨-, h⟩ | ⟨-, h⟩
  · cases h
  rcases ite_eq_iff.1 h with ⟨-, h⟩ | ⟨-, h⟩
  · dsimp only at h
    split at h <;> cases h
  rcases ite_eq_iff.1 h with ⟨-, h⟩ | ⟨-, h⟩
  · rcases ite_eq_iff.1 h with ⟨-, h⟩ | ⟨-, h⟩ <;> cases h
  rcases ite_eq_iff.1 h with ⟨-, h⟩ | ⟨-, h⟩
  · cases h
  rcases ite_eq_iff.1 h with ⟨-, h⟩ | ⟨-, h⟩
  · cases h
  · -- only the operator branch can stop: at `parenlev -= 1` or `try_from(token).unwrap()`
    exact ((stopsWith_bracketLevel _ _).bind fun _ _ =>
      (stopsWith_unwrap _).bind fun _ _ => StopsWith.pure _) s h

/-- A pass with a token ends no earlier than the token. -/
theorem scanToken_advances {token : List Char} {initial : Char} {tokStart tokEnd lp : Nat}
    {st' : LexState} (h : scanToken input line lineStart st token initial tokStart tokEnd =
      .ok (.next st' lp)) : tokEnd ≤ lp := by
  rcases scanToken_eq_ok h with ⟨_, -, h⟩ | ⟨-, ⟨e, he, h⟩ | h⟩ | ⟨-, -, ⟨-, h⟩ | ⟨-, h⟩⟩ | ⟨-, h⟩ |
    ⟨_, _, -, -, h⟩ <;> cases h
  -- only a triple-quoted string closed on the line moves past the token, to its closing quotes
  exacts [le_refl _, (Closing.find_bounds he).1, le_refl _, le_refl _, le_refl _, le_refl _]

/-- A pass of the scan stops only with a panic. -/
theorem scanStep_stops {linePos : Nat} :
    StopsWith IsPanic (scanStep input line lineStart st linePos) := by
  unfold scanStep
  refine (stopsWith_sliceFrom _ _).bind fun rest _ => ?_
  split
  · dsimp only
    split_ifs
    · exact StopsWith.pure _
    · rw [pure_bind]
      exact (stopsWith_slice _ _ _).bind fun _ _ => (stopsWith_sliceFrom _ _).bind fun _ _ =>
        (stopsWith_unwrap _).bind fun _ _ => scanToken_stops
  · exact StopsWith.pure _

/-- A pass of the scan inside the line moves `line_pos` on: to the end of a token, past
whitespace, or one byte on at an error token. -/
theorem scanStep_advances {linePos lp : Nat} {st' : LexState} (hlt : linePos < utf8Len line)
    (h : scanStep input line lineStart st linePos = .ok (.next st' lp)) : linePos < lp := by
  unfold scanStep at h
  obtain ⟨rest, hrest, h⟩ := bind_eq_ok.1 h
  obtain ⟨P, rfl, rfl⟩ := sliceFrom_eq_ok hrest
  split at h
  · rename_i a b hpt
    obtain ⟨ws, rest', n, hsplit, -, htok, rfl, rfl⟩ := pseudoToken_eq_some hpt
    -- the match reads a character: some whitespace, or a token of the nonempty text
    have hpos : 0 < utf8Len ws + utf8Len (rest'.take n) := by
      rcases ws with _ | ⟨w, ws⟩
      · obtain ⟨c, cs, rfl⟩ : ∃ c cs, rest' = c :: cs := by
          rcases rest' with _ | ⟨c, cs⟩
          · simp [hsplit] at hlt
          · exact ⟨c, cs, rfl⟩
        obtain ⟨k, rfl⟩ : ∃ k, n = k + 1 :=
          ⟨n - 1, (Nat.succ_pred_eq_of_pos (posMatch_token c cs n htok)).symm⟩
        have := Char.utf8Size_pos c
        simp only [List.take_succ_cons, utf8Len_cons]
        omega
      · have := Char.utf8Size_pos w
        simp only [utf8Len_cons]
        omega
    dsimp only at h
    split_ifs at h
    · cases h
      omega
    · rw [pure_bind] at h
      obtain ⟨_, -, h⟩ := bind_eq_ok.1 h
      obtain ⟨_, -, h⟩ := bind_eq_ok.1 h
      obtain ⟨_, -, h⟩ := bind_eq_ok.1 h
      have := scanToken_advances h
      omega
  · cases h
    omega

/-- With more passes left than bytes left on the line, the scan stops only with a panic: every pass
moves on, so the bound is never reached. -/
theorem scanLine_stops :
    ∀ {fuel : Nat} {st : LexState} {linePos : Nat}, utf8Len line - linePos < fuel →
      StopsWith IsPanic (scanLine input line lineStart fuel st linePos)
  | 0, _, _, hfuel => absurd hfuel (Nat.not_lt_zero _)
  | fuel + 1, st, linePos, hfuel => by
    unfold scanLine
    split_ifs with hlt
    · refine scanStep_stops.bind fun r hr => ?_
      cases r with
      | next st' lp =>
        have := scanStep_advances hlt hr
        exact scanLine_stops (by omega)
      | done st' => exact StopsWith.pure _
    · exact StopsWith.pure _

/-- The in-line scan `while line_pos < line_len` ends: every pass moves `line_pos` on, so a
bound of more passes than bytes left is never reached, and the scan stops only where Rust
panics. -/
theorem scanLine_terminates {fuel linePos : Nat} (hfuel : utf8Len line - linePos < fuel) :
    (∀ {lp : Nat} {st' : LexState}, linePos < utf8Len line →
      scanStep input line lineStart st linePos = .ok (.next st' lp) → linePos < lp) ∧
    ∀ s, scanLine input line lineStart fuel st linePos = .error s → IsPanic s :=
  ⟨fun hlt h => scanStep_advances hlt h, scanLine_stops hfuel⟩

/-- The scan of the line `x = 1`, with the bound the line loop gives it. -/
theorem scanLine_terminates_name :
    utf8Len "x = 1\n".toList - 0 < utf8Len "x = 1\n".toList + 1 ∧
    (∀ {lp : Nat} {st' : LexState}, 0 < utf8Len "x = 1\n".toList →
      scanStep "x = 1\n".toList "x = 1\n".toList 0 LexState.init 0 = .ok (.next st' lp) → 0 < lp) ∧
    ∀ s, scanLine "x = 1\n".toList "x = 1\n".toList 0 (utf8Len "x = 1\n".toList + 1)
      LexState.init 0 = .error s → IsPanic s :=
  have hfuel : utf8Len "x = 1\n".toList - 0 < utf8Len "x = 1\n".toList + 1 := by decide
  ⟨hfuel, scanLine_terminates hfuel⟩

end Scan

/-! ### The start of a line -/

section Line

variable {input line : List Char} {st : LexState} {column lineStart lineEnd restOff : Nat}

/-- The error of the unindent check. -/
def unindentError (offset : Nat) : LexStop :=
  .error ⟨"unindent does not match any outer indentation level", offset⟩

/-- The dedent loop stops only with the panic of `unwrap` on an empty stack. -/
theorem dedentLoop_stops :
    ∀ (indents : List Nat) (result : List Token),
      StopsWith IsPanic (dedentLoop input column restOff indents result)
  | [], _ => stopsWith_unwrap none
  | top :: rest, result => by
    rw [dedentLoop]
    split_ifs
    · exact dedentLoop_stops rest _
    · exact StopsWith.pure _

/-- The indentation step stops only with a panic or with the unindent error at the start of the
line's text. -/
theorem indentLine_stops :
    StopsWith (fun s => IsPanic s ∨ s = unindentError restOff)
      (indentLine input st column lineStart restOff) := by
  unfold indentLine
  refine ((stopsWith_unwrap _).mono fun _ => .inl).bind fun top _ => ?_
  dsimp only
  split_ifs
  · exact StopsWith.throw (.inr rfl)
  · rw [pure_bind]
    exact ((dedentLoop_stops _ _).mono fun _ => .inl).bind fun _ _ => StopsWith.pure _
  · exact StopsWith.throw (.inr rfl)
  · rw [pure_bind]
    exact ((dedentLoop_stops _ _).mono fun _ => .inl).bind fun _ _ => StopsWith.pure _

/-- The loop measuring leading whitespace stops at the first character that is not a space, a
tab or a form feed. -/
theorem measure_maximal (line : List Char) (column pos : Nat) :
    ∃ ws rest, line = ws ++ rest ∧ (∀ c ∈ ws, isWhitespace c) ∧
      (∀ c ∈ rest.head?, isWhitespace c = false) ∧
      (measure line column pos).2 = pos + utf8Len ws := by
  induction line generalizing column pos with
  | nil => exact ⟨[], [], rfl, by simp, by simp, by simp [measure]⟩
  | cons c cs ih =>
    have step : isWhitespace c → ∀ column', ∃ ws rest, c :: cs = ws ++ rest ∧
        (∀ d ∈ ws, isWhitespace d) ∧ (∀ d ∈ rest.head?, isWhitespace d = false) ∧
        (measure cs column' (pos + c.utf8Size)).2 = pos + utf8Len ws :=
      fun hc column' =>
        let ⟨ws, rest, h, hws, hhead, hlen⟩ := ih column' (pos + c.utf8Size)
        ⟨c :: ws, rest, by rw [h]; rfl, by simpa [hc] using hws, hhead,
          by simp [hlen, Nat.add_assoc]⟩
    simp only [measure]
    split_ifs with h1 h2 h3
    · exact step (by simp [isWhitespace, h1]) _
    · exact step (by simp [isWhitespace, h2]) _
    · exact step (by simp [isWhitespace, h3]) _
    · exact ⟨[], c :: cs, rfl, by simp, by simp [isWhitespace, h1, h2, h3], by simp⟩

/-- Where the unindent check of a line may fail: at the line's first character that is not a
space, a tab or a form feed, which is none of `#`, `\r` and `\n`. -/
def UnindentIn (line : List Char) (lineStart : Nat) (s : LexStop) : Prop :=
  ∃ ws c rest, line = ws ++ c :: rest ∧ (∀ x ∈ ws, isWhitespace x) ∧ isWhitespace c = false ∧
    c ≠ '#' ∧ c ≠ '\r' ∧ c ≠ '\n' ∧ s = unindentError (lineStart + utf8Len ws)

/-- The start of a logical line stops only with a panic or with the unindent error at the start of
its text. -/
theorem startLogicalLine_stops :
    StopsWith (fun s => IsPanic s ∨ UnindentIn line lineStart s)
      (startLogicalLine input st line lineStart lineEnd) := by
  obtain ⟨ws, rest, hl, hws, hhead, hpos⟩ := measure_maximal line 0 0
  unfold startLogicalLine
  rcases hm : measure line 0 0 with ⟨column, linePos⟩
  rw [hm, Nat.zero_add] at hpos
  subst hpos
  dsimp only
  split_ifs with hend
  · exact StopsWith.pure _
  obtain ⟨c, rest, rfl⟩ : ∃ c rest', rest = c :: rest' := by
    rcases rest with _ | ⟨c, rest⟩
    · simp [hl] at hend
    · exact ⟨c, rest, rfl⟩
  rw [pure_bind, hl, sliceFrom_append_utf8Len, ok_bind]
  simp only [List.head?_cons, unwrap, ok_bind]
  split_ifs with hc
  · -- a comment line
    exact (StopsWith.pure _).bind fun _ _ => StopsWith.pure _
  · -- a blank line
    exact (StopsWith.pure _).bind fun _ _ => StopsWith.pure _
  · -- a logical line: the unindent check, at the first character of its text
    simp only [Bool.or_eq_true, decide_eq_true_eq, not_or] at hc
    refine (indentLine_stops.mono fun s hs => hs.imp id fun hs => ?_).bind fun _ _ =>
      StopsWith.pure _
    exact ⟨ws, c, rest, rfl, hws, hhead c rfl, hc.1.1, hc.1.2, hc.2, hs⟩

/-- The top of the loop body stops only with a panic or with the unindent error at the start of the
line's text. -/
theorem startLine_stops :
    StopsWith (fun s => IsPanic s ∨ UnindentIn line lineStart s)
      (startLine input st line lineStart lineEnd) := by
  unfold startLine
  split
  · unfold continueString
    refine ((stopsWith_unwrap _).mono fun _ => .inl).bind fun _ _ => ?_
    split
    · exact StopsWith.pure _
    · split_ifs <;> exact StopsWith.pure _
  · split_ifs
    · exact startLogicalLine_stops
    · exact StopsWith.pure _

end Line

/-! ### The run -/

section Run

variable {input : List Char}

/-- Byte `off` of `input` is where the text of a line starts: after the line's leading spaces,
tabs and form feeds, at a character that is none of these, nor `#`, `\r` or `\n`. -/
def LineTextStart (input : List Char) (off : Nat) : Prop :=
  ∃ A ws c R, input = A ++ ws ++ c :: R ∧ (A = [] ∨ A.getLast? = some '\n') ∧
    (∀ x ∈ ws, isWhitespace x) ∧ isWhitespace c = false ∧ c ≠ '#' ∧ c ≠ '\r' ∧ c ≠ '\n' ∧
    off = utf8Len (A ++ ws)

/-- How the line loop may stop: a panic, or the unindent error at the start of a line's text. -/
def LoopStop (input : List Char) (s : LexStop) : Prop :=
  IsPanic s ∨ ∃ off, s = unindentError off ∧ LineTextStart input off

/-- A round of the line loop stops only with a panic, or with the unindent error at the start
of its line's text. -/
theorem round_stops {done l rest : List Char} {st : LexState} (hat : LineAt input done l rest) :
    RoundKeeps input (LoopStop input) (fun _ _ => True) done l st := by
  refine (startLine_stops.mono fun s hs => hs.imp id fun hs => ?_).endsIn fun r _ => ?_
  · obtain ⟨ws, c, rest', rfl, hws, hc, h1, h2, h3, rfl⟩ := hs
    exact ⟨_, rfl, done, ws, c, rest' ++ rest, by simp [hat.split], hat.start, hws, hc, h1, h2, h3,
      by simp⟩
  · cases r with
    | scan _ _ => exact ((scanLine_stops (by omega)).mono fun _ => .inl).endsIn fun _ _ => trivial
    | next _ => trivial
    | stop _ => trivial

/-- The line loop stops only with a panic or with the unindent error at the start of some line's
text; never for want of a bound. -/
theorem lineLoop_stops (input : List Char) :
    StopsWith (LoopStop input) (lineLoop input (linesWithEndings input) LexState.init []) :=
  (lineLoop_endsIn (P := fun _ _ => True) (fun hat _ => round_stops hat) (splitLines_lines input)
    (by simp) (.inl rfl) trivial).stopsWith

/-- The end of the source stops only with a panic or with one of the two errors at its end. -/
theorem finish_stops {st : LexState} {line : List Char} :
    StopsWith (fun s => IsPanic s ∨ s = .error ⟨"EOF in multi-line string", utf8Len input⟩ ∨
      s = .error ⟨"EOF in multi-line statement", utf8Len input⟩) (finish input st line) := by
  unfold finish
  split_ifs
  · exact StopsWith.throw (.inr (.inl rfl))
  · exact StopsWith.throw (.inr (.inr rfl))
  · refine StopsWith.bind ?_ fun _ _ => StopsWith.pure _
    unfold finalNewline
    split_ifs
    all_goals first
      | exact StopsWith.pure _
      | exact ((stopsWith_unwrap _).mono fun _ => .inl).bind fun _ _ => by
          split_ifs <;> exact StopsWith.pure _

end Run

/-- How a run of `tokenize` stops: with `EOF in multi-line string` or `EOF in multi-line
statement` at the end of the source, with the unindent error at the first character of a
line's text, or with a Rust panic. It never stops for want of a bound of the model. -/
theorem tokenize_stops (s : List Char) (stop : LexStop) (h : tokenize s = .error stop) :
    stop = .error ⟨"EOF in multi-line string", utf8Len s⟩ ∨
      stop = .error ⟨"EOF in multi-line statement", utf8Len s⟩ ∨
      (∃ off, stop = unindentError off ∧ LineTextStart s off) ∨ IsPanic stop := by
  have hrun := lineLoop_stops s
  have hall : StopsWith (fun x => x = .error ⟨"EOF in multi-line string", utf8Len s⟩ ∨
      x = .error ⟨"EOF in multi-line statement", utf8Len s⟩ ∨
      (∃ off, x = unindentError off ∧ LineTextStart s off) ∨ IsPanic x) (tokenize s) := by
    refine (hrun.mono fun x hx => ?_).bind fun ⟨st, line⟩ _ => finish_stops.mono fun x hx => ?_
    · rcases hx with hx | hx
      exacts [.inr (.inr (.inr hx)), .inr (.inr (.inl hx))]
    · rcases hx with hx | hx | hx
      exacts [.inr (.inr (.inr hx)), .inl hx, .inr (.inl hx)]
  exact hall stop h

/-- A line whose column is on no level of the stack stops the run with one of the stops that
`tokenize_stops` allows. -/
theorem tokenize_stops_unindent :
    ∃ stop, tokenize "if x:\n    y\n  z\n".toList = .error stop ∧
      (stop = .error ⟨"EOF in multi-line string", utf8Len "if x:\n    y\n  z\n".toList⟩ ∨
        stop = .error ⟨"EOF in multi-line statement", utf8Len "if x:\n    y\n  z\n".toList⟩ ∨
        (∃ off, stop = unindentError off ∧ LineTextStart "if x:\n    y\n  z\n".toList off) ∨
        IsPanic stop) :=
  ⟨_, rfl, tokenize_stops _ _ rfl⟩

end Lexer

end FeParser
