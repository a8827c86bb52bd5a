import FeParser.Lexer.Tokenize

/-!
# Two runs of the lexer side by side

The lexer reads its input only through the lines it is given, with their offsets, and
through `sourceText input` and `utf8Len input` when it makes a token or an error. So two
runs over the same lines, the second `d` bytes further on in a source with the same text
there, go step for step alike: every token of the second is the first's with its span moved
by `d`, every error offset is moved by `d`, and the rest of the state is the same but for the
start of an open string, moved too.

`Move` names the two runs (on `X` and on `Y`), the distance `d`, the offset `lo` of `Y` from
which the lines are read, and the tokens each run had before. `Moves d R x y` relates their
outcomes: related values, or the same stop with its offset moved. Each function of the lexer
keeps the relation (`scanStep_moves`, `startLine_moves`, ...), and so does a whole run
(`lineLoop_moves`, `finish_moves`).

## Main results

* `lineLoop_moves`: the run over lines moved by `d` is the run over the lines, moved.
* `finish_moves`: and so are the tokens after the last line.
-/

namespace FeParser

/-- A stop read `d` bytes further on: a `TokenizeError`'s offset moves; a panic and a spent
bound have none. -/
def LexStop.relocate (d : Nat) : LexStop → LexStop
  | .error e => .error ⟨e.msg, e.offset + d⟩
  | e => e

/-- A stop moved by no bytes is the same stop. -/
@[simp] theorem LexStop.relocate_zero (e : LexStop) : e.relocate 0 = e := by
  cases e <;> rfl

/-- A token read `d` bytes further on. -/
def Token.shift (d : Nat) (t : Token) : Token :=
  { t with span := ⟨t.span.start + d, t.span.end + d⟩ }

namespace Lexer

open Pattern

variable {α β γ δ : Type}

/-! ### Outcomes -/

section Outcome

variable {d : Nat}

/-- A computation of the lexer that stops, if it does, by a panic or a spent bound, never
with a `TokenizeError`: it has no offset to move. -/
def NeverErrs (x : Except LexStop α) : Prop := ∀ e, x ≠ .error (.error e)

/-- Two steps that never return a `TokenizeError` make a sequence that never does. -/
theorem NeverErrs.bind {x : Except LexStop α} {f : α → Except LexStop β} (hx : NeverErrs x)
    (hf : ∀ a, NeverErrs (f a)) : NeverErrs (x >>= f) := by
  cases x with
  | error e => exact fun e' h => hx e' (by cases h; rfl)
  | ok a => exact hf a

/-- `unwrap` fails, if at all, with a panic. -/
theorem neverErrs_unwrap (o : Option α) : NeverErrs (unwrap o) := by
  cases o <;> simp [NeverErrs, unwrap]

/-- `&s[pos..]` fails, if at all, with a panic. -/
theorem neverErrs_sliceFrom : ∀ (cs : List Char) (n : Nat), NeverErrs (sliceFrom cs n)
  | _, 0 => by simp [NeverErrs, sliceFrom]
  | [], _ + 1 => by simp [NeverErrs, sliceFrom]
  | c :: cs, n + 1 => by
    rw [sliceFrom]
    split_ifs
    · exact neverErrs_sliceFrom cs _
    · simp [NeverErrs]

/-- `&s[..n]` fails, if at all, with a panic. -/
theorem neverErrs_takeBytes : ∀ (cs : List Char) (n : Nat), NeverErrs (takeBytes cs n)
  | _, 0 => by simp [NeverErrs, takeBytes]
  | [], _ + 1 => by simp [NeverErrs, takeBytes]
  | c :: cs, n + 1 => by
    rw [takeBytes]
    split_ifs
    · intro e h
      rcases hx : takeBytes cs (n + 1 - c.utf8Size) with e' | a
      · rw [hx] at h
        cases h
        exact neverErrs_takeBytes cs _ e hx
      · rw [hx] at h
        cases h
    · simp [NeverErrs]

/-- The bracket counter fails, if at all, with the overflow panic. -/
theorem neverErrs_bracketLevel (parenlev : Nat) (initial : Char) :
    NeverErrs (bracketLevel parenlev initial) := by
  unfold bracketLevel
  split_ifs <;> simp [NeverErrs]

/-- `&s[start..stop]` fails, if at all, with a panic. -/
theorem neverErrs_slice (cs : List Char) (start stop : Nat) : NeverErrs (slice cs start stop) :=
  (neverErrs_sliceFrom cs start).bind fun rest => neverErrs_takeBytes rest _

/-- The outcome of the run on `X` is that of the run on `Y` read `d` bytes further on:
related values, or the same stop with its offset moved. -/
def Moves (d : Nat) (R : α → β → Prop) : Except LexStop α → Except LexStop β → Prop
  | .ok a, .ok b => R a b
  | .error e, .error e' => e = e'.relocate d
  | _, _ => False

variable {R : α → β → Prop} {S : γ → δ → Prop}

/-- Related values are related outcomes. -/
theorem Moves.pure {a : α} {b : β} (h : R a b) : Moves d R (pure a) (pure b) := h

/-- A stop of the run on `Y`, moved by `d`, is the stop of the run on `X`. -/
theorem Moves.throw (e : LexStop) : Moves d R (.error (e.relocate d)) (.error e) := rfl

/-- Related outcomes, followed by steps that take related values to related outcomes, give related
outcomes: the sequencing rule by which each function of the lexer is shown to keep the relation. -/
theorem Moves.bind {x : Except LexStop α} {y : Except LexStop β} {f : α → Except LexStop γ}
    {g : β → Except LexStop δ} (h : Moves d R x y) (hf : ∀ a b, R a b → Moves d S (f a) (g b)) :
    Moves d S (x >>= f) (y >>= g) := by
  cases x with
  | error e => cases y with
    | error e' => exact h
    | ok b => exact h.elim
  | ok a => cases y with
    | error e' => exact h.elim
    | ok b => exact hf a b h

/-- A weaker relation on the values relates the same outcomes. -/
theorem Moves.mono {R' : α → β → Prop} {x : Except LexStop α} {y : Except LexStop β}
    (h : Moves d R x y) (hR : ∀ a b, R a b → R' a b) : Moves d R' x y := by
  cases x <;> cases y
  exacts [h, h.elim, h.elim, hR _ _ h]

/-- Both runs take the same branch. -/
theorem Moves.ite {c : Prop} [Decidable c] {x x' : Except LexStop α} {y y' : Except LexStop β}
    (h : c → Moves d R x y) (h' : ¬c → Moves d R x' y') :
    Moves d R (if c then x else x') (if c then y else y') := by
  split_ifs with hc
  exacts [h hc, h' hc]

/-- Both runs make the same computation, which has no offset to move. -/
theorem Moves.bind_same {x : Except LexStop α} {f : α → Except LexStop γ}
    {g : α → Except LexStop δ} (hx : NeverErrs x) (hf : ∀ a, Moves d S (f a) (g a)) :
    Moves d S (x >>= f) (x >>= g) := by
  cases x with
  | error e => cases e with
    | error e => exact absurd rfl (hx e)
    | panic => exact rfl
    | outOfFuel => exact rfl
  | ok a => exact hf a

/-- One run succeeds exactly when the other does. -/
theorem Moves.ok_iff {x : Except LexStop α} {y : Except LexStop β} (h : Moves d R x y) :
    (∃ a, x = .ok a) ↔ ∃ b, y = .ok b := by
  cases x <;> cases y
  exacts [iff_of_false (by simp) (by simp), h.elim, h.elim, iff_of_true ⟨_, rfl⟩ ⟨_, rfl⟩]

/-- A stop of the run on `Y` is, moved by `d`, the stop of the run on `X`. -/
theorem Moves.of_error {x : Except LexStop α} {y : Except LexStop β} {e : LexStop}
    (h : Moves d R x y) (hy : y = .error e) : x = .error (e.relocate d) := by
  subst hy
  cases x with
  | error e' => exact congrArg _ h
  | ok a => exact h.elim

/-- A success of the run on `Y` comes with a success of the run on `X` related to it. -/
theorem Moves.of_ok {x : Except LexStop α} {y : Except LexStop β} {b : β} (h : Moves d R x y)
    (hy : y = .ok b) : ∃ a, x = .ok a ∧ R a b := by
  subst hy
  cases x with
  | error e => exact h.elim
  | ok a => exact ⟨a, rfl, h⟩

end Outcome

/-! ### Tokens and states -/

/-- Two runs of the lexer side by side: the run on `X` reads, `d` bytes further on, what the
run on `Y` reads from byte `lo` on, after tokens `preX` and `preY` of its own. -/
structure Move where
  X : List Char
  Y : List Char
  d : Nat
  lo : Nat
  preX : List Token
  preY : List Token

/-- `st` with the tokens `result`, and the start of an open string `d` bytes further on. -/
def LexState.moveTo (st : LexState) (d : Nat) (result : List Token) : LexState :=
  { st with result, contstrStart := st.contstrStart.map (· + d) }

namespace LexState

variable (st : LexState) (d : Nat) (r : List Token)

/-- Moving a state replaces its tokens. -/
@[simp] theorem moveTo_result : (st.moveTo d r).result = r := rfl

/-- Moving a state keeps its bracket counter. -/
@[simp] theorem moveTo_parenlev : (st.moveTo d r).parenlev = st.parenlev := rfl

/-- Moving a state keeps its backslash flag. -/
@[simp] theorem moveTo_continued : (st.moveTo d r).continued = st.continued := rfl

/-- Moving a state keeps its indentation stack. -/
@[simp] theorem moveTo_indents : (st.moveTo d r).indents = st.indents := rfl

/-- Moving a state moves the start of an open string. -/
@[simp] theorem moveTo_contstrStart :
    (st.moveTo d r).contstrStart = st.contstrStart.map (· + d) := rfl

/-- Moving a state keeps the closing pattern of an open string. -/
@[simp] theorem moveTo_contstrEndRe : (st.moveTo d r).contstrEndRe = st.contstrEndRe := rfl

/-- Moving a state keeps `needcont`. -/
@[simp] theorem moveTo_needcont : (st.moveTo d r).needcont = st.needcont := rfl

/-- With no string open, moving a state only replaces its tokens. -/
theorem moveTo_of_none (h : st.contstrStart = none) : st.moveTo d r = { st with result := r } := by
  rw [moveTo, h]
  rfl

/-- A state moved by no bytes, with its own tokens, is itself. -/
theorem moveTo_self : st.moveTo 0 st.result = st := by
  cases st
  simp [moveTo]

end LexState

namespace Move

variable (m : Move)

/-- `t'` of the run on `X` is `t` of the run on `Y` moved: the same kind, the span `d` bytes
further on, and each string the source under its span; `t` starts from `lo` on. -/
def RelToken (t' t : Token) : Prop :=
  m.lo ≤ t.span.start ∧ t.string = sourceText m.Y t.span.start t.span.end ∧
    t' = ⟨t.kind, sourceText m.X (t.span.start + m.d) (t.span.end + m.d),
      ⟨t.span.start + m.d, t.span.end + m.d⟩⟩

/-- The tokens of the two runs: their own tokens from before, then related tokens. -/
def RelResult (rx ry : List Token) : Prop :=
  ∃ tx ty, rx = m.preX ++ tx ∧ ry = m.preY ++ ty ∧ List.Forall₂ m.RelToken tx ty

/-- The states of the two runs: the same but for the tokens, which are related, and the start
of an open string, moved (and from `lo` on). -/
def RelState (sx sy : LexState) : Prop :=
  ∃ res, sx = sy.moveTo m.d res ∧ m.RelResult res sy.result ∧ ∀ c ∈ sy.contstrStart, m.lo ≤ c

/-- What the start of a line decides, in the two runs: the same decision, related states. -/
inductive RelLine : LineStart → LineStart → Prop
  | scan {sx sy : LexState} (linePos : Nat) : m.RelState sx sy →
      RelLine (.scan sx linePos) (.scan sy linePos)
  | next {sx sy : LexState} : m.RelState sx sy → RelLine (.next sx) (.next sy)
  | stop {sx sy : LexState} : m.RelState sx sy → RelLine (.stop sx) (.stop sy)

/-- What a pass of the scan leads to, in the two runs: the same, from related states. -/
inductive RelStep : ScanStep → ScanStep → Prop
  | next {sx sy : LexState} (linePos : Nat) : m.RelState sx sy →
      RelStep (.next sx linePos) (.next sy linePos)
  | done {sx sy : LexState} : m.RelState sx sy → RelStep (.done sx) (.done sy)

variable {m}

/-- Pushing one token of the same kind at related offsets keeps the tokens related. -/
theorem RelResult.push {rx ry : List Token} (h : m.RelResult rx ry) (k : TokenKind)
    {s e sX eX : Nat} (hs : m.lo ≤ s) (hsX : sX = s + m.d) (heX : eX = e + m.d) :
    m.RelResult (rx ++ [⟨k, sourceText m.X sX eX, ⟨sX, eX⟩⟩]) (ry ++ [⟨k, sourceText m.Y s e, ⟨s, e⟩⟩]) := by
  obtain ⟨tx, ty, rfl, rfl, hf⟩ := h
  subst hsX heX
  exact ⟨_, _, List.append_assoc _ _ _, List.append_assoc _ _ _,
    List.rel_append hf (.cons ⟨hs, rfl, rfl⟩ .nil)⟩

/-- A string opens at related offsets. -/
theorem RelState.openAt {sx sy : LexState} (h : m.RelState sx sy) {c cX : Nat} (hc : m.lo ≤ c)
    (hcX : cX = c + m.d) :
    m.RelState { sx with contstrStart := some cX } { sy with contstrStart := some c } := by
  obtain ⟨res, rfl, hres, -⟩ := h
  subst hcX
  exact ⟨res, rfl, hres, by rintro _ ⟨⟩; exact hc⟩

/-- Related tokens that each satisfy `P` are images under `f`. -/
theorem map_of_relTokens {f : Token → Token} {P : Token → Prop}
    (hf : ∀ t' t, m.RelToken t' t → P t → t' = f t) :
    ∀ {tx ty : List Token}, List.Forall₂ m.RelToken tx ty → (∀ t ∈ ty, P t) → tx = ty.map f
  | _, _, .nil, _ => rfl
  | _, _, .cons h hs, hP => by
    rw [List.forall_mem_cons] at hP
    rw [List.map_cons, hf _ _ h hP.1, map_of_relTokens hf hs hP.2]

/-- Every token of the run on `Y` that has a related token starts from `lo` on. -/
theorem relTokens_lo_le : ∀ {tx ty : List Token}, List.Forall₂ m.RelToken tx ty →
    ∀ t ∈ ty, m.lo ≤ t.span.start
  | _, _, .nil => fun _ h => nomatch h
  | _, _, .cons h hs => List.forall_mem_cons.2 ⟨h.1, relTokens_lo_le hs⟩

/-- Related states have related tokens. -/
theorem RelState.result {sx sy : LexState} (h : m.RelState sx sy) :
    m.RelResult sx.result sy.result := by
  obtain ⟨res, rfl, hres, -⟩ := h
  exact hres

/-- Pushing one token of the same kind at related offsets keeps the states related. -/
theorem RelState.push {sx sy : LexState} (h : m.RelState sx sy) (k : TokenKind)
    {s e sX eX : Nat} (hs : m.lo ≤ s) (hsX : sX = s + m.d) (heX : eX = e + m.d) :
    m.RelState (sx.push m.X k sX eX) (sy.push m.Y k s e) := by
  obtain ⟨res, rfl, hres, hlo⟩ := h
  exact ⟨_, rfl, hres.push k hs hsX heX, hlo⟩

end Move

/-! ### The start of a line -/

section Line

variable {m : Move}

/-- The dedent loop at offsets moved by `d` pops the same levels and pushes the same `Dedent`
tokens, moved. -/
theorem dedentLoop_moves {column roX ro : Nat} (hro : roX = ro + m.d) (hlo : m.lo ≤ ro) :
    ∀ (indents : List Nat) {rx ry : List Token}, m.RelResult rx ry →
      Moves m.d (fun a b => a.1 = b.1 ∧ m.RelResult a.2 b.2)
        (dedentLoop m.X column roX indents rx) (dedentLoop m.Y column ro indents ry)
  | [], _, _, _ => rfl
  | top :: rest, rx, ry, h => by
    simp only [dedentLoop]
    split_ifs
    · exact dedentLoop_moves hro hlo rest (h.push _ hlo hro hro)
    · exact ⟨rfl, h⟩

/-- The indentation step at offsets moved by `d` makes the same decision, from related states to
related states, and fails with its error offset moved. -/
theorem indentLine_moves {sx sy : LexState} (h : m.RelState sx sy) {column lsX ls roX ro : Nat}
    (hls : lsX = ls + m.d) (hro : roX = ro + m.d) (hlo : m.lo ≤ ls) (hlr : ls ≤ ro) :
    Moves m.d m.RelState (indentLine m.X sx column lsX roX) (indentLine m.Y sy column ls ro) := by
  obtain ⟨res, rfl, hres, hc⟩ := h
  subst hls hro
  unfold indentLine
  refine Moves.bind_same (neverErrs_unwrap sy.indents.head?) fun top => ?_
  have tail : ∀ a b : List Nat × List Token, a.1 = b.1 ∧ m.RelResult a.2 b.2 →
      m.RelState { sy with result := a.2, indents := a.1, contstrStart := sy.contstrStart.map (· + m.d) }
        { sy with result := b.2, indents := b.1 } := by
    rintro ⟨is, rs⟩ ⟨is', rs'⟩ ⟨rfl, hr⟩
    exact ⟨rs, rfl, hr, hc⟩
  by_cases hcol : column > top
  · -- a deeper line: an `Indent`, then the dedent loop from the new level
    simp only [hcol, ↓reduceIte, LexState.push, LexState.moveTo, pure_bind]
    split_ifs
    · exact Moves.throw (.error ⟨_, ro⟩)
    · exact Moves.bind (dedentLoop_moves rfl (hlo.trans hlr) _ (hres.push .indent hlo rfl rfl))
        fun a b h => Moves.pure (tail a b h)
  · simp only [hcol, ↓reduceIte, LexState.moveTo, pure_bind]
    split_ifs
    · exact Moves.throw (.error ⟨_, ro⟩)
    · exact Moves.bind (dedentLoop_moves rfl (hlo.trans hlr) _ hres) fun a b h => Moves.pure (tail a b h)

/-- A line that continues an open string is read alike at offsets moved by `d`. -/
theorem continueString_moves {sx sy : LexState} (h : m.RelState sx sy) {line : List Char}
    {cX c lsX ls leX le : Nat} (hc : m.lo ≤ c) (hcX : cX = c + m.d) (hls : lsX = ls + m.d)
    (hle : leX = le + m.d) :
    Moves m.d m.RelLine (continueString m.X sx cX line lsX leX)
      (continueString m.Y sy c line ls le) := by
  obtain ⟨res, rfl, hres, hc'⟩ := h
  subst hcX hls hle
  unfold continueString
  refine Moves.bind_same (neverErrs_unwrap sy.contstrEndRe) fun endRe => ?_
  cases endRe.find line 0 with
  | some tokEnd =>
    -- the line closes the string
    exact Moves.pure (.scan tokEnd ⟨_, rfl, hres.push .str hc rfl (Nat.add_right_comm _ _ _),
      fun _ h => nomatch h⟩)
  | none =>
    dsimp only [LexState.moveTo]
    split_ifs
    · exact Moves.pure (.next ⟨_, rfl, hres.push .errorToken hc rfl rfl, fun _ h => nomatch h⟩)
    · exact Moves.pure (.next ⟨res, rfl, hres, hc'⟩)

/-- The start of a logical line is read alike at offsets moved by `d`. -/
theorem startLogicalLine_moves {sx sy : LexState} (h : m.RelState sx sy) {line : List Char}
    {lsX ls leX le : Nat} (hls : lsX = ls + m.d) (hle : leX = le + m.d) (hlo : m.lo ≤ ls) :
    Moves m.d m.RelLine (startLogicalLine m.X sx line lsX leX)
      (startLogicalLine m.Y sy line ls le) := by
  subst hls hle
  unfold startLogicalLine
  rcases measure line 0 0 with ⟨column, linePos⟩
  dsimp only
  split_ifs
  · exact Moves.pure (.stop h)
  simp only [pure_bind]
  refine Moves.bind_same (neverErrs_sliceFrom line linePos) fun rest => ?_
  refine Moves.bind_same (neverErrs_unwrap rest.head?) fun c => ?_
  split_ifs
  · -- a comment line
    refine Moves.bind_same (neverErrs_sliceFrom line linePos) fun rest' => ?_
    exact Moves.pure (.next (((h.push .comment (by omega) (Nat.add_right_comm _ _ _)
      (by omega)).push .whitespaceNewline (by omega) (by omega) rfl)))
  · -- a blank line
    exact Moves.pure (.next (h.push .whitespaceNewline (by omega) (by omega) rfl))
  · -- a logical line: its indentation
    exact Moves.bind (indentLine_moves h rfl (Nat.add_right_comm _ _ _) hlo (Nat.le_add_right _ _))
      fun _ _ h' => Moves.pure (.scan linePos h')

/-- The top of the loop body is read alike at offsets moved by `d`: the same decision, related
states. -/
theorem startLine_moves {sx sy : LexState} (h : m.RelState sx sy) {line : List Char}
    {lsX ls leX le : Nat} (hls : lsX = ls + m.d) (hle : leX = le + m.d) (hlo : m.lo ≤ ls) :
    Moves m.d m.RelLine (startLine m.X sx line lsX leX) (startLine m.Y sy line ls le) := by
  obtain ⟨res, rfl, hres, hc⟩ := h
  unfold startLine
  cases hcs : sy.contstrStart with
  | some c =>
    -- inside a string
    simp only [LexState.moveTo_contstrStart, hcs, Option.map_some']
    exact continueString_moves ⟨res, rfl, hres, hc⟩ (hc c hcs) rfl hls hle
  | none =>
    simp only [LexState.moveTo_contstrStart, LexState.moveTo_parenlev,
      LexState.moveTo_continued, hcs, Option.map_none']
    split_ifs
    · exact startLogicalLine_moves ⟨res, rfl, hres, hc⟩ hls hle hlo
    · exact Moves.pure (.scan 0 ⟨res, rfl, hres, fun _ h => nomatch h⟩)

end Line

/-! ### The in-line scan -/

section Scan

variable {m : Move} {line : List Char} {lsX ls : Nat}

/-- A pass with a token is read alike at offsets moved by `d`. -/
theorem scanToken_moves {sx sy : LexState} (h : m.RelState sx sy) {token : List Char}
    {initial : Char} {tokStart tokEnd : Nat} (hls : lsX = ls + m.d) (hlo : m.lo ≤ ls) :
    Moves m.d m.RelStep (scanToken m.X line lsX sx token initial tokStart tokEnd)
      (scanToken m.Y line ls sy token initial tokStart tokEnd) := by
  obtain ⟨res, rfl, hres, hc⟩ := h
  have h : m.RelState (sy.moveTo m.d res) sy := ⟨res, rfl, hres, hc⟩
  have hs : m.lo ≤ ls + tokStart := Nat.le_add_right_of_le hlo
  have hsX : lsX + tokStart = ls + tokStart + m.d := by omega
  have heX : lsX + tokEnd = ls + tokEnd + m.d := by omega
  unfold scanToken
  refine Moves.ite (fun _ => ?_) fun _ => Moves.ite (fun _ => ?_) fun _ => Moves.ite (fun _ => ?_)
    fun _ => Moves.ite (fun _ => ?_) fun _ => Moves.ite (fun _ => ?_) fun _ =>
      Moves.ite (fun _ => ?_) fun _ => Moves.ite (fun _ => ?_) fun _ => ?_
  · -- a number
    exact Moves.pure (.next tokEnd (h.push .num hs hsX heX))
  · -- a line terminator
    exact Moves.pure (.next tokEnd (h.push _ hs hsX heX))
  · -- a comment
    exact Moves.pure (.next tokEnd (h.push .comment hs hsX heX))
  · -- a triple-quoted string, closed on the line or not
    have h' : m.RelState { sy.moveTo m.d res with contstrEndRe := some (closingOf token) }
        { sy with contstrEndRe := some (closingOf token) } := ⟨res, rfl, hres, hc⟩
    dsimp only
    cases (closingOf token).find line tokEnd with
    | some e => exact Moves.pure (.next e (h'.push .str hs hsX (by omega)))
    | none => exact Moves.pure (.done (h'.openAt hs hsX))
  · refine Moves.ite (fun _ => ?_) fun _ => ?_
    · -- a single-quoted string continued by a backslash
      have h' : m.RelState
          { sy.moveTo m.d res with contstrEndRe := some (closingOf token), needcont := true }
          { sy with contstrEndRe := some (closingOf token), needcont := true } :=
        ⟨res, rfl, hres, hc⟩
      exact Moves.pure (.next tokEnd (h'.openAt hs hsX))
    · -- a single-quoted string
      exact Moves.pure (.next tokEnd (h.push .str hs hsX heX))
  · -- an identifier
    exact Moves.pure (.next tokEnd (h.push _ hs hsX heX))
  · -- a backslash line continuation
    exact Moves.pure (.next tokEnd ⟨res, rfl, hres, hc⟩)
  · -- an operator or a bracket
    refine Moves.bind_same (neverErrs_bracketLevel _ _) fun parenlev => ?_
    refine Moves.bind_same (neverErrs_unwrap _) fun kind => ?_
    exact Moves.pure (.next tokEnd ((show m.RelState { sy.moveTo m.d res with parenlev }
      { sy with parenlev } from ⟨res, rfl, hres, hc⟩).push kind hs hsX heX))

/-- One pass of the scan is read alike at offsets moved by `d`. -/
theorem scanStep_moves {sx sy : LexState} (h : m.RelState sx sy) {linePos : Nat}
    (hls : lsX = ls + m.d) (hlo : m.lo ≤ ls) :
    Moves m.d m.RelStep (scanStep m.X line lsX sx linePos) (scanStep m.Y line ls sy linePos) := by
  unfold scanStep
  refine Moves.bind_same (neverErrs_sliceFrom line linePos) fun rest => ?_
  cases pseudoToken rest with
  | some cap =>
    dsimp only
    split_ifs
    · exact Moves.pure (.next _ h)
    simp only [pure_bind]
    refine Moves.bind_same (neverErrs_slice _ _ _) fun token => ?_
    refine Moves.bind_same (neverErrs_sliceFrom _ _) fun rest' => ?_
    refine Moves.bind_same (neverErrs_unwrap _) fun initial => ?_
    exact scanToken_moves h hls hlo
  | none =>
    -- no token: a one-byte error token
    exact Moves.pure (.next _ (h.push .errorToken (Nat.le_add_right_of_le hlo) (by omega) (by omega)))

/-- The scan of a line, with the same bound, is read alike at offsets moved by `d`. -/
theorem scanLine_moves (hls : lsX = ls + m.d) (hlo : m.lo ≤ ls) :
    ∀ (fuel : Nat) {sx sy : LexState} (linePos : Nat), m.RelState sx sy →
      Moves m.d m.RelState (scanLine m.X line lsX fuel sx linePos)
        (scanLine m.Y line ls fuel sy linePos)
  | 0, _, _, _, _ => rfl
  | fuel + 1, _, _, linePos, h => by
    unfold scanLine
    split_ifs
    · refine Moves.bind (scanStep_moves h hls hlo) fun _ _ hr => ?_
      cases hr with
      | next linePos' h' => exact scanLine_moves hls hlo fuel linePos' h'
      | done h' => exact Moves.pure h'
    · exact Moves.pure h

end Scan

/-! ### The run -/

section Run

variable {m : Move}

/-- A line of the source with its offsets, `d` bytes further on. -/
def lineShift (d : Nat) (x : List Char × Nat × Nat) : List Char × Nat × Nat :=
  (x.1, x.2.1 + d, x.2.2 + d)

/-- Lines moved by no bytes are the same lines. -/
@[simp] theorem lineShift_zero : lineShift 0 = id := rfl

/-- The line loop over the lines moved by `d` is the loop over the lines, moved; the last
line read is the same, unless there was none. -/
theorem lineLoop_moves : ∀ (lines : List (List Char × Nat × Nat)) {sx sy : LexState}
    (lx ly : List Char), m.RelState sx sy → (∀ x ∈ lines, m.lo ≤ x.2.1) →
    Moves m.d (fun a b => m.RelState a.1 b.1 ∧ (a.2 = b.2 ∨ a.2 = lx ∧ b.2 = ly))
      (lineLoop m.X (lines.map (lineShift m.d)) sx lx) (lineLoop m.Y lines sy ly)
  | [], _, _, _, _, h, _ => Moves.pure ⟨h, .inr ⟨rfl, rfl⟩⟩
  | (line, ls, le) :: lines, _, _, _, _, h, hlo => by
    have hls : m.lo ≤ ls := hlo _ (List.mem_cons_self _ _)
    have rest : ∀ {sx sy : LexState}, m.RelState sx sy →
        Moves m.d (fun a b => m.RelState a.1 b.1 ∧ (a.2 = b.2 ∨ a.2 = line ∧ b.2 = line))
          (lineLoop m.X (lines.map (lineShift m.d)) sx line) (lineLoop m.Y lines sy line) :=
      fun h => lineLoop_moves lines line line h fun x hx => hlo x (List.mem_cons_of_mem _ hx)
    simp only [List.map_cons, lineShift, lineLoop]
    refine Moves.bind (startLine_moves h rfl rfl hls) fun _ _ hr => ?_
    cases hr with
    | stop h' => exact Moves.pure ⟨h', .inl rfl⟩
    | next h' => exact (rest h').mono fun _ _ ⟨h, he⟩ => ⟨h, .inl (he.elim id fun e => e.1.trans e.2.symm)⟩
    | scan linePos h' =>
      exact Moves.bind (scanLine_moves rfl hls _ linePos h') fun _ _ h'' =>
        (rest h'').mono fun _ _ ⟨h, he⟩ => ⟨h, .inl (he.elim id fun e => e.1.trans e.2.symm)⟩

/-- A last line that is empty or ends with its terminator needs no `Newline` at the end. -/
theorem finalNewline_of_newline {input line : List Char} {st : LexState}
    (hl : line = [] ∨ line.getLast? = some '\n') : finalNewline input st line = pure st := by
  unfold finalNewline
  rcases hl with rfl | hl
  · rfl
  · have hne : line ≠ [] := by
      rintro rfl
      cases hl
    simp [hne, hl, unwrap]

/-- The `Newline` for a last line without a terminator is made alike at the end of two sources whose
lengths differ by `d`, when both runs read the same last line or both last lines end with a
terminator. -/
theorem finalNewline_moves {sx sy : LexState} (h : m.RelState sx sy) {lx ly : List Char}
    (hlen : utf8Len m.X = utf8Len m.Y + m.d) (hlo : m.lo ≤ utf8Len m.Y)
    (hl : lx = ly ∨ (lx = [] ∨ lx.getLast? = some '\n') ∧ (ly = [] ∨ ly.getLast? = some '\n')) :
    Moves m.d m.RelState (finalNewline m.X sx lx) (finalNewline m.Y sy ly) := by
  rcases hl with rfl | ⟨hx, hy⟩
  · unfold finalNewline
    by_cases hne : lx ≠ []
    · rw [if_pos hne, if_pos hne]
      refine Moves.bind_same (neverErrs_unwrap _) fun c => ?_
      split_ifs
      · -- a last line of whitespace
        exact Moves.pure (h.push _ hlo hlen hlen)
      · exact Moves.pure (h.push _ hlo hlen hlen)
      · exact Moves.pure h
    · rw [if_neg hne, if_neg hne]
      exact Moves.pure h
  · rw [finalNewline_of_newline hx, finalNewline_of_newline hy]
    exact Moves.pure h

/-- The `Dedent`s at the end of the source. -/
theorem RelState.foldl_push {k : TokenKind} {s sX : Nat} (hs : m.lo ≤ s) (hsX : sX = s + m.d) :
    ∀ (l : List Nat) {sx sy : LexState}, m.RelState sx sy →
      m.RelState (l.foldl (fun st _ => st.push m.X k sX sX) sx)
        (l.foldl (fun st _ => st.push m.Y k s s) sy)
  | [], _, _, h => h
  | _ :: l, _, _, h => RelState.foldl_push hs hsX l (h.push k hs hsX hsX)

/-- The tokens after the last line are those of the run on `Y`, moved. -/
theorem finish_moves {sx sy : LexState} (h : m.RelState sx sy) {lx ly : List Char}
    (hlen : utf8Len m.X = utf8Len m.Y + m.d) (hlo : m.lo ≤ utf8Len m.Y)
    (hl : lx = ly ∨ (lx = [] ∨ lx.getLast? = some '\n') ∧ (ly = [] ∨ ly.getLast? = some '\n')) :
    Moves m.d m.RelResult (finish m.X sx lx) (finish m.Y sy ly) := by
  obtain ⟨res, rfl, hres, hc⟩ := h
  unfold finish
  simp only [eofDedents, LexState.moveTo_contstrStart, Option.isSome_map', LexState.moveTo_continued,
    hlen]
  split_ifs
  · exact Moves.throw (.error ⟨_, utf8Len m.Y⟩)
  · exact Moves.throw (.error ⟨_, utf8Len m.Y⟩)
  · refine Moves.bind (finalNewline_moves ⟨res, rfl, hres, hc⟩ hlen hlo hl) fun _ _ h' => ?_
    obtain ⟨res', rfl, hres', hc'⟩ := h'
    simp only [LexState.moveTo_indents]
    exact Moves.pure ((RelState.foldl_push hlo rfl _ ⟨res', rfl, hres', hc'⟩).push _ hlo rfl
      rfl).result

end Run

end Lexer

end FeParser
