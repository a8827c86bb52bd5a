import FeParser.Lexer.Pattern

/-!
# `tokenize`

`tokenizer/tokenize.rs`: the source is read line by line (`linesWithEndings`). A line starts
in one of three ways (`startLine`): inside a multi-line string, which it may close; at the
start of a logical line, where its indentation is measured against the `indents` stack; or
inside brackets or after a backslash, where it is scanned from its first byte. The scan
(`scanLine`) then matches the pseudo-token pattern again and again from `line_pos`, and acts
on the first character of each token. After the last line, `tokenize` checks for an open
string or a dangling backslash, adds a `Newline` for a last line without a terminator, one
`Dedent` per open indentation level, and the `EndMarker`.

The state that survives from one line to the next is `LexState`. Rust's `indents` vector is
kept top first. `parenlev` is a `usize`: `parenlev -= 1` at `0` panics, as a debug build
does. Slices off a character boundary and failed `unwrap`s panic as in Rust (`LexStop`).
The scan of a line is bounded by the line's length in bytes plus one, which it never
reaches: each pass moves `line_pos` on by at least one byte or stops.

## Main definitions

* `tokenize`: the token stream of a source, or how the run stops instead.
* `getParseTokens`: the stream without `Comment` and `WhitespaceNewline` tokens.
-/

namespace FeParser

namespace Lexer

open Pattern

/-- `TABSIZE`. -/
def tabsize : Nat := 8

/-- `is_identifier_char`: `_`, an ASCII letter or an ASCII digit. -/
def isIdentifierChar (c : Char) : Bool := c = '_' || c.isAlpha || c.isDigit

/-- Rust's `char::is_whitespace`: the Unicode `White_Space` characters, which `str::trim`
strips. -/
def isRustWhitespace (c : Char) : Bool :=
  c = ' ' || ('\t' ≤ c && c ≤ '\r') || c.toNat = 0x85 || c.toNat = 0xA0 || c.toNat = 0x1680 ||
    (0x2000 ≤ c.toNat && c.toNat ≤ 0x200A) || c.toNat = 0x2028 || c.toNat = 0x2029 ||
    c.toNat = 0x202F || c.toNat = 0x205F || c.toNat = 0x3000

/-- `Option::unwrap`. -/
def unwrap {α : Type} : Option α → Except LexStop α
  | some a => .ok a
  | none => .error (.panic "called `Option::unwrap()` on a `None` value")

/-- `unwrap` succeeds exactly on `Some`, with its value. -/
theorem unwrap_eq_ok {α : Type} {o : Option α} {a : α} : unwrap o = .ok a ↔ o = some a := by
  cases o <;> simp [unwrap]

/-- The state `tokenize` carries from one line to the next. -/
structure LexState where
  result : List Token
  parenlev : Nat
  continued : Bool
  /-- The indentation stack, top first. -/
  indents : List Nat
  contstrStart : Option Nat
  contstrEndRe : Option Closing
  needcont : Bool

/-- The state before the first line. -/
def LexState.init : LexState := ⟨[], 0, false, [0], none, none, false⟩

/-- `result.push(Token { kind, span: Span::new(start, stop) })`; the token's text is the
source under its span. -/
def LexState.push (input : List Char) (st : LexState) (kind : TokenKind) (start stop : Nat) :
    LexState :=
  { st with result := st.result ++ [⟨kind, sourceText input start stop, ⟨start, stop⟩⟩] }

/-! ### The start of a line -/

/-- The loop measuring leading whitespace: the column reached and the bytes read. -/
def measure : List Char → Nat → Nat → Nat × Nat
  | c :: cs, column, pos =>
    if c = ' ' then measure cs (column + 1) (pos + c.utf8Size)
    else if c = '\t' then measure cs ((column / tabsize + 1) * tabsize) (pos + c.utf8Size)
    else if c = '\x0c' then measure cs 0 (pos + c.utf8Size)
    else (column, pos)
  | [], column, pos => (column, pos)

/-- The loop reads a run of whitespace, and counts its bytes from `pos` on. -/
theorem measure_spec (line : List Char) (column pos : Nat) :
    ∃ ws rest, line = ws ++ rest ∧ (∀ c ∈ ws, isWhitespace c) ∧
      (measure line column pos).2 = pos + utf8Len ws := by
  induction line generalizing column pos with
  | nil => exact ⟨[], [], rfl, by simp, by simp [measure]⟩
  | cons c cs ih =>
    have step : isWhitespace c → ∀ column', ∃ ws rest, c :: cs = ws ++ rest ∧
        (∀ d ∈ ws, isWhitespace d) ∧ (measure cs column' (pos + c.utf8Size)).2 = pos + utf8Len ws :=
      fun hc column' =>
        let ⟨ws, rest, h, hws, hlen⟩ := ih column' (pos + c.utf8Size)
        ⟨c :: ws, rest, by rw [h]; rfl, by simpa [hc] using hws, by simp [hlen, Nat.add_assoc]⟩
    simp only [measure]
    split_ifs with h1 h2 h3
    · exact step (by simp [isWhitespace, h1]) _
    · exact step (by simp [isWhitespace, h2]) _
    · exact step (by simp [isWhitespace, h3]) _
    · exact ⟨[], c :: cs, rfl, by simp, by simp⟩

/-- `while column < *indents.last().unwrap() { indents.pop(); result.push(Dedent) }`, on the
stack and the tokens so far. -/
def dedentLoop (input : List Char) (column restOff : Nat) :
    List Nat → List Token → Except LexStop (List Nat × List Token)
  | [], _ => unwrap none
  | top :: rest, result =>
    if column < top then
      dedentLoop input column restOff rest
        (result ++ [⟨.dedent, sourceText input restOff restOff, ⟨restOff, restOff⟩⟩])
    else .ok (top :: rest, result)

/-- The kinds of token that the start of a line and the end of the source add: comments,
line ends, indentation and the end marker. -/
def IsMarker (k : TokenKind) : Prop :=
  k = .comment ∨ k = .whitespaceNewline ∨ k.isLayout

/-- A marker is never punctuation. -/
theorem IsMarker.ne_punct {k : TokenKind} (h : IsMarker k) (p : Punct) : k ≠ .punct p := by
  rintro rfl
  rcases h with h | h | h <;> cases h

/-- A marker is never a string. -/
theorem IsMarker.ne_str {k : TokenKind} (h : IsMarker k) : k ≠ .str := by
  rintro rfl
  rcases h with h | h | h <;> cases h

/-- The dedent loop appends `Dedent` tokens only. -/
theorem dedentLoop_appends {input : List Char} {column restOff : Nat} :
    ∀ {indents : List Nat} {result : List Token} {is : List Nat} {rs : List Token},
      dedentLoop input column restOff indents result = .ok (is, rs) →
      ∃ ds, rs = result ++ ds ∧ ∀ t ∈ ds, t.kind = .dedent
  | [], _, _, _, h => by cases h
  | top :: rest, result, is, rs, h => by
    simp only [dedentLoop] at h
    split_ifs at h
    · obtain ⟨ds, rfl, hds⟩ := dedentLoop_appends h
      exact ⟨_ :: ds, (List.append_cons _ _ _).symm, List.forall_mem_cons.2 ⟨rfl, hds⟩⟩
    · cases h
      exact ⟨[], by simp, by simp⟩

/-- What the top of the loop body decides for a line. -/
inductive LineStart where
  /-- Go on to the in-line scan from `linePos`. -/
  | scan (st : LexState) (linePos : Nat)
  /-- `continue`: on to the next line. -/
  | next (st : LexState)
  /-- `break`: out of the line loop. -/
  | stop (st : LexState)

/-- The state the top of the loop body leaves. -/
def LineStart.state : LineStart → LexState
  | .scan st _ => st
  | .next st => st
  | .stop st => st

/-- The top of the loop body inside a multi-line string that started at `contstrStartVal`:
the line closes it, or, for a single-quoted string that the line does not continue with a
backslash, ends it as an error token, or belongs to it whole. -/
def continueString (input : List Char) (st : LexState) (contstrStartVal : Nat) (line : List Char)
    (lineStart lineEnd : Nat) : Except LexStop LineStart := do
  let endRe ← unwrap st.contstrEndRe
  match endRe.find line 0 with
  | some tokEnd =>
    let st := st.push input .str contstrStartVal (lineStart + tokEnd)
    pure (.scan { st with contstrStart := none, needcont := false } tokEnd)
  | none =>
    if st.needcont && !(['\\', '\n'].isSuffixOf line) && !(['\\', '\r', '\n'].isSuffixOf line) then
      let st := st.push input .errorToken contstrStartVal lineEnd
      pure (.next { st with contstrStart := none })
    else pure (.next st)

/-- The indentation of a non-blank logical line at `column`, whose text starts at byte
`restOff`: an `Indent` for a deeper column, the unindent check, and a `Dedent` per level
closed. -/
def indentLine (input : List Char) (st : LexState) (column lineStart restOff : Nat) :
    Except LexStop LexState := do
  let top ← unwrap st.indents.head?
  let st :=
    if column > top then { st with indents := column :: st.indents }.push input .indent lineStart restOff
    else st
  if !(st.indents.contains column) then
    throw (.error ⟨"unindent does not match any outer indentation level", restOff⟩)
  let (indents, result) ← dedentLoop input column restOff st.indents st.result
  pure { st with indents, result }

/-- What `indentLine` does: for a deeper column an `Indent` and the column on the stack, for
any other the unindent check, and then the dedent loop. -/
theorem indentLine_eq_ok {input : List Char} {st st' : LexState} {column lineStart restOff : Nat}
    (h : indentLine input st column lineStart restOff = .ok st') :
    ∃ top rest, st.indents = top :: rest ∧ st'.contstrStart = st.contstrStart ∧
      ((top < column ∧ dedentLoop input column restOff (column :: top :: rest)
          (st.result ++ [⟨.indent, sourceText input lineStart restOff, ⟨lineStart, restOff⟩⟩]) =
          .ok (st'.indents, st'.result)) ∨
        (column ≤ top ∧ column ∈ top :: rest ∧
          dedentLoop input column restOff (top :: rest) st.result = .ok (st'.indents, st'.result))) := by
  unfold indentLine at h
  obtain ⟨top, htop, h⟩ := bind_eq_ok.1 h
  obtain ⟨rest, hst⟩ : ∃ rest, st.indents = top :: rest := by
    cases hs : st.indents with
    | nil => rw [hs] at htop; cases htop
    | cons t rest => rw [hs] at htop; cases htop; exact ⟨rest, rfl⟩
  refine ⟨top, rest, hst, ?_⟩
  dsimp only at h
  split_ifs at h with hcol hmem hmem
  · obtain ⟨_, hthrow, -⟩ := bind_eq_ok.1 h
    cases hthrow
  · obtain ⟨⟨is, rs⟩, hded, h⟩ := bind_eq_ok.1 (by simpa only [pure_bind] using h)
    cases h
    simp only [LexState.push, hst] at hded
    exact ⟨rfl, .inl ⟨hcol, hded⟩⟩
  · obtain ⟨_, hthrow, -⟩ := bind_eq_ok.1 h
    cases hthrow
  · obtain ⟨⟨is, rs⟩, hded, h⟩ := bind_eq_ok.1 (by simpa only [pure_bind] using h)
    cases h
    rw [hst] at hded hmem
    exact ⟨rfl, .inr ⟨Nat.le_of_not_lt hcol, by simpa [or_iff_not_imp_left] using hmem, hded⟩⟩

/-- The top of the loop body at the start of a logical line: the end of the source if the
line is blank to its end, the `Comment` and `WhitespaceNewline` of a blank line, or the
line's indentation. -/
def startLogicalLine (input : List Char) (st : LexState) (line : List Char)
    (lineStart lineEnd : Nat) : Except LexStop LineStart := do
  let (column, linePos) := measure line 0 0
  if linePos = utf8Len line then return .stop st
  let c ← unwrap (← sliceFrom line linePos).head?
  if c = '#' || c = '\r' || c = '\n' then
    let (st, linePos) ←
      if c = '#' then do
        let commentToken := rstripSlice (← sliceFrom line linePos) ['\r', '\n']
        let len := utf8Len commentToken
        pure (st.push input .comment (lineStart + linePos) (lineStart + linePos + len),
          linePos + len)
      else pure (st, linePos)
    return .next (st.push input .whitespaceNewline (lineStart + linePos) lineEnd)
  return .scan (← indentLine input st column lineStart (lineStart + linePos)) linePos

/-- The start of a logical line appends comments, line ends, an indent and dedents, and
leaves the open string as it was. -/
theorem startLogicalLine_appends {input line : List Char} {st : LexState} {lineStart lineEnd : Nat}
    {r : LineStart} (h : startLogicalLine input st line lineStart lineEnd = .ok r) :
    ∃ ts, r.state.result = st.result ++ ts ∧ (∀ t ∈ ts, IsMarker t.kind) ∧
      r.state.contstrStart = st.contstrStart := by
  unfold startLogicalLine at h
  rcases measure line 0 0 with ⟨column, linePos⟩
  dsimp only at h
  split_ifs at h
  · cases h
    exact ⟨[], by simp [LineStart.state], by simp, rfl⟩
  simp only [pure_bind] at h
  obtain ⟨_, -, h⟩ := bind_eq_ok.1 h
  obtain ⟨ch, -, h⟩ := bind_eq_ok.1 h
  split_ifs at h
  · -- a comment line
    obtain ⟨_, -, h⟩ := bind_eq_ok.1 (by simpa only [ok_bind] using h)
    cases h
    exact ⟨_, List.append_assoc _ _ _, by simp [IsMarker], rfl⟩
  · -- a blank line
    cases h
    exact ⟨_, rfl, by simp [IsMarker], rfl⟩
  · -- a logical line: an indent or none, then dedents
    obtain ⟨st', hst', h⟩ := bind_eq_ok.1 (by simpa only [pure_bind] using h)
    cases h
    have hded : ∀ t : Token, t.kind = .dedent → IsMarker t.kind := fun t ht => by
      simp [IsMarker, ht, TokenKind.isLayout]
    obtain ⟨top, rest, -, hc, ⟨-, hd⟩ | ⟨-, -, hd⟩⟩ := indentLine_eq_ok hst' <;>
      obtain ⟨ds, hds, hk⟩ := dedentLoop_appends hd
    · exact ⟨_ :: ds, hds.trans (List.append_cons _ _ _).symm,
        List.forall_mem_cons.2 ⟨by simp [IsMarker, TokenKind.isLayout],
          fun t ht => hded t (hk t ht)⟩, hc⟩
    · exact ⟨ds, hds, fun t ht => hded t (hk t ht), hc⟩

/-- The top of the loop body, up to the in-line scan. -/
def startLine (input : List Char) (st : LexState) (line : List Char) (lineStart lineEnd : Nat) :
    Except LexStop LineStart :=
  match st.contstrStart with
  | some contstrStartVal => continueString input st contstrStartVal line lineStart lineEnd
  | none =>
    if st.parenlev = 0 && !st.continued then startLogicalLine input st line lineStart lineEnd
    else pure (.scan { st with continued := false } 0)

/-! ### The in-line scan -/

/-- The opening brackets, whose token raises `parenlev`. -/
def isOpeningChar (c : Char) : Bool := c = '(' || c = '[' || c = '\x7b'

/-- The closing brackets, whose token lowers `parenlev`. -/
def isClosingChar (c : Char) : Bool := c = ')' || c = ']' || c = '\x7d'

/-- `parenlev` after an operator or punctuation token with first character `initial`:
`parenlev -= 1` at `0` overflows. -/
def bracketLevel (parenlev : Nat) (initial : Char) : Except LexStop Nat :=
  if isOpeningChar initial then .ok (parenlev + 1)
  else if isClosingChar initial then
    if parenlev = 0 then .error (.panic "attempt to subtract with overflow") else .ok (parenlev - 1)
  else .ok parenlev

/-- What one pass of the in-line loop leads to. -/
inductive ScanStep where
  /-- Round again from `linePos`. -/
  | next (st : LexState) (linePos : Nat)
  /-- `break`: the rest of the line belongs to a string that goes on past it. -/
  | done (st : LexState)

/-- The state a pass of the scan leaves. -/
def ScanStep.state : ScanStep → LexState
  | .next st _ => st
  | .done st => st

/-- What a pass does with a nonempty token `token`, read from byte `tokStart` to `tokEnd` of
the line, by its first character `initial`. -/
def scanToken (input line : List Char) (lineStart : Nat) (st : LexState) (token : List Char)
    (initial : Char) (tokStart tokEnd : Nat) : Except LexStop ScanStep :=
  let soff := lineStart + tokStart
  let eoff := lineStart + tokEnd
  if initial.isDigit || (initial = '.' && token != ['.'] && token != ['.', '.', '.']) then
    pure (.next (st.push input .num soff eoff) tokEnd)
  else if initial = '\r' || initial = '\n' then
    let kind := if st.parenlev > 0 then TokenKind.whitespaceNewline else .newline
    pure (.next (st.push input kind soff eoff) tokEnd)
  else if initial = '#' then
    pure (.next (st.push input .comment soff eoff) tokEnd)
  else if IsTripleQuoted token then
    let endRe := closingOf token
    let st := { st with contstrEndRe := some endRe }
    match endRe.find line tokEnd with
    | some e => pure (.next (st.push input .str soff (lineStart + e)) e)
    | none => pure (.done { st with contstrStart := some soff })
  else if IsSingleQuoted [initial] || IsSingleQuoted (token.take 2) ||
      IsSingleQuoted (token.take 3) then
    if token.getLast? = some '\n' then
      pure (.next { st with contstrEndRe := some (closingOf token), contstrStart := some soff,
                            needcont := true } tokEnd)
    else pure (.next (st.push input .str soff eoff) tokEnd)
  else if isIdentifierChar initial then
    pure (.next (st.push input (.name ⟨token⟩) soff eoff) tokEnd)
  else if initial = '\\' then
    pure (.next { st with continued := true } tokEnd)
  else do
    let parenlev ← bracketLevel st.parenlev initial
    let kind ← unwrap (TokenKind.tryFrom ⟨token⟩)
    pure (.next ({ st with parenlev }.push input kind soff eoff) tokEnd)

/-- The kinds a pass gives a token by its first character `initial`, each with the tests of
`scanToken` that chose it: a number, a line end, a comment, or a name after every string test
failed. -/
def KindByInitial (token : List Char) (initial : Char) (parenlev : Nat) (k : TokenKind) : Prop :=
  (k = .num ∧
      (initial.isDigit || (initial = '.' && token != ['.'] && token != ['.', '.', '.'])) = true) ∨
    (k = .comment ∧ initial = '#') ∨
    (k = .name ⟨token⟩ ∧ isIdentifierChar initial = true ∧ initial.isDigit = false ∧
      ¬IsTripleQuoted token ∧ (IsSingleQuoted [initial] || IsSingleQuoted (token.take 2) ||
        IsSingleQuoted (token.take 3)) = false) ∨
    (k = (if parenlev > 0 then .whitespaceNewline else .newline) ∧
      (initial = '\r' || initial = '\n') = true)

/-- A kind chosen by the first character is a number, a comment, a name spelled as the token, or a
line end. -/
theorem KindByInitial.kind {token : List Char} {initial : Char} {parenlev : Nat} {k : TokenKind}
    (h : KindByInitial token initial parenlev k) :
    k = .num ∨ k = .comment ∨ k = .name ⟨token⟩ ∨
      k = if parenlev > 0 then .whitespaceNewline else .newline := by
  rcases h with ⟨rfl, -⟩ | ⟨rfl, -⟩ | ⟨rfl, -⟩ | ⟨rfl, -⟩ <;> simp

/-- What a pass with a token can do: push a token of a kind that its first character decides;
for a triple-quoted opening, close the string on the line or leave it open; for a single-quoted
string, leave it open when a backslash continues it, or push it; note a backslash
continuation; or push an operator token of the kind `try_from` reads from its text. -/
theorem scanToken_eq_ok {input line : List Char} {lineStart : Nat} {st : LexState}
    {token : List Char} {initial : Char} {tokStart tokEnd : Nat} {r : ScanStep}
    (h : scanToken input line lineStart st token initial tokStart tokEnd = .ok r) :
    (∃ k, KindByInitial token initial st.parenlev k ∧
      r = .next (st.push input k (lineStart + tokStart) (lineStart + tokEnd)) tokEnd) ∨
    IsTripleQuoted token ∧
      ((∃ e, (closingOf token).find line tokEnd = some e ∧
        r = .next ({ st with contstrEndRe := some (closingOf token) }.push input .str
          (lineStart + tokStart) (lineStart + e)) e) ∨
      r = .done { { st with contstrEndRe := some (closingOf token) } with
        contstrStart := some (lineStart + tokStart) }) ∨
    ¬IsTripleQuoted token ∧
      (IsSingleQuoted [initial] || IsSingleQuoted (token.take 2) ||
        IsSingleQuoted (token.take 3)) ∧
      ((token.getLast? = some '\n' ∧
        r = .next { st with contstrEndRe := some (closingOf token),
                            contstrStart := some (lineStart + tokStart),
                            needcont := true } tokEnd) ∨
      (¬token.getLast? = some '\n' ∧
        r = .next (st.push input .str (lineStart + tokStart) (lineStart + tokEnd)) tokEnd)) ∨
    (initial = '\\' ∧ r = .next { st with continued := true } tokEnd) ∨
    ∃ lev k, bracketLevel st.parenlev initial = .ok lev ∧ TokenKind.tryFrom ⟨token⟩ = some k ∧
      r = .next ({ st with parenlev := lev }.push input k (lineStart + tokStart)
        (lineStart + tokEnd)) tokEnd := by
  unfold scanToken at h
  rcases ite_eq_iff.1 h with ⟨hnum, h⟩ | ⟨hnum, h⟩
  · cases h; exact .inl ⟨_, .inl ⟨rfl, hnum⟩, rfl⟩
  rcases ite_eq_iff.1 h with ⟨hnl, h⟩ | ⟨-, h⟩
  · cases h; exact .inl ⟨_, .inr (.inr (.inr ⟨rfl, hnl⟩)), rfl⟩
  rcases ite_eq_iff.1 h with ⟨hh, h⟩ | ⟨-, h⟩
  · cases h; exact .inl ⟨_, .inr (.inl ⟨rfl, hh⟩), rfl⟩
  rcases ite_eq_iff.1 h with ⟨htri, h⟩ | ⟨htri, h⟩
  · -- a triple-quoted string, closed on the line or not
    dsimp only at h
    split at h <;> cases h
    · exact .inr (.inl ⟨htri, .inl ⟨_, ‹_›, rfl⟩⟩)
    · exact .inr (.inl ⟨htri, .inr rfl⟩)
  rcases ite_eq_iff.1 h with ⟨hsq, h⟩ | ⟨hsq, h⟩
  · -- a single-quoted string, continued by a backslash or not
    rcases ite_eq_iff.1 h with ⟨hnl, h⟩ | ⟨hnl, h⟩ <;> cases h
    · exact .inr (.inr (.inl ⟨htri, hsq, .inl ⟨hnl, rfl⟩⟩))
    · exact .inr (.inr (.inl ⟨htri, hsq, .inr ⟨hnl, rfl⟩⟩))
  rcases ite_eq_iff.1 h with ⟨hid, h⟩ | ⟨-, h⟩
  · cases h
    refine .inl ⟨_, .inr (.inr (.inl ⟨rfl, hid, ?_, htri, by simpa using hsq⟩)), rfl⟩
    simp only [Bool.or_eq_true, not_or] at hnum
    simpa using hnum.1
  rcases ite_eq_iff.1 h with ⟨hbs, h⟩ | ⟨-, h⟩
  · cases h; exact .inr (.inr (.inr (.inl ⟨hbs, rfl⟩)))
  · -- an operator or a bracket
    obtain ⟨lev, hlev, h⟩ := bind_eq_ok.1 h
    obtain ⟨k, hk, h⟩ := bind_eq_ok.1 h
    cases h
    exact .inr (.inr (.inr (.inr ⟨lev, k, hlev, unwrap_eq_ok.1 hk, rfl⟩)))

/-- One pass of the body of `while line_pos < line_len { ... }`, from `linePos`: the
pseudo-token at `linePos`, skipped if it is empty, or an error token for one byte if there is
none. -/
def scanStep (input line : List Char) (lineStart : Nat) (st : LexState) (linePos : Nat) :
    Except LexStop ScanStep := do
  match pseudoToken (← sliceFrom line linePos) with
  | some (capStart, capEnd) =>
    let tokStart := linePos + capStart
    let tokEnd := linePos + capEnd
    if tokStart = tokEnd then return .next st tokEnd
    let token ← slice line tokStart tokEnd
    let initial ← unwrap (← sliceFrom line tokStart).head?
    scanToken input line lineStart st token initial tokStart tokEnd
  | none =>
    return .next (st.push input .errorToken (lineStart + linePos) (lineStart + linePos + 1))
      (linePos + 1)

/-- What a pass can do: skip the whitespace that ends the line (the pattern's empty match at
the end of the text); read the token the pattern captures after a run of whitespace, and act on
it by its first character; or push an error token for the byte at which no pattern matches. -/
theorem scanStep_eq_ok {input line : List Char} {lineStart : Nat} {st : LexState} {lp : Nat}
    {r : ScanStep} (h : scanStep input line lineStart st lp = .ok r) :
    (∃ P ws, line = P ++ ws ∧ utf8Len P = lp ∧ (∀ c ∈ ws, isWhitespace c) ∧
      r = .next st (lp + utf8Len ws)) ∨
    (∃ P ws R n initial, line = P ++ ws ++ R ∧ utf8Len P = lp ∧ (∀ c ∈ ws, isWhitespace c) ∧
      token R = some n ∧ (R.take n).head? = some initial ∧
      scanToken input line lineStart st (R.take n) initial (lp + utf8Len ws)
        (lp + utf8Len ws + utf8Len (R.take n)) = .ok r) ∨
    (∃ P R, line = P ++ R ∧ utf8Len P = lp ∧ pseudoToken R = none ∧
      r = .next (st.push input .errorToken (lineStart + lp) (lineStart + lp + 1)) (lp + 1)) := by
  unfold scanStep at h
  obtain ⟨rest, hrest, h⟩ := bind_eq_ok.1 h
  obtain ⟨P, rfl, rfl⟩ := sliceFrom_eq_ok hrest
  split at h
  · rename_i a b hpt
    obtain ⟨ws, R, n, rfl, hws, htok, rfl, rfl⟩ := pseudoToken_eq_some hpt
    dsimp only at h
    split_ifs at h with hempty
    · -- an empty match: only the end of the text is left after the whitespace
      cases h
      obtain rfl : R = [] := by
        cases R with
        | nil => rfl
        | cons c cs =>
          obtain ⟨m, rfl⟩ := Nat.exists_eq_succ_of_ne_zero (posMatch_token c cs n htok).ne'
          have := c.utf8Size_pos
          simp only [List.take_succ_cons, utf8Len_cons] at hempty
          omega
      exact .inl ⟨P, ws, by simp, rfl, hws, by simp⟩
    have hslice : slice (P ++ (ws ++ R)) (utf8Len P + utf8Len ws)
        (utf8Len P + (utf8Len ws + utf8Len (R.take n))) = .ok (R.take n) := by
      have := slice_append (P ++ ws) (R.take n) (R.drop n)
      simp only [utf8Len_append, List.append_assoc, List.take_append_drop, Nat.add_assoc] at this
      exact this
    have hfrom : sliceFrom (P ++ (ws ++ R)) (utf8Len P + utf8Len ws) = .ok R := by
      have := sliceFrom_append_utf8Len (P ++ ws) R
      rwa [utf8Len_append, List.append_assoc] at this
    rw [pure_bind, hslice, ok_bind, hfrom, ok_bind] at h
    obtain ⟨initial, hinit, h⟩ := bind_eq_ok.1 h
    -- the token is not empty, so its first character is the one the pass reads
    have hn : n ≠ 0 := by
      rintro rfl
      simp at hempty
    refine .inr (.inl ⟨P, ws, R, n, initial, by simp, rfl, hws, htok, ?_, by
      rwa [Nat.add_assoc]⟩)
    rw [List.head?_take, if_neg hn]
    exact unwrap_eq_ok.1 hinit
  · rename_i hpt
    cases h
    exact .inr (.inr ⟨P, _, rfl, rfl, hpt, rfl⟩)

/-- `while line_pos < line_len { ... }`, with at most `fuel` passes. -/
def scanLine (input line : List Char) (lineStart : Nat) :
    Nat → LexState → Nat → Except LexStop LexState
  | 0, _, _ => .error .outOfFuel
  | fuel + 1, st, linePos =>
    if linePos < utf8Len line then do
      match ← scanStep input line lineStart st linePos with
      | .next st linePos => scanLine input line lineStart fuel st linePos
      | .done st => pure st
    else pure st

/-! ### The run -/

/-- The line loop, with the last line read (Rust's `line`). -/
def lineLoop (input : List Char) :
    List (List Char × Nat × Nat) → LexState → List Char → Except LexStop (LexState × List Char)
  | [], st, line => pure (st, line)
  | (line, lineStart, lineEnd) :: lines, st, _ => do
    match ← startLine input st line lineStart lineEnd with
    | .stop st => pure (st, line)
    | .next st => lineLoop input lines st line
    | .scan st linePos =>
      let st ← scanLine input line lineStart (utf8Len line + 1) st linePos
      lineLoop input lines st line

/-- The `Newline` at the end of the source for a last line without a terminator
(`WhitespaceNewline` if the line is blank). -/
def finalNewline (input : List Char) (st : LexState) (line : List Char) :
    Except LexStop LexState :=
  if line ≠ [] then do
    let lastChar ← unwrap line.getLast?
    if lastChar ≠ '\r' && lastChar ≠ '\n' then
      let kind := if line.all isRustWhitespace then TokenKind.whitespaceNewline else .newline
      pure (st.push input kind (utf8Len input) (utf8Len input))
    else pure st
  else pure st

/-- The final `Newline` is a `Newline` or a `WhitespaceNewline` at the end of the source, or
none. -/
theorem finalNewline_eq_ok {input line : List Char} {st st' : LexState}
    (h : finalNewline input st line = .ok st') :
    st' = st ∨ ∃ k, (k = .newline ∨ k = .whitespaceNewline) ∧
      st' = st.push input k (utf8Len input) (utf8Len input) := by
  unfold finalNewline at h
  split at h
  · obtain ⟨_, -, h⟩ := bind_eq_ok.1 h
    split at h <;> cases h
    · exact .inr ⟨_, by split <;> simp, rfl⟩
    · exact .inl rfl
  · cases h
    exact .inl rfl

/-- `for _ in indents.iter().skip(1) { result.push(Dedent) }`: a `Dedent` at the end of the
source for each level above the bottom of the stack, which is left as it is. -/
def eofDedents (input : List Char) (st : LexState) : LexState :=
  (st.indents.drop 1).foldl (fun st _ => st.push input .dedent (utf8Len input) (utf8Len input)) st

/-- The tokens after the last line: the checks for an open string and a dangling backslash,
the final `Newline`, a `Dedent` per open indentation level, the `EndMarker`. -/
def finish (input : List Char) (st : LexState) (line : List Char) : Except LexStop (List Token) :=
  let inputLen := utf8Len input
  if st.contstrStart.isSome then .error (.error ⟨"EOF in multi-line string", inputLen⟩)
  else if st.continued then .error (.error ⟨"EOF in multi-line statement", inputLen⟩)
  else do
    let st ← finalNewline input st line
    let st := eofDedents input st
    pure (st.push input .endMarker inputLen inputLen).result

/-- The loop of `Dedent`s after the last line appends one token per entry. -/
theorem foldl_push_result (input : List Char) (kind : TokenKind) (n : Nat) :
    ∀ (l : List Nat) (st : LexState),
      (l.foldl (fun st _ => st.push input kind n n) st).result =
        st.result ++ List.replicate l.length ⟨kind, sourceText input n n, ⟨n, n⟩⟩
  | [], st => by simp
  | _ :: l, st => by
    rw [List.foldl_cons, foldl_push_result input kind n l]
    simp [LexState.push, List.replicate_succ]

/-- The `Dedent`s at the end of the source: one empty token for each level above the bottom of
the stack. -/
theorem eofDedents_result (input : List Char) (st : LexState) :
    (eofDedents input st).result = st.result ++ List.replicate (st.indents.length - 1)
      ⟨.dedent, sourceText input (utf8Len input) (utf8Len input), ⟨utf8Len input, utf8Len input⟩⟩ := by
  rw [eofDedents, foldl_push_result, List.length_drop]

/-- The end of the source appends a line end, dedents and the end marker. -/
theorem finish_appends {input line : List Char} {st : LexState} {ts : List Token}
    (h : finish input st line = .ok ts) : ∃ F, ts = st.result ++ F ∧ ∀ t ∈ F, IsMarker t.kind := by
  unfold finish at h
  split_ifs at h
  obtain ⟨st', hst', h⟩ := bind_eq_ok.1 h
  cases h
  rw [LexState.push, eofDedents_result]
  obtain ⟨N, hN, hNF⟩ : ∃ N, st'.result = st.result ++ N ∧ ∀ t ∈ N, IsMarker t.kind := by
    rcases finalNewline_eq_ok hst' with rfl | ⟨k, hk, rfl⟩
    · exact ⟨[], by simp, by simp⟩
    · exact ⟨_, rfl, by rcases hk with rfl | rfl <;> simp [IsMarker, TokenKind.isLayout]⟩
  refine ⟨N ++ _, by simp only [hN, List.append_assoc]; rfl, fun t ht => ?_⟩
  simp only [List.mem_append, List.mem_replicate, List.mem_singleton] at ht
  rcases ht with ht | ⟨-, rfl⟩ | rfl
  · exact hNF t ht
  all_goals simp [IsMarker, TokenKind.isLayout]

/-- Every token after the last line is empty, at the end of the source: the final line end,
if any, the `Dedent`s and the `EndMarker`. -/
theorem finish_spec {input line : List Char} {st : LexState} {ts : List Token}
    (h : finish input st line = .ok ts) :
    ∃ F, ts = st.result ++ F ∧ ∀ t ∈ F, (t.kind.isLayout = true ∨ t.kind = .whitespaceNewline) ∧
      t.string = sourceText input (utf8Len input) (utf8Len input) ∧
      t.span = ⟨utf8Len input, utf8Len input⟩ := by
  unfold finish at h
  split_ifs at h
  obtain ⟨st', hst', h⟩ := bind_eq_ok.1 h
  cases h
  rw [LexState.push, eofDedents_result]
  obtain ⟨N, hN, hNF⟩ : ∃ N, st'.result = st.result ++ N ∧
      ∀ t ∈ N, (t.kind.isLayout = true ∨ t.kind = .whitespaceNewline) ∧
        t.string = sourceText input (utf8Len input) (utf8Len input) ∧
        t.span = ⟨utf8Len input, utf8Len input⟩ := by
    rcases finalNewline_eq_ok hst' with rfl | ⟨k, hk, rfl⟩
    · exact ⟨[], by simp, by simp⟩
    · exact ⟨_, rfl, by rcases hk with rfl | rfl <;> simp [TokenKind.isLayout]⟩
  refine ⟨N ++ _, by simp only [hN, List.append_assoc]; rfl, fun t ht => ?_⟩
  simp only [List.mem_append, List.mem_replicate, List.mem_singleton] at ht
  rcases ht with ht | ⟨-, rfl⟩ | rfl
  · exact hNF t ht
  all_goals simp [TokenKind.isLayout]

/-- `tokenize(input)`: `.ok` of the tokens, `.error (.error e)` for the `TokenizeError` it
returns, `.error (.panic msg)` where it panics. -/
def tokenize (input : List Char) : Except LexStop (List Token) := do
  let (st, line) ← lineLoop input (linesWithEndings input) LexState.init []
  finish input st line

/-- `get_parse_tokens(source)` (`parsers.rs`): the tokens the parser reads, all but `Comment`
and `WhitespaceNewline`. -/
def getParseTokens (input : List Char) : Except LexStop (List Token) :=
  (tokenize input).map fun ts => ts.filter fun t =>
    match t.kind with
    | .comment | .whitespaceNewline => false
    | _ => true

/-! ### Runs the spec does not describe -/

/-- A character outside the patterns' alphabet panics: `€` through the one-byte advance of
the error token, after which `&line[line_pos..]` starts inside the character, and `é`, which
the identifier pattern `\w`
reads but `is_identifier_char` does not, through the `unwrap` of `TokenKind::try_from`. -/
theorem tokenize_non_ascii_panics :
    tokenize "€\n".toList = .error (.panic "byte index is not a char boundary") ∧
      tokenize "é\n".toList = .error (.panic "called `Option::unwrap()` on a `None` value") :=
  ⟨rfl, rfl⟩

/-- A closing bracket with no opener before it runs `parenlev -= 1` at `0`. -/
theorem tokenize_unmatched_closer_panics :
    tokenize ")".toList = .error (.panic "attempt to subtract with overflow") := rfl

/-- The end of the source does not look at `parenlev`: a source that ends inside brackets is
accepted, with an opening bracket and no closing one. -/
theorem tokenize_accepts_unclosed_bracket :
    ∃ ts, tokenize "f(\n".toList = .ok ts ∧ (ts.filter (·.kind.isOpening)).length = 1 ∧
      (ts.filter (·.kind.isClosing)).length = 0 :=
  ⟨_, rfl, rfl, rfl⟩

/-- A last line with a comment and no terminator gets a significant `Newline`, which the same
line with a terminator does not. -/
theorem tokenize_comment_last_line_newline :
    (getParseTokens "x\n# end".toList).map (·.map Token.kind) =
        .ok [.name "x", .newline, .newline, .endMarker] ∧
      (getParseTokens "x\n# end\n".toList).map (·.map Token.kind) =
        .ok [.name "x", .newline, .endMarker] :=
  ⟨rfl, rfl⟩

/-- A backslash continuation onto a last line of whitespace with no terminator ends the stream
without a `Newline`: the parser sees `x` followed by `EndMarker`. -/
theorem tokenize_continued_blank_last_line :
    (getParseTokens "x\\\n ".toList).map (·.map Token.kind) = .ok [.name "x", .endMarker] := rfl

end Lexer

end FeParser
