import FeParser.Lexer.Run

/-!
# Brackets

`tokenize` counts the brackets still open in `parenlev`: the token of `(`, `[` or `{` raises
it, that of `)`, `]` or `}` lowers it, and lowering it at `0` panics. Inside brackets a new
line does not start a logical line, so no indentation is measured there, and a line end is a
`WhitespaceNewline`. Only the tokens after the last line do not look at `parenlev`: the
`Newline` for a last line without a terminator, and one `Dedent` per open level, all at the end
of the source.

`Bracketed` says this of the tokens so far and the counter: `parenlev` is the number of
opening bracket tokens less the closing ones; before every closing bracket more brackets were
opened than closed; and before every `Newline`, `Indent` and `Dedent` as many were closed as
opened. The start of a line, the dedent loop and each pass of the in-line scan keep it, so
every run of the line loop does (`lineLoop_keeps`).

## Main results

* `tokenize_brackets`: in the tokens of a successful run, every closing bracket closes one
  that is open, and every `Newline`, `Indent` and `Dedent` read from the source stands outside
  all brackets.
-/

namespace FeParser

namespace Lexer

open Pattern

/-! ### Bracket depth -/

/-- The opening bracket tokens among `ts`. -/
def openCount (ts : List Token) : Nat := ts.countP (·.kind.isOpening)

/-- The closing bracket tokens among `ts`. -/
def closeCount (ts : List Token) : Nat := ts.countP (·.kind.isClosing)

/-- The opening brackets of a concatenation are those of its parts. -/
@[simp] theorem openCount_append (ts us : List Token) :
    openCount (ts ++ us) = openCount ts + openCount us := List.countP_append _ _ _

/-- The closing brackets of a concatenation are those of its parts. -/
@[simp] theorem closeCount_append (ts us : List Token) :
    closeCount (ts ++ us) = closeCount ts + closeCount us := List.countP_append _ _ _

/-- Where a token may follow the tokens `pre`: a closing bracket only where some bracket is
open, and a `Newline`, `Indent`, `Dedent` or `EndMarker` only where none is. -/
def FitsAfter (pre : List Token) (t : Token) : Prop :=
  (t.kind.isClosing → closeCount pre < openCount pre) ∧
    (t.kind.isLayout → closeCount pre = openCount pre)

/-- The bracket invariant of the tokens so far, `result`, and the counter of open brackets. -/
structure Bracketed (result : List Token) (parenlev : Nat) : Prop where
  depth : openCount result = parenlev + closeCount result
  fits : ∀ pre t post, result = pre ++ t :: post → FitsAfter pre t

/-- The bracket invariant of a state. -/
def LexState.Bracketed (st : LexState) : Prop := Lexer.Bracketed st.result st.parenlev

/-! ### What keeps the invariant -/

section Keep

variable {result : List Token} {n : Nat}

/-- The initial state, with no tokens and no open bracket, has the invariant. -/
theorem LexState.Bracketed.init : LexState.init.Bracketed :=
  ⟨rfl, fun pre t post h => by simp [LexState.init] at h⟩

/-- A token of `result ++ [t]` is `t` after the whole of `result`, or a token of `result`. -/
theorem append_singleton_cases {pre post result : List Token} {t t' : Token}
    (h : pre ++ t' :: post = result ++ [t]) :
    (pre = result ∧ t' = t) ∨ ∃ post', result = pre ++ t' :: post' := by
  rcases List.eq_nil_or_concat' post with rfl | ⟨post', u, rfl⟩
  · obtain ⟨rfl, h'⟩ := List.append_inj' h rfl
    exact .inl ⟨rfl, List.singleton_inj.1 h'⟩
  · rw [← List.cons_append, ← List.append_assoc] at h
    exact .inr ⟨post', (List.append_inj' h rfl).1.symm⟩

/-- A token that fits after the tokens so far keeps the invariant, with the counter moved by the
brackets it opens and closes. -/
theorem Bracketed.push (h : Bracketed result n) {t : Token} {n' : Nat} (hfit : FitsAfter result t)
    (hd : openCount [t] + n = n' + closeCount [t]) : Bracketed (result ++ [t]) n' where
  depth := by
    have := h.depth
    simp only [openCount_append, closeCount_append]
    omega
  fits pre t' post heq := by
    rcases append_singleton_cases heq.symm with ⟨rfl, rfl⟩ | ⟨post', hr⟩
    · exact hfit
    · exact h.fits pre t' post' hr

/-- A token that is no bracket, and a layout token only where no bracket is open. -/
theorem Bracketed.pushPlain (h : Bracketed result n) {t : Token} (ho : t.kind.isOpening = false)
    (hc : t.kind.isClosing = false) (hl : t.kind.isLayout = false ∨ n = 0) :
    Bracketed (result ++ [t]) n := by
  refine h.push ⟨fun hc' => absurd hc' (by simp [hc]), fun hl' => ?_⟩
    (by simp [openCount, closeCount, ho, hc])
  have := h.depth
  rcases hl with hl | rfl
  · exact absurd hl' (by simp [hl])
  · omega

/-- A state keeps the invariant when it pushes a token that is no bracket, and a layout token only
where no bracket is open. -/
theorem LexState.Bracketed.push {st : LexState} (h : st.Bracketed) {k : TokenKind}
    (ho : k.isOpening = false) (hc : k.isClosing = false)
    (hl : k.isLayout = false ∨ st.parenlev = 0) {input : List Char} {a b : Nat} : (st.push input k a b).Bracketed :=
  Lexer.Bracketed.pushPlain h ho hc hl

/-- A token of a kind that is neither a bracket nor a layout kind. -/
theorem LexState.Bracketed.pushText {st : LexState} (h : st.Bracketed) {k : TokenKind}
    (hk : k.isOpening = false ∧ k.isClosing = false ∧ k.isLayout = false) {input : List Char}
    {a b : Nat} : (st.push input k a b).Bracketed :=
  h.push hk.1 hk.2.1 (.inl hk.2.2)

/-- An opening bracket character is not a closing one. -/
theorem isClosingChar_of_isOpeningChar {c : Char} (h : isOpeningChar c = true) :
    isClosingChar c = false := by
  simp only [isOpeningChar, Bool.or_eq_true, decide_eq_true_eq] at h
  rcases h with (rfl | rfl) | rfl <;> rfl

/-- An operator or punctuation token whose kind opens or closes a bracket as its first
character `c` does, with the counter that `bracketLevel` leaves. -/
theorem Bracketed.pushBracket (h : Bracketed result n) {t : Token} {c : Char} {n' : Nat}
    (hl : t.kind.isLayout = false) (hlev : bracketLevel n c = .ok n')
    (ho : t.kind.isOpening = isOpeningChar c) (hc : t.kind.isClosing = isClosingChar c) :
    Bracketed (result ++ [t]) n' := by
  have hdepth := h.depth
  have hfit : (t.kind.isClosing → closeCount result < openCount result) →
      FitsAfter result t := fun hcl => ⟨hcl, fun hl' => absurd hl' (by simp [hl])⟩
  unfold bracketLevel at hlev
  split_ifs at hlev with h₁ h₂ h₃ <;> cases hlev
  · -- an opening bracket
    have hc' : t.kind.isClosing = false := hc.trans (isClosingChar_of_isOpeningChar h₁)
    exact h.push (hfit fun hcl => absurd hcl (by simp [hc']))
      (by simp [openCount, closeCount, ho, h₁, hc']; omega)
  · -- a closing bracket, where one is open
    exact h.push (hfit fun _ => by omega) (by simp [openCount, closeCount, ho, hc, h₁, h₂]; omega)
  · -- no bracket
    exact h.push (hfit fun hcl => absurd (hc ▸ hcl) (by simp [h₂]))
      (by simp [openCount, closeCount, ho, hc, h₁, h₂])

/-- In the operator table the first character of a text tells whether its kind opens or
closes a bracket. -/
theorem punctTable_brackets : ∀ e ∈ TokenKind.punctTable,
    e.1.data.head?.map (fun c => (isOpeningChar c, isClosingChar c)) =
      some ((TokenKind.punct e.2).isOpening, (TokenKind.punct e.2).isClosing) := by
  decide

/-- The kind `TokenKind::try_from` reads from a text opens or closes a bracket as the text's
first character does, and is no layout kind. -/
theorem tryFrom_brackets {token : List Char} {initial : Char} {k : TokenKind}
    (hk : TokenKind.tryFrom ⟨token⟩ = some k) (hi : token.head? = some initial) :
    k.isOpening = isOpeningChar initial ∧ k.isClosing = isClosingChar initial ∧
      k.isLayout = false := by
  obtain ⟨p, hp, rfl⟩ := Option.map_eq_some'.1 hk
  obtain ⟨l₁, l₂, htab, -⟩ := List.lookup_eq_some_iff.1 hp
  have := punctTable_brackets _ (htab ▸ List.mem_append_right _ (List.mem_cons_self _ _))
  simp only [hi, Option.map_some', Option.some.injEq, Prod.mk.injEq] at this
  exact ⟨this.1.symm, this.2.symm, rfl⟩

end Keep

/-! ### The start of a line -/

section Line

variable {input line : List Char} {st st' : LexState} {column lineStart lineEnd restOff : Nat}

/-- The dedent loop, which runs only where no bracket is open, keeps the invariant. -/
theorem dedentLoop_bracketed :
    ∀ {indents : List Nat} {result : List Token} {is : List Nat} {rs : List Token},
      Bracketed result 0 → dedentLoop input column restOff indents result = .ok (is, rs) →
      Bracketed rs 0
  | [], _, _, _, _, h => by cases h
  | top :: rest, result, is, rs, hb, h => by
    simp only [dedentLoop] at h
    split_ifs at h
    · exact dedentLoop_bracketed (hb.pushPlain (by rfl) (by rfl) (.inr rfl)) h
    · cases h
      exact hb

/-- The indentation of a line leaves the counter of open brackets alone. -/
theorem indentLine_parenlev (h : indentLine input st column lineStart restOff = .ok st') :
    st'.parenlev = st.parenlev := by
  unfold indentLine at h
  obtain ⟨top, -, h⟩ := bind_eq_ok.1 h
  dsimp only at h
  split_ifs at h <;>
    obtain ⟨⟨is, rs⟩, hthrow, h⟩ := bind_eq_ok.1 (by simpa only [pure_bind] using h)
  all_goals first | cases hthrow | (cases h; rfl)

/-- The indentation of a logical line, read where no bracket is open. -/
theorem indentLine_bracketed (hb : st.Bracketed) (hp : st.parenlev = 0)
    (h : indentLine input st column lineStart restOff = .ok st') : st'.Bracketed := by
  have hb0 : Bracketed st.result 0 := hp ▸ hb
  show Bracketed st'.result st'.parenlev
  rw [indentLine_parenlev h, hp]
  obtain ⟨top, rest, -, -, ⟨-, hded⟩ | ⟨-, -, hded⟩⟩ := indentLine_eq_ok h
  · exact dedentLoop_bracketed (hb0.pushPlain (by rfl) (by rfl) (.inr rfl)) hded
  · exact dedentLoop_bracketed hb0 hded

/-- The start of a logical line, which is read only where no bracket is open, keeps the invariant.
-/
theorem startLogicalLine_bracketed {r : LineStart} (hb : st.Bracketed) (hp : st.parenlev = 0)
    (h : startLogicalLine input st line lineStart lineEnd = .ok r) : r.state.Bracketed := by
  unfold startLogicalLine at h
  rcases measure line 0 0 with ⟨column, linePos⟩
  dsimp only at h
  split_ifs at h
  · cases h
    exact hb
  simp only [pure_bind] at h
  obtain ⟨_, -, h⟩ := bind_eq_ok.1 h
  obtain ⟨ch, -, h⟩ := bind_eq_ok.1 h
  split_ifs at h
  · -- a comment line
    obtain ⟨_, -, h⟩ := bind_eq_ok.1 (by simpa only [ok_bind] using h)
    cases h
    exact (hb.pushText (by decide)).pushText (by decide)
  · -- a blank line
    cases h
    exact hb.pushText (by decide)
  · -- a logical line
    obtain ⟨st', hst', h⟩ := bind_eq_ok.1 (by simpa only [pure_bind] using h)
    cases h
    exact indentLine_bracketed hb hp hst'

/-- A line that continues an open string keeps the invariant: it pushes a string or an error token,
which are no brackets. -/
theorem continueString_bracketed {c : Nat} {r : LineStart} (hb : st.Bracketed)
    (h : continueString input st c line lineStart lineEnd = .ok r) : r.state.Bracketed := by
  unfold continueString at h
  obtain ⟨_, -, h⟩ := bind_eq_ok.1 h
  split at h
  · cases h
    exact hb.pushText (by decide)
  · split_ifs at h <;> cases h
    · exact hb.pushText (by decide)
    · exact hb

/-- The top of the loop body keeps the invariant. -/
theorem startLine_bracketed {r : LineStart} (hb : st.Bracketed)
    (h : startLine input st line lineStart lineEnd = .ok r) : r.state.Bracketed := by
  unfold startLine at h
  split at h
  · exact continueString_bracketed hb h
  · split_ifs at h with hlog
    · simp only [Bool.and_eq_true, decide_eq_true_eq] at hlog
      exact startLogicalLine_bracketed hb hlog.1 h
    · cases h
      exact hb

end Line

/-! ### The in-line scan -/

section Scan

variable {input line : List Char} {lineStart : Nat} {st : LexState}

/-- A pass with a nonempty token `token`, whose first character is `initial`. -/
theorem scanToken_bracketed {token : List Char} {initial : Char} {tokStart tokEnd : Nat}
    {r : ScanStep} (hinit : token.head? = some initial) (hb : st.Bracketed)
    (h : scanToken input line lineStart st token initial tokStart tokEnd = .ok r) :
    r.state.Bracketed := by
  rcases scanToken_eq_ok h with ⟨k, hk, rfl⟩ | ⟨-, ⟨_, -, rfl⟩ | rfl⟩ |
    ⟨-, -, ⟨-, rfl⟩ | ⟨-, rfl⟩⟩ | ⟨-, rfl⟩ | ⟨lev, k, hlev, hk, rfl⟩
  · rcases hk.kind with rfl | rfl | rfl | rfl
    iterate 2 exact hb.pushText (by decide)
    · exact hb.pushText (by exact ⟨rfl, rfl, rfl⟩)
    · -- a line end: a `Newline` only outside brackets
      exact hb.push (by split <;> rfl) (by split <;> rfl)
        (by split; exacts [.inl rfl, .inr (by omega)])
  · exact hb.pushText (by decide)
  · exact hb
  · exact hb
  · exact hb.pushText (by decide)
  · exact hb
  · -- an operator or a bracket
    obtain ⟨ho, hc, hl⟩ := tryFrom_brackets hk hinit
    exact Bracketed.pushBracket hb hl hlev ho hc

/-- A pass of the scan keeps the invariant: a line end inside brackets is a `WhitespaceNewline`, and
the counter follows the brackets pushed. -/
theorem scanStep_bracketed {linePos : Nat} {r : ScanStep} (hb : st.Bracketed)
    (h : scanStep input line lineStart st linePos = .ok r) : r.state.Bracketed := by
  unfold scanStep at h
  obtain ⟨rest, -, h⟩ := bind_eq_ok.1 h
  split at h
  · rename_i a b hpt
    obtain ⟨ws, rest, n, -, -, -, rfl, rfl⟩ := pseudoToken_eq_some hpt
    dsimp only at h
    split_ifs at h with hempty
    · cases h
      exact hb
    · rw [pure_bind] at h
      obtain ⟨token, htok, h⟩ := bind_eq_ok.1 h
      obtain ⟨r', hr', h⟩ := bind_eq_ok.1 h
      obtain ⟨initial, hi, h⟩ := bind_eq_ok.1 h
      exact scanToken_bracketed
        (by rw [slice_head (by omega) htok hr']; exact unwrap_eq_ok.1 hi) hb h
  · cases h
    exact hb.pushText (by decide)

end Scan

/-! ### The run -/

section Run

variable {input : List Char}

/-- The tokens after the last line start at the end of the source and close no bracket. -/
theorem finish_eq_ok {st : LexState} {line : List Char} {ts : List Token}
    (h : finish input st line = .ok ts) :
    ∃ F, ts = st.result ++ F ∧
      ∀ t ∈ F, t.span.start = utf8Len input ∧ t.kind.isClosing = false := by
  obtain ⟨F, rfl, hF⟩ := finish_spec h
  refine ⟨F, rfl, fun t ht => ⟨by rw [(hF t ht).2.2], ?_⟩⟩
  rcases (hF t ht).1 with hk | hk
  · cases hk' : t.kind <;> simp_all [TokenKind.isLayout, TokenKind.isClosing]
  · rw [hk]; rfl

end Run

/-- Brackets in the token stream: every closing bracket follows more opening brackets than
closing ones, and every `Newline`, `Indent` and `Dedent` that `tokenize` reads from the source
(rather than adding at its end) follows as many closing brackets as opening ones. -/
theorem tokenize_brackets {s : List Char} {ts : List Token} (h : tokenize s = .ok ts) :
    ∀ pre t post, ts = pre ++ t :: post →
      (t.kind.isClosing → closeCount pre < openCount pre) ∧
      (t.kind.isLayout → t.span.start < utf8Len s → closeCount pre = openCount pre) := by
  unfold tokenize at h
  obtain ⟨⟨st, line⟩, hrun, h⟩ := bind_eq_ok.1 h
  have hb := lineLoop_keeps startLine_bracketed scanStep_bracketed LexState.Bracketed.init hrun
  obtain ⟨F, rfl, hF⟩ := finish_eq_ok h
  intro pre t post heq
  -- a token after the last line closes no bracket and starts at the end of the source
  have hlast : t ∈ F → (t.kind.isClosing → closeCount pre < openCount pre) ∧
      (t.kind.isLayout → t.span.start < utf8Len s → closeCount pre = openCount pre) :=
    fun ht => ⟨fun hc => absurd hc (by simp [(hF t ht).2]),
      fun _ hlt => absurd (hF t ht).1 (by omega)⟩
  rcases List.append_eq_append_iff.1 heq with ⟨a', rfl, hF'⟩ | ⟨c', hst, htF⟩
  · exact hlast (by rw [hF']; simp)
  · cases c' with
    | nil => exact hlast (by rw [List.nil_append] at htF; rw [← htF]; simp)
    | cons u c' =>
      obtain ⟨rfl, -⟩ := List.cons.inj htF
      exact ⟨(hb.fits pre t c' hst).1, fun hl _ => (hb.fits pre t c' hst).2 hl⟩

/-- At a call whose arguments run over two lines, every closing bracket closes one that is open and
the line end inside the brackets is not significant. -/
theorem tokenize_brackets_call :
    ∃ ts, tokenize "f(x,\n  y)\n".toList = .ok ts ∧
      ∀ pre t post, ts = pre ++ t :: post →
        (t.kind.isClosing → closeCount pre < openCount pre) ∧
        (t.kind.isLayout → t.span.start < utf8Len "f(x,\n  y)\n".toList →
          closeCount pre = openCount pre) :=
  ⟨_, rfl, tokenize_brackets rfl⟩

end Lexer

end FeParser
