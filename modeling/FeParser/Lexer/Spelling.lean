import FeParser.Lexer.Run

/-!
# Operator tokens carry their spelling

`tokenize` gives an operator or punctuation token the kind that `TokenKind::try_from` reads
from the token's text `&line[tok_start..tok_end]`, and the text of every token it makes is the
source under the token's span. The line is the source from `line_start` on, so the two texts
are one: every such token is `Spelled`, its kind read back from its text. Every other token
the lexer makes is of a kind that is no punctuation.

This is what the `unwrap`s of the constant-expression parsers rely on
(`FeParser.ConstPanics`).

## Main results

* `tokenize_spelled`: every token of a successful run is spelled.
-/

namespace FeParser

namespace Lexer

open Pattern

/-- Every token so far is spelled. -/
def LexState.Spelled (st : LexState) : Prop := ∀ t ∈ st.result, t.Spelled

/-! ### What keeps the invariant -/

section Keep

variable {input : List Char} {st : LexState} {k : TokenKind} {a b : Nat}

/-- The initial state has no tokens, so all of them are spelled. -/
theorem LexState.Spelled.init : LexState.init.Spelled := fun _ => nofun

/-- A token of a kind that is no punctuation. -/
theorem LexState.Spelled.push (h : st.Spelled) (hk : ∀ p, k ≠ .punct p) :
    (st.push input k a b).Spelled :=
  List.forall_mem_append.2 ⟨h, List.forall_mem_singleton.2 fun p hp => absurd hp (hk p)⟩

/-- A token of the kind that `try_from` reads from the source under its span. -/
theorem LexState.Spelled.pushRead (h : st.Spelled)
    (hk : TokenKind.tryFrom (sourceText input a b) = some k) : (st.push input k a b).Spelled :=
  List.forall_mem_append.2 ⟨h, List.forall_mem_singleton.2 fun _ _ => hk⟩

/-- Comments, line ends, indentation and the end marker. -/
theorem LexState.Spelled.append (h : st.Spelled) {ts : List Token}
    (hk : ∀ t ∈ ts, IsMarker t.kind) : ∀ t ∈ st.result ++ ts, t.Spelled :=
  List.forall_mem_append.2 ⟨h, fun t ht p hp => absurd hp ((hk t ht).ne_punct p)⟩

end Keep

/-! ### The start of a line -/

section Line

variable {input line : List Char} {st st' : LexState} {column lineStart lineEnd restOff : Nat}

/-- The start of a logical line pushes only comments, line ends and indentation, none of them
punctuation. -/
theorem startLogicalLine_spelled {r : LineStart} (hb : st.Spelled)
    (h : startLogicalLine input st line lineStart lineEnd = .ok r) : r.state.Spelled := by
  obtain ⟨ts, hts, hk, -⟩ := startLogicalLine_appends h
  rw [LexState.Spelled, hts]
  exact hb.append hk

/-- A line that continues an open string pushes a string or an error token, neither of them
punctuation. -/
theorem continueString_spelled {c : Nat} {r : LineStart} (hb : st.Spelled)
    (h : continueString input st c line lineStart lineEnd = .ok r) : r.state.Spelled := by
  unfold continueString at h
  obtain ⟨_, -, h⟩ := bind_eq_ok.1 h
  split at h
  · cases h
    exact hb.push fun _ => nofun
  · split_ifs at h <;> cases h
    · exact hb.push fun _ => nofun
    · exact hb

/-- The top of the loop body keeps every token spelled. -/
theorem startLine_spelled {r : LineStart} (hb : st.Spelled)
    (h : startLine input st line lineStart lineEnd = .ok r) : r.state.Spelled := by
  unfold startLine at h
  split at h
  · exact continueString_spelled hb h
  · split_ifs at h
    · exact startLogicalLine_spelled hb h
    · cases h
      exact hb

end Line

/-! ### The in-line scan -/

section Scan

variable {input line A B : List Char} {st : LexState}

/-- A pass with the token `token`, the source under the span from `tokStart` to `tokEnd`. -/
theorem scanToken_spelled {token : List Char} {initial : Char} {tokStart tokEnd : Nat}
    {r : ScanStep} (htext : sourceText input (utf8Len A + tokStart) (utf8Len A + tokEnd) = ⟨token⟩)
    (hb : st.Spelled)
    (h : scanToken input line (utf8Len A) st token initial tokStart tokEnd = .ok r) :
    r.state.Spelled := by
  rcases scanToken_eq_ok h with ⟨k, hk, rfl⟩ | ⟨-, ⟨_, -, rfl⟩ | rfl⟩ |
    ⟨-, -, ⟨-, rfl⟩ | ⟨-, rfl⟩⟩ | ⟨-, rfl⟩ | ⟨_, k, -, hk, rfl⟩
  · -- a kind that the first character decides, no punctuation
    exact hb.push fun _ hp => by
      rcases hk.kind with rfl | rfl | rfl | rfl <;> (try split at hp) <;> cases hp
  · exact hb.push fun _ => nofun
  · exact hb
  · exact hb
  · exact hb.push fun _ => nofun
  · exact hb
  · -- an operator or a bracket, of the kind `try_from` reads from its text
    exact LexState.Spelled.pushRead hb (htext ▸ hk)

/-- A pass of the scan keeps every token spelled: the token's text is the slice of the line under
its span, which is the source under its span. -/
theorem scanStep_spelled (hin : input = A ++ line ++ B) {linePos : Nat} {r : ScanStep}
    (hb : st.Spelled) (h : scanStep input line (utf8Len A) st linePos = .ok r) :
    r.state.Spelled := by
  unfold scanStep at h
  obtain ⟨rest, -, h⟩ := bind_eq_ok.1 h
  split at h
  · rename_i a b hpt
    obtain ⟨_, _, _, -, -, -, rfl, rfl⟩ := pseudoToken_eq_some hpt
    dsimp only at h
    split_ifs at h
    · cases h
      exact hb
    · rw [pure_bind] at h
      obtain ⟨token, htok, h⟩ := bind_eq_ok.1 h
      obtain ⟨_, -, h⟩ := bind_eq_ok.1 h
      obtain ⟨_, -, h⟩ := bind_eq_ok.1 h
      exact scanToken_spelled (hin ▸ sourceText_of_slice (by omega) htok) hb h
  · cases h
    exact hb.push fun _ => nofun

end Scan

/-! ### The run -/

section Run

variable {input : List Char}

/-- The tokens after the last line are line ends, `Dedent`s and the `EndMarker`, none of them
punctuation. -/
theorem finish_spelled {st : LexState} {line : List Char} {ts : List Token} (hb : st.Spelled)
    (h : finish input st line = .ok ts) : ∀ t ∈ ts, t.Spelled := by
  obtain ⟨F, rfl, hF⟩ := finish_appends h
  exact hb.append hF

end Run

/-- Every operator or punctuation token of a successful run is spelled: `TokenKind::try_from`
reads its kind back from its text. -/
theorem tokenize_spelled {s : List Char} {ts : List Token} (h : tokenize s = .ok ts) :
    ∀ t ∈ ts, t.Spelled := by
  unfold tokenize at h
  obtain ⟨⟨st, line⟩, hrun, h⟩ := bind_eq_ok.1 h
  have hrounds : ∀ {done l rest : List Char} {st : LexState}, LineAt s done l rest → st.Spelled →
      RoundKeeps s (fun _ => True) (fun _ => LexState.Spelled) done l st :=
    fun hat hb => roundKeeps_of_state (startLine_spelled hb) (scanStep_spelled hat.split)
  exact finish_spelled ((lineLoop_endsIn hrounds (splitLines_lines s) (by simp) (.inl rfl)
    LexState.Spelled.init).of_eq_ok hrun) h

end Lexer

end FeParser
