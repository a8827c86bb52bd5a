import FeParser.Lexer.Run
import FeParser.Lexer.Stream

/-!
# The indentation stack

`tokenize` keeps the columns of the open indentation levels in `indents`: `0` at the bottom,
then one entry per open level, each deeper than the one below. Every `Indent` it emits pushes
a level and every `Dedent` inside the line loop pops one, so the `Indent` tokens so far
outnumber the `Dedent` tokens by the levels open above the bottom. `Indented` is that
invariant, over the stack and the tokens so far.

Each step of the line loop keeps it: the start of a line (`startLine_indented`) with the
dedent loop inside it (`dedentLoop_indented`), and each pass of the in-line scan, which
leaves the stack alone and adds no `Indent` or `Dedent` (`scanStep_keeps`). After the unindent
check of a logical line the top of the stack is the line's column (`indentLine_top`): the
check lets through only a column on the stack, and the dedent loop pops exactly the deeper
levels.

The model keeps the stack top first: Rust's `indents[0]` is the last entry, and the vector,
increasing from its bottom, is a list decreasing from its head.

## Main results

* `tokenize_indents_invariant`: `Indented` holds at the start, every step of the line loop
  keeps it, so it holds after every line of every run; and a logical line that passes the
  unindent check leaves its column on top.
* `eofDedents_keep_indents`: the `Dedent`s after the last line are pushed without popping
  the stack, so there the count of open levels and the stack part ways.
-/

namespace FeParser

namespace Lexer

/-- The invariant of the indentation stack `indents` (top first) and the tokens so far
`result`: the stack is not empty, its bottom is `0`, it is strictly increasing from the
bottom, and the `Indent` tokens outnumber the `Dedent` tokens by the entries above the
bottom. -/
structure Indented (indents : List Nat) (result : List Token) : Prop where
  ne_nil : indents ≠ []
  bottom : indents.getLast? = some 0
  increasing : indents.Sorted (· > ·)
  balance : indentCount result = dedentCount result + (indents.length - 1)

/-- The indentation invariant of a state. -/
def LexState.Indented (st : LexState) : Prop := Lexer.Indented st.indents st.result

/-! ### What keeps the invariant -/

section Keep

variable {indents : List Nat} {result : List Token}

/-- The initial state, with the stack `[0]` and no tokens, has the invariant. -/
theorem Indented.init : LexState.init.Indented :=
  ⟨List.cons_ne_nil _ _, rfl, List.sorted_singleton _, rfl⟩

/-- A token that neither opens nor closes a level. -/
theorem Indented.push (h : Indented indents result) {t : Token} (hi : t.kind ≠ .indent)
    (hd : t.kind ≠ .dedent) : Indented indents (result ++ [t]) :=
  ⟨h.ne_nil, h.bottom, h.increasing, by simp [hi, hd, h.balance]⟩

/-- An `Indent` with a column deeper than the top pushed on the stack. -/
theorem Indented.pushIndent {top column : Nat} {rest : List Nat} (h : Indented (top :: rest) result)
    (hc : top < column) {t : Token} (ht : t.kind = .indent) :
    Indented (column :: top :: rest) (result ++ [t]) where
  ne_nil := List.cons_ne_nil _ _
  bottom := by rw [List.getLast?_cons_cons]; exact h.bottom
  increasing := by
    refine List.sorted_cons.2 ⟨fun b hb => ?_, h.increasing⟩
    rcases List.mem_cons.1 hb with rfl | hb
    · exact hc
    · exact lt_trans (List.rel_of_sorted_cons h.increasing b hb) hc
  balance := by
    have := h.balance
    simp only [indentCount_append, dedentCount_append, indentCount_singleton,
      dedentCount_singleton, ht, List.length_cons] at this ⊢
    simp only [if_true, reduceCtorEq, if_false]
    omega

/-- A `Dedent` with the top popped, where a level lies below it. -/
theorem Indented.popDedent {top : Nat} {rest : List Nat} (h : Indented (top :: rest) result)
    (hne : rest ≠ []) {t : Token} (ht : t.kind = .dedent) : Indented rest (result ++ [t]) where
  ne_nil := hne
  bottom := by
    obtain ⟨b, rest, rfl⟩ := List.exists_cons_of_ne_nil hne
    rw [← List.getLast?_cons_cons]
    exact h.bottom
  increasing := (List.sorted_cons.1 h.increasing).2
  balance := by
    have hb := h.balance
    have := List.length_pos.2 hne
    simp only [indentCount_append, dedentCount_append, indentCount_singleton,
      dedentCount_singleton, ht, List.length_cons] at hb ⊢
    simp only [if_true, reduceCtorEq, if_false]
    omega

/-- Where the top of the stack is above a column, a level lies below the top. -/
theorem Indented.ne_nil_of_lt {top column : Nat} {rest : List Nat}
    (h : Indented (top :: rest) result) (hlt : column < top) : rest ≠ [] := by
  rintro rfl
  have := h.bottom
  simp only [List.getLast?_singleton, Option.some.injEq] at this
  omega

end Keep

/-! ### The dedent loop and the unindent check -/

section Dedent

variable {input : List Char} {column restOff : Nat}

/-- The dedent loop keeps the invariant: each `Dedent` it pushes pops a level above the bottom. -/
theorem dedentLoop_indented :
    ∀ {indents : List Nat} {result : List Token} {is : List Nat} {rs : List Token},
      Indented indents result → dedentLoop input column restOff indents result = .ok (is, rs) →
      Indented is rs
  | [], _, _, _, h, _ => absurd rfl h.ne_nil
  | top :: rest, result, is, rs, hind, h => by
    simp only [dedentLoop] at h
    split_ifs at h with hlt
    · exact dedentLoop_indented (hind.popDedent (hind.ne_nil_of_lt hlt) rfl) h
    · cases h
      exact hind

/-- The loop stops at a column on the stack, which is then the top. -/
theorem dedentLoop_top :
    ∀ {indents : List Nat} {result : List Token} {is : List Nat} {rs : List Token},
      indents.Sorted (· > ·) → column ∈ indents →
      dedentLoop input column restOff indents result = .ok (is, rs) → is.head? = some column
  | [], _, _, _, _, hmem, _ => absurd hmem (List.not_mem_nil _)
  | top :: rest, result, is, rs, hsort, hmem, h => by
    simp only [dedentLoop] at h
    split_ifs at h with hlt
    · have hrest : column ∈ rest := (List.mem_cons.1 hmem).resolve_left (by omega)
      exact dedentLoop_top (List.sorted_cons.1 hsort).2 hrest h
    · cases h
      rcases List.mem_cons.1 hmem with rfl | hmem
      · rfl
      · exact absurd (List.rel_of_sorted_cons hsort column hmem) hlt

variable {st st' : LexState} {lineStart : Nat}

/-- The indentation of a logical line keeps the invariant: an `Indent` pushes a deeper column, and
the dedent loop pops only levels above the bottom. -/
theorem indentLine_indented (hind : st.Indented)
    (h : indentLine input st column lineStart restOff = .ok st') : st'.Indented := by
  obtain ⟨top, rest, hst, -, ⟨hlt, hded⟩ | ⟨-, -, hded⟩⟩ := indentLine_eq_ok h
  · have hind' : Indented (top :: rest) st.result := hst ▸ hind
    exact dedentLoop_indented (hind'.pushIndent hlt rfl) hded
  · exact dedentLoop_indented (hst ▸ hind) hded

/-- A logical line that passes the unindent check leaves its column on top of the stack. -/
theorem indentLine_top (hind : st.Indented)
    (h : indentLine input st column lineStart restOff = .ok st') :
    st'.indents.head? = some column := by
  obtain ⟨top, rest, hst, -, ⟨hlt, hded⟩ | ⟨-, hmem, hded⟩⟩ := indentLine_eq_ok h
  · exact dedentLoop_top (((hst ▸ hind : Indented (top :: rest) st.result).pushIndent hlt
      (t := ⟨.indent, "", ⟨0, 0⟩⟩) rfl).increasing) (List.mem_cons_self _ _) hded
  · exact dedentLoop_top (hst ▸ hind.increasing) hmem hded

end Dedent

/-! ### Steps that leave the stack alone -/

section Frame

/-- `st'` has the stack of `st`, and its tokens are those of `st` and then some that neither
open nor close a level. -/
def LexState.Keeps (st st' : LexState) : Prop :=
  st'.indents = st.indents ∧
    ∃ ts, st'.result = st.result ++ ts ∧ indentCount ts = 0 ∧ dedentCount ts = 0

variable {input : List Char} {st st' st'' : LexState}

/-- A state with the same stack and tokens keeps them. -/
theorem LexState.Keeps.of_eq (hi : st'.indents = st.indents) (hr : st'.result = st.result) :
    st.Keeps st' :=
  ⟨hi, [], by simp [hr], rfl, rfl⟩

/-- Keeping the stack is transitive: the tokens of two steps that add no level add none together. -/
theorem LexState.Keeps.trans (h₁ : st.Keeps st') (h₂ : st'.Keeps st'') : st.Keeps st'' := by
  obtain ⟨hi₁, ts₁, hr₁, hc₁, hd₁⟩ := h₁
  obtain ⟨hi₂, ts₂, hr₂, hc₂, hd₂⟩ := h₂
  exact ⟨hi₂.trans hi₁, ts₁ ++ ts₂, by simp [hr₂, hr₁], by simp [hc₁, hc₂], by simp [hd₁, hd₂]⟩

/-- One token that neither opens nor closes a level. -/
theorem LexState.Keeps.of_push {t : Token} (hi : st'.indents = st.indents)
    (hr : st'.result = st.result ++ [t]) (hk : t.kind ≠ .indent) (hd : t.kind ≠ .dedent) :
    st.Keeps st' :=
  ⟨hi, [t], hr, by simp [hk], by simp [hd]⟩

/-- Then a token that neither opens nor closes a level. -/
theorem LexState.Keeps.push (h : st.Keeps st') {k : TokenKind} (hi : k ≠ .indent)
    (hd : k ≠ .dedent) (a b : Nat) : st.Keeps (st'.push input k a b) :=
  h.trans (.of_push rfl rfl hi hd)

/-- A step that keeps the stack and adds no `Indent` or `Dedent` keeps the invariant. -/
theorem LexState.Keeps.indented (h : st.Keeps st') (hind : Lexer.Indented st.indents st.result) :
    Lexer.Indented st'.indents st'.result := by
  obtain ⟨hi, ts, hr, hc, hd⟩ := h
  rw [hi, hr]
  exact ⟨hind.ne_nil, hind.bottom, hind.increasing, by simp [hc, hd, hind.balance]⟩

variable {line : List Char} {lineStart : Nat}

/-- A token of the scan neither opens nor closes a level. -/
theorem scanToken_keeps {tok : List Char} {initial : Char} {tokStart tokEnd : Nat} {r : ScanStep}
    (h : scanToken input line lineStart st tok initial tokStart tokEnd = .ok r) :
    st.Keeps r.state := by
  have hst : st.Keeps st := .of_eq rfl rfl
  unfold scanToken at h
  rcases ite_eq_iff.1 h with ⟨-, h⟩ | ⟨-, h⟩
  · cases h; exact hst.push (by simp) (by simp) _ _
  rcases ite_eq_iff.1 h with ⟨-, h⟩ | ⟨-, h⟩
  · cases h; exact hst.push (by split <;> simp) (by split <;> simp) _ _
  rcases ite_eq_iff.1 h with ⟨-, h⟩ | ⟨-, h⟩
  · cases h; exact hst.push (by simp) (by simp) _ _
  rcases ite_eq_iff.1 h with ⟨-, h⟩ | ⟨-, h⟩
  · dsimp only at h
    split at h <;> cases h
    · exact (LexState.Keeps.of_eq rfl rfl).push (by simp) (by simp) _ _
    · exact .of_eq rfl rfl
  rcases ite_eq_iff.1 h with ⟨-, h⟩ | ⟨-, h⟩
  · rcases ite_eq_iff.1 h with ⟨-, h⟩ | ⟨-, h⟩ <;> cases h
    · exact .of_eq rfl rfl
    · exact hst.push (by simp) (by simp) _ _
  rcases ite_eq_iff.1 h with ⟨-, h⟩ | ⟨-, h⟩
  · cases h; exact hst.push (by simp) (by simp) _ _
  rcases ite_eq_iff.1 h with ⟨-, h⟩ | ⟨-, h⟩
  · cases h; exact .of_eq rfl rfl
  obtain ⟨_, -, h⟩ := bind_eq_ok.1 h
  obtain ⟨k, hk, h⟩ := bind_eq_ok.1 h
  cases h
  obtain ⟨p, rfl⟩ : ∃ p, k = .punct p := by
    cases hk' : TokenKind.tryFrom ⟨tok⟩ with
    | none => simp [hk', unwrap] at hk
    | some k' => rw [hk'] at hk; cases hk; exact TokenKind.tryFrom_eq_some hk'
  exact (LexState.Keeps.of_eq rfl rfl).push (by simp) (by simp) _ _

/-- A pass of the scan keeps the stack and adds no `Indent` or `Dedent`. -/
theorem scanStep_keeps {linePos : Nat} {r : ScanStep}
    (h : scanStep input line lineStart st linePos = .ok r) : st.Keeps r.state := by
  unfold scanStep at h
  obtain ⟨rest, -, h⟩ := bind_eq_ok.1 h
  split at h
  · dsimp only at h
    split_ifs at h
    · cases h; exact .of_eq rfl rfl
    · rw [pure_bind] at h
      obtain ⟨_, -, h⟩ := bind_eq_ok.1 h
      obtain ⟨_, -, h⟩ := bind_eq_ok.1 h
      obtain ⟨_, -, h⟩ := bind_eq_ok.1 h
      exact scanToken_keeps h
  · cases h; exact (LexState.Keeps.of_eq rfl rfl).push (by simp) (by simp) _ _

/-- A line that continues an open string keeps the stack and adds no `Indent` or `Dedent`. -/
theorem continueString_keeps {c lineEnd : Nat} {r : LineStart}
    (h : continueString input st c line lineStart lineEnd = .ok r) : st.Keeps r.state := by
  unfold continueString at h
  obtain ⟨_, -, h⟩ := bind_eq_ok.1 h
  split at h
  · cases h; exact .of_push rfl rfl (by simp) (by simp)
  · split_ifs at h <;> cases h
    · exact .of_push rfl rfl (by simp) (by simp)
    · exact .of_eq rfl rfl

end Frame

/-! ### The line loop -/

section Loop

variable {input line : List Char} {lineStart lineEnd : Nat} {st : LexState}

/-- The start of a logical line keeps the invariant, through the indentation step or through the
tokens of a comment or blank line. -/
theorem startLogicalLine_indented {r : LineStart} (hind : st.Indented)
    (h : startLogicalLine input st line lineStart lineEnd = .ok r) : r.state.Indented := by
  have hst : st.Keeps st := .of_eq rfl rfl
  unfold startLogicalLine at h
  rcases measure line 0 0 with ⟨column, linePos⟩
  dsimp only at h
  split_ifs at h
  · cases h; exact hind
  simp only [pure_bind] at h
  obtain ⟨_, -, h⟩ := bind_eq_ok.1 h
  obtain ⟨ch, -, h⟩ := bind_eq_ok.1 h
  split_ifs at h
  · -- a comment line
    obtain ⟨_, -, h⟩ := bind_eq_ok.1 (by simpa only [ok_bind] using h)
    cases h
    exact ((hst.push (by simp) (by simp) _ _).push (by simp) (by simp) _ _).indented hind
  · -- a blank line
    cases h
    exact (hst.push (by simp) (by simp) _ _).indented hind
  · -- a logical line
    obtain ⟨st', hst', h⟩ := bind_eq_ok.1 (by simpa only [pure_bind] using h)
    cases h
    exact indentLine_indented hind hst'

/-- The top of the loop body keeps the invariant. -/
theorem startLine_indented {r : LineStart} (hind : st.Indented)
    (h : startLine input st line lineStart lineEnd = .ok r) : r.state.Indented := by
  unfold startLine at h
  split at h
  · exact (continueString_keeps h).indented hind
  · split_ifs at h
    · exact startLogicalLine_indented hind h
    · cases h; exact hind

end Loop

/-! ### The invariant of the line loop -/

/-- The indentation invariant of `tokenize` over its line loop: it holds before the first
line; the start of a line, each pass of the dedent loop inside it and each pass of the
in-line scan keep it; so it holds after every line of every run. A logical line that passes
the unindent check leaves its column on top of the stack. -/
theorem tokenize_indents_invariant :
    LexState.init.Indented ∧
    (∀ {input line : List Char} {lineStart lineEnd : Nat} {st : LexState} {r : LineStart},
      st.Indented → startLine input st line lineStart lineEnd = .ok r → r.state.Indented) ∧
    (∀ {input : List Char} {column restOff : Nat} {indents is : List Nat} {result rs : List Token},
      Indented indents result → dedentLoop input column restOff indents result = .ok (is, rs) →
      Indented is rs) ∧
    (∀ {input line : List Char} {lineStart linePos : Nat} {st : LexState} {r : ScanStep},
      st.Indented → scanStep input line lineStart st linePos = .ok r → r.state.Indented) ∧
    (∀ {s : List Char} {k : Nat} {st : LexState} {last : List Char},
      lineLoop s ((linesWithEndings s).take k) LexState.init [] = .ok (st, last) → st.Indented) ∧
    (∀ {input : List Char} {st st' : LexState} {column lineStart restOff : Nat},
      st.Indented → indentLine input st column lineStart restOff = .ok st' →
      st'.indents.head? = some column) :=
  ⟨Indented.init, startLine_indented, dedentLoop_indented,
    fun hind h => (scanStep_keeps h).indented hind,
    lineLoop_keeps startLine_indented (fun hind h => (scanStep_keeps h).indented hind) Indented.init,
    indentLine_top⟩

/-- The `Dedent`s after the last line are pushed without popping the stack: once the loop
over `indents[1..]` of `"if x:\n  y\n"` is done, one `Indent` and one `Dedent` have been
emitted while the stack still holds the level of `y`. -/
theorem eofDedents_keep_indents :
    ∃ st last st₁, lineLoop "if x:\n  y\n".toList (linesWithEndings "if x:\n  y\n".toList)
        LexState.init [] = .ok (st, last) ∧
      finalNewline "if x:\n  y\n".toList st last = .ok st₁ ∧
      let st' := eofDedents "if x:\n  y\n".toList st₁
      st'.indents = [2, 0] ∧ indentCount st'.result = 1 ∧ dedentCount st'.result = 1 :=
  ⟨_, _, _, rfl, rfl, rfl, rfl, rfl⟩

end Lexer

end FeParser
