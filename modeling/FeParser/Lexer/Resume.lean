import FeParser.Lexer.BlankLine

/-!
# The lexer resumes at a line boundary

From one line to the next `tokenize` carries its state in `LexState`: the indentation stack,
the counter of open brackets, the backslash flag, and the pattern and start of an open string.
After a prefix `p` of whole lines at which no string is open, that state is all the run on
`p ++ q` keeps of `p`. The run over the lines of `p` reads nothing past `p`
(`lineLoop_prefix`), and the rest of the run reads the lines of `q`, moved by the length of
`p`, through offsets only (`lineLoop_moves`, `finish_moves`). So the tokens of `p ++ q` are
the tokens of the lines of `p`, followed by those of a run on `q` alone resumed from that
state (`resume`), moved by the length of `p`; and the run on `p ++ q` fails exactly where the
resumed run does, its offset moved as well.

`tokenize q` itself is `resume` from the initial state.

## Main results

* `tokenize_resume`: the run on `p ++ q` is the run over the lines of `p`, then the run on `q`
  resumed from the state it left, moved.
-/

namespace FeParser

namespace Lexer

/-- The rest of a run of `tokenize` on `q`, from a state `st` of the line loop and the last
line it read: the loop over the lines of `q`, then the tokens after the last line. -/
def resume (q : List Char) (st : LexState) (last : List Char) : Except LexStop (List Token) := do
  let (st, line) ← lineLoop q (linesWithEndings q) st last
  finish q st line

/-- `tokenize q` is `resume` from the initial state, before any line. -/
theorem tokenize_eq_resume (q : List Char) : tokenize q = resume q LexState.init [] := rfl

variable {p q : List Char}

/-- A token of the run on `p ++ q` related to one of the run on `q` is that token moved by the
length of `p`. -/
theorem relToken_append {preX preY : List Token} {t' t : Token}
    (h : Move.RelToken ⟨p ++ q, q, utf8Len p, 0, preX, preY⟩ t' t) : t' = t.shift (utf8Len p) := by
  obtain ⟨-, hs, rfl⟩ := h
  have := @sourceText_insert [] p q t.span.start t.span.end (Nat.zero_le _)
  simp only [List.nil_append] at this
  simp only [Token.shift, this, ← hs]

/-- The lines of `p ++ q`, for `p` empty or ending with a line terminator: those of `p`, then
those of `q` moved by the length of `p`. -/
theorem linesWithEndings_append (hp : p = [] ∨ p.getLast? = some '\n') :
    linesWithEndings (p ++ q) =
      linesWithEndings p ++ (linesWithEndings q).map (lineShift (utf8Len p)) := by
  simp only [linesWithEndings, (splitLines_append q hp).1, withOffsets_append, flatten_splitLines,
    Nat.zero_add]
  simpa using withOffsets_add 0 (utf8Len p) (splitLines q)

/-- The run on `p ++ q` side by side with the run on `q` resumed where the lines of `p` left
the lexer: the same outcome, with the tokens of `p` first and every offset read from `q` moved
by the length of `p`. -/
theorem tokenize_append_moves {st : LexState} {last : List Char}
    (hp : p = [] ∨ p.getLast? = some '\n')
    (hrun : lineLoop p (linesWithEndings p) LexState.init [] = .ok (st, last))
    (hs : st.contstrStart = none) :
    Moves (utf8Len p) (Move.RelResult ⟨p ++ q, q, utf8Len p, 0, st.result, []⟩)
      (tokenize (p ++ q)) (resume q { st with result := [] } last) := by
  -- the lines of `p` end with their terminator, so the loop goes on past them
  have hnl : ∀ x ∈ linesWithEndings p, '\n' ∈ x.1 := fun x hx =>
    List.mem_of_getLast?_eq_some ((splitLines_append [] hp).2 _ (mem_withOffsets hx).1)
  have hrel : Move.RelState ⟨p ++ q, q, utf8Len p, 0, st.result, []⟩ st { st with result := [] } :=
    ⟨st.result, (LexState.moveTo_of_none _ _ _ hs).symm, ⟨[], [], by simp, by simp, .nil⟩,
      by simp [hs]⟩
  unfold tokenize resume
  rw [linesWithEndings_append hp, lineLoop_append hnl, lineLoop_prefix q, hrun, ok_bind]
  refine Moves.bind (lineLoop_moves _ _ _ hrel fun _ _ => Nat.zero_le _) ?_
  rintro ⟨sx, lx⟩ ⟨sy, ly⟩ ⟨h, hl⟩
  exact finish_moves h (by simp only [utf8Len_append]; omega) (Nat.zero_le _)
    (.inl (hl.elim id fun h => h.1.trans h.2.symm))

/-- The lexer resumes at a line boundary. After a prefix `p` of whole lines at which no string
is open, where the run over the lines of `p` left the state `st`, the run on `p ++ q` succeeds
exactly when the run on `q` alone resumed from `st` does: its tokens are those of `p`, then
those of the resumed run moved by the length of `p`; and where the resumed run stops, the run
on `p ++ q` stops the same way, with the offset of an error moved by the length of `p`. -/
theorem tokenize_resume {st : LexState} {last : List Char} (hp : p = [] ∨ p.getLast? = some '\n')
    (hrun : lineLoop p (linesWithEndings p) LexState.init [] = .ok (st, last))
    (hs : st.contstrStart = none) :
    (∀ ts, resume q { st with result := [] } last = .ok ts →
      tokenize (p ++ q) = .ok (st.result ++ ts.map (Token.shift (utf8Len p)))) ∧
    ∀ e, resume q { st with result := [] } last = .error e →
      tokenize (p ++ q) = .error (e.relocate (utf8Len p)) := by
  have hmoves := tokenize_append_moves (q := q) hp hrun hs
  refine ⟨fun ts hts => ?_, fun e he => hmoves.of_error he⟩
  obtain ⟨all, hall, tx, ty, rfl, hty, hf⟩ := hmoves.of_ok hts
  rw [List.nil_append] at hty
  subst hty
  rw [hall, Move.map_of_relTokens (P := fun _ => True) (fun _ _ h _ => relToken_append h) hf
    fun _ _ => trivial]

/-- The body of an `if` block lexed on its own, resumed from the state after the header line: the
tokens of the whole source are the header's, then the body's moved past the header. -/
theorem tokenize_resume_ifBlock :
    ∃ st last, ("if x:\n".toList = [] ∨ "if x:\n".toList.getLast? = some '\n') ∧
      lineLoop "if x:\n".toList (linesWithEndings "if x:\n".toList) LexState.init [] =
        .ok (st, last) ∧ st.contstrStart = none ∧
      (∀ ts, resume "  y\n".toList { st with result := [] } last = .ok ts →
        tokenize ("if x:\n".toList ++ "  y\n".toList) =
          .ok (st.result ++ ts.map (Token.shift (utf8Len "if x:\n".toList)))) ∧
      ∀ e, resume "  y\n".toList { st with result := [] } last = .error e →
        tokenize ("if x:\n".toList ++ "  y\n".toList) =
          .error (e.relocate (utf8Len "if x:\n".toList)) :=
  ⟨_, _, .inr rfl, rfl, rfl,
    @tokenize_resume "if x:\n".toList "  y\n".toList _ _ (.inr rfl) rfl rfl⟩

end Lexer

end FeParser
