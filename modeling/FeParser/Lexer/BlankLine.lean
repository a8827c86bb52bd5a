import FeParser.Lexer.Relocation
import FeParser.Lexer.Invariant

/-!
# Blank lines do not matter

A line of spaces, tabs and form feeds, perhaps with a comment, read at the start of a logical
line, gives a `Comment` and a `WhitespaceNewline` token and changes nothing else of the
lexer's state: not the indentation stack, not the brackets, not an open string. So inserting
such a line between two sources `p` and `q` changes the run on `p ++ q` only by those tokens,
and by moving what comes from `q` by the length of the line.

The proof splits the run at the inserted line. Before it, the run over `p`'s lines reads
nothing past `p` (`lineLoop_prefix`), so both runs reach the same state. The line itself only
adds its two tokens (`startLine_blank`). After it, the run over `q`'s lines in `p ++ b ++ q`
is the run in `p ++ q` moved by the length of `b` (`lineLoop_moves`, `finish_moves`).

## Main results

* `lineLoop_prefix`: the run over the lines of `p` does not depend on what follows `p`.
* `tokenize_insert_moves`: inserting a line that only adds tokens, read where no string is
  open, moves the outcome of the run on `p ++ q` by its length.
* `tokenize_blank_line_invisible`: inserting a blank or comment line at the start of a
  logical line changes the outcome only by moving what follows it.
-/

namespace FeParser

namespace Lexer

open Pattern

/-! ### The line loop -/

section Loop

variable {input : List Char}

/-- The loop stops only at a line of whitespace with no terminator. -/
theorem startLine_ne_stop {line : List Char} {st st' : LexState} {ls le : Nat}
    (hn : '\n' ∈ line) : startLine input st line ls le ≠ .ok (.stop st') := by
  intro h
  unfold startLine at h
  split at h
  · unfold continueString at h
    obtain ⟨endRe, -, h⟩ := bind_eq_ok.1 h
    split at h
    · cases h
    · split_ifs at h <;> cases h
  split_ifs at h
  · unfold startLogicalLine at h
    obtain ⟨ws, rest, rfl, hws, hpos⟩ := measure_spec line 0 0
    rcases hm : measure (ws ++ rest) 0 0 with ⟨column, linePos⟩
    rw [hm] at h hpos
    dsimp only at h hpos
    split_ifs at h with hend
    · -- the line is whitespace to its end, and has no terminator
      obtain rfl : rest = [] := utf8Len_eq_zero.1 (by simp at hend; omega)
      have := hws _ (by simpa using hn)
      simp [isWhitespace] at this
    · simp only [pure_bind] at h
      obtain ⟨_, -, h⟩ := bind_eq_ok.1 h
      obtain ⟨_, -, h⟩ := bind_eq_ok.1 h
      split_ifs at h
      · obtain ⟨_, -, h⟩ := bind_eq_ok.1 h
        cases h
      · cases h
      · obtain ⟨_, -, h⟩ := bind_eq_ok.1 h
        cases h
  · cases h

/-- The loop over lines that all end with their terminator goes on to the lines after them. -/
theorem lineLoop_append {L₂ : List (List Char × Nat × Nat)} :
    ∀ {L₁ : List (List Char × Nat × Nat)} {st : LexState} {l : List Char},
      (∀ x ∈ L₁, '\n' ∈ x.1) →
      lineLoop input (L₁ ++ L₂) st l = lineLoop input L₁ st l >>= fun r => lineLoop input L₂ r.1 r.2
  | [], _, _, _ => rfl
  | (line, ls, le) :: L₁, st, l, hn => by
    have ih : ∀ st l, lineLoop input (L₁ ++ L₂) st l =
        lineLoop input L₁ st l >>= fun r => lineLoop input L₂ r.1 r.2 :=
      fun _ _ => lineLoop_append fun x hx => hn x (List.mem_cons_of_mem _ hx)
    simp only [List.cons_append, lineLoop, bind_assoc, List.append_eq]
    rcases hs : startLine input st line ls le with e | (⟨st', lp⟩ | st' | st')
    · rfl
    · simp only [ok_bind, bind_assoc, ih]
    · simp only [ok_bind, ih]
    · exact absurd hs (startLine_ne_stop (hn _ (List.mem_cons_self _ _)))

/-- The last line the loop reads is one of its lines, or the one it started with. -/
theorem lineLoop_last :
    ∀ {L : List (List Char × Nat × Nat)} {st st' : LexState} {l l' : List Char},
      lineLoop input L st l = .ok (st', l') → l' = l ∨ ∃ x ∈ L, l' = x.1
  | [], _, _, _, _, h => by
    cases h
    exact .inl rfl
  | (line, ls, le) :: L, st, st', l, l', h => by
    have ih : ∀ {st'' : LexState}, lineLoop input L st'' line = .ok (st', l') →
        l' = l ∨ ∃ x ∈ (line, ls, le) :: L, l' = x.1 := fun h =>
      (lineLoop_last h).elim (fun e => .inr ⟨_, List.mem_cons_self _ _, e⟩)
        fun ⟨x, hx, e⟩ => .inr ⟨x, List.mem_cons_of_mem _ hx, e⟩
    simp only [lineLoop] at h
    obtain ⟨r, -, h⟩ := bind_eq_ok.1 h
    cases r with
    | scan _ _ =>
      obtain ⟨_, -, h⟩ := bind_eq_ok.1 h
      exact ih h
    | next _ => exact ih h
    | stop _ =>
      cases h
      exact .inr ⟨_, List.mem_cons_self _ _, rfl⟩

/-- Counting the offsets of lines from `n + d` moves each line of the count from `n` by `d`. -/
theorem withOffsets_add (n d : Nat) (L : List (List Char)) :
    withOffsets (n + d) L = (withOffsets n L).map (lineShift d) := by
  induction L generalizing n with
  | nil => rfl
  | cons l L ih =>
    rw [withOffsets, withOffsets, List.map_cons, ← ih, Nat.add_right_comm]
    rfl

end Loop

/-! ### The lines before the insertion -/

section Prefix

variable {p : List Char}

/-- A token of the run on `p ++ r` related at distance zero to one of the run on `p` that ends
within `p` is that token. -/
theorem relToken_prefix {r : List Char} {preX preY : List Token} {t' t : Token}
    (h : Move.RelToken ⟨p ++ r, p, 0, 0, preX, preY⟩ t' t) (hend : t.span.end ≤ utf8Len p) :
    t' = t := by
  obtain ⟨-, hs, rfl⟩ := h
  simp only [Nat.add_zero, sourceText_append_of_le r hend, ← hs]

/-- The tokens of the run over the lines of `p` end within `p`. -/
theorem lineLoop_end_le {st : LexState} {last : List Char}
    (hrun : lineLoop p (linesWithEndings p) LexState.init [] = .ok (st, last)) :
    ∀ t ∈ st.result, t.span.end ≤ utf8Len p := by
  have hinv : st.Inv p (utf8Len p) := lineLoop_inv hrun
  exact fun t ht => (hinv.covers.end_le t ht).trans hinv.pending_le

/-- The run over the lines of `p` reads nothing past `p`: the tokens it makes end within `p`,
so the text after `p` changes none of them. -/
theorem lineLoop_prefix (r : List Char) :
    lineLoop (p ++ r) (linesWithEndings p) LexState.init [] =
      lineLoop p (linesWithEndings p) LexState.init [] := by
  have hmoves := @lineLoop_moves ⟨p ++ r, p, 0, 0, [], []⟩ (linesWithEndings p) LexState.init
    LexState.init [] [] ⟨[], rfl, ⟨[], [], rfl, rfl, .nil⟩, fun _ h => by cases h⟩
    fun _ _ => Nat.zero_le _
  rw [lineShift_zero, List.map_id] at hmoves
  rcases hrun : lineLoop p (linesWithEndings p) LexState.init [] with e | ⟨st, last⟩
  · rw [hmoves.of_error hrun, LexStop.relocate_zero]
  · obtain ⟨⟨sx, lx⟩, hx, ⟨res, hsx, ⟨tx, ty, htx, hty, hf⟩, -⟩, hl⟩ := hmoves.of_ok hrun
    dsimp only at hsx htx hty hl
    rw [List.nil_append] at htx hty
    have htxy : tx = ty := by
      simpa using Move.map_of_relTokens (f := id) (fun _ _ h hP => relToken_prefix h hP) hf
        (hty ▸ lineLoop_end_le hrun)
    obtain rfl : lx = last := hl.elim id fun h => h.1.trans h.2.symm
    rw [hx, hsx, htx, htxy, ← hty, LexState.moveTo_self]

end Prefix

/-! ### The inserted line -/

section Blank

variable {input : List Char}

/-- The measuring loop passes over leading whitespace. -/
theorem measure_append_whitespace {ws : List Char} (hws : ∀ x ∈ ws, isWhitespace x)
    (rest : List Char) :
    ∀ column pos, ∃ column', measure (ws ++ rest) column pos = measure rest column' (pos + utf8Len ws) := by
  induction ws with
  | nil => exact fun column _ => ⟨column, rfl⟩
  | cons x ws ih =>
    intro column pos
    obtain ⟨c', hc'⟩ : ∃ c', measure (x :: (ws ++ rest)) column pos =
        measure (ws ++ rest) c' (pos + x.utf8Size) := by
      have hx := hws x (List.mem_cons_self _ _)
      simp only [isWhitespace, Bool.or_eq_true, decide_eq_true_eq] at hx
      rcases hx with (rfl | rfl) | rfl
      exacts [⟨_, rfl⟩, ⟨_, rfl⟩, ⟨_, rfl⟩]
    obtain ⟨c'', h''⟩ := ih (fun y hy => hws y (List.mem_cons_of_mem _ hy)) c' (pos + x.utf8Size)
    exact ⟨c'', by rw [List.cons_append, hc', h'', utf8Len_cons, Nat.add_assoc]⟩

/-- A line of whitespace, perhaps with a comment, at the start of a logical line gives its
`Comment` and `WhitespaceNewline` tokens, and leaves the rest of the state as it was. -/
theorem startLine_blank {ws c : List Char} {st : LexState} {ls le : Nat}
    (hst : st.parenlev = 0 ∧ st.continued = false ∧ st.contstrStart = none)
    (hws : ∀ x ∈ ws, isWhitespace x) (hc : c = [] ∨ c.head? = some '#' ∧ '\n' ∉ c) :
    ∃ B, (∀ t ∈ B, t.kind = .comment ∨ t.kind = .whitespaceNewline) ∧
      startLine input st (ws ++ c ++ ['\n']) ls le =
        .ok (.next { st with result := st.result ++ B }) := by
  obtain ⟨hp, hcont, hs⟩ := hst
  have hstart : startLine input st (ws ++ c ++ ['\n']) ls le =
      startLogicalLine input st (ws ++ c ++ ['\n']) ls le := by
    simp [startLine, hs, hp, hcont]
  obtain ⟨column, hm⟩ := measure_append_whitespace hws (c ++ ['\n']) 0 0
  rw [hstart, startLogicalLine, List.append_assoc, hm, Nat.zero_add]
  rcases hc with rfl | ⟨hc, hn⟩
  · -- a blank line
    refine ⟨[⟨.whitespaceNewline, sourceText input (ls + utf8Len ws) le, ⟨ls + utf8Len ws, le⟩⟩],
      by simp, ?_⟩
    simp [measure, unwrap, LexState.push, (Char.utf8Size_pos _).ne']
    rfl
  · -- a comment line
    obtain ⟨c', rfl⟩ : ∃ c', c = '#' :: c' := by
      cases c with
      | nil => cases hc
      | cons x c' => cases hc; exact ⟨c', rfl⟩
    obtain ⟨n, hn⟩ : ∃ n, utf8Len (rstripSlice ('#' :: (c' ++ ['\n'])) ['\r', '\n']) = n :=
      ⟨_, rfl⟩
    refine ⟨[⟨.comment, sourceText input (ls + utf8Len ws) (ls + utf8Len ws + n),
      ⟨ls + utf8Len ws, ls + utf8Len ws + n⟩⟩, ⟨.whitespaceNewline,
      sourceText input (ls + (utf8Len ws + n)) le, ⟨ls + (utf8Len ws + n), le⟩⟩], by simp, ?_⟩
    simp [measure, unwrap, LexState.push, (Char.utf8Size_pos _).ne', hn]

end Blank

/-! ### The insertion -/

section Insert

variable {p q : List Char}

/-- The lines of `p ++ b ++ q`, for `p` and the line `b` ending with their terminators: those
of `p`, then `b`, then those of `q` moved by the length of `b`. -/
theorem linesWithEndings_insert {b : List Char} (hp : p = [] ∨ p.getLast? = some '\n')
    (hb : b.getLast? = some '\n') (hline : splitLines b = [b]) :
    linesWithEndings (p ++ b ++ q) = linesWithEndings p ++ (b, utf8Len p, utf8Len p + utf8Len b) ::
        (withOffsets (utf8Len p) (splitLines q)).map (lineShift (utf8Len b)) ∧
      linesWithEndings (p ++ q) = linesWithEndings p ++ withOffsets (utf8Len p) (splitLines q) := by
  simp only [linesWithEndings, List.append_assoc, (splitLines_append _ hp).1,
    (splitLines_append q (.inr hb)).1, hline, withOffsets_append, flatten_splitLines, Nat.zero_add,
    List.singleton_append, withOffsets, withOffsets_add, and_self]

/-- A token of the run on `p ++ b ++ q` related to one of the run on `p ++ q` from `p` on is
that token moved by the length of `b`. -/
theorem relToken_insert {b : List Char} {preX preY : List Token} {t' t : Token}
    (h : Move.RelToken ⟨p ++ b ++ q, p ++ q, utf8Len b, utf8Len p, preX, preY⟩ t' t) :
    t' = t.shift (utf8Len b) := by
  obtain ⟨hlo, hs, rfl⟩ := h
  simp only [Token.shift, sourceText_insert b q hlo, ← hs]

/-- The tokens `get_parse_tokens` keeps: all but `Comment` and `WhitespaceNewline`. -/
def keptByParser (t : Token) : Bool :=
  match t.kind with
  | .comment | .whitespaceNewline => false
  | _ => true

/-- `get_parse_tokens` is the filter of `keptByParser` over the tokens of a successful run. -/
theorem getParseTokens_eq (s : List Char) :
    getParseTokens s = (tokenize s).map (List.filter keptByParser) := rfl

/-- The run on `p ++ b ++ q`, where the line `b` after `p` only adds the tokens `B` to the
state, is the run on `p ++ q` with `B` after the tokens of `p`, and the rest moved by the
length of `b`. -/
theorem tokenize_insert_moves {b : List Char} {st : LexState} {last : List Char} {B : List Token}
    (hp : p = [] ∨ p.getLast? = some '\n')
    (hrun : lineLoop p (linesWithEndings p) LexState.init [] = .ok (st, last))
    (hs : st.contstrStart = none) (hb : b.getLast? = some '\n') (hline : splitLines b = [b])
    (hblank : startLine (p ++ b ++ q) st b (utf8Len p) (utf8Len p + utf8Len b) =
      .ok (.next { st with result := st.result ++ B })) :
    Moves (utf8Len b) (Move.RelResult ⟨p ++ b ++ q, p ++ q, utf8Len b, utf8Len p, st.result ++ B,
      st.result⟩) (tokenize (p ++ b ++ q)) (tokenize (p ++ q)) := by
  obtain ⟨hX, hY⟩ := linesWithEndings_insert (q := q) hp hb hline
  -- the lines of `p`, and so the last line its run reads, end with their terminator
  have hlines : ∀ x ∈ linesWithEndings p, x.1.getLast? = some '\n' := fun _ hx =>
    (splitLines_append [] hp).2 _ (mem_withOffsets hx).1
  have hlast : last = [] ∨ last.getLast? = some '\n' :=
    (lineLoop_last hrun).elim .inl fun ⟨x, hx, e⟩ => .inr (e ▸ hlines x hx)
  have hnl : ∀ x ∈ linesWithEndings p, '\n' ∈ x.1 := fun x hx =>
    List.mem_of_getLast?_eq_some (hlines x hx)
  have hpre := lineLoop_prefix (p := p) (b ++ q)
  rw [← List.append_assoc] at hpre
  have hrel : Move.RelState ⟨p ++ b ++ q, p ++ q, utf8Len b, utf8Len p, st.result ++ B, st.result⟩
      { st with result := st.result ++ B } st :=
    ⟨st.result ++ B, (LexState.moveTo_of_none _ _ _ hs).symm, ⟨[], [], by simp, by simp, .nil⟩,
      by simp [hs]⟩
  -- both runs reach the same state after `p`; the run on `p ++ b ++ q` then reads `b`
  unfold tokenize
  rw [hX, hY, lineLoop_append hnl, lineLoop_append hnl, hpre, lineLoop_prefix q, hrun, ok_bind,
    ok_bind]
  simp only [lineLoop, hblank, ok_bind]
  refine Moves.bind (lineLoop_moves _ _ _ hrel fun x hx => (mem_withOffsets hx).2) ?_
  rintro ⟨sx, lx⟩ ⟨sy, ly⟩ ⟨h, hl⟩
  exact finish_moves h (by simp only [utf8Len_append]; omega) (by simp)
    (hl.elim .inl fun h => .inr ⟨h.1 ▸ .inr hb, h.2 ▸ hlast⟩)

/-- A line of spaces, tabs and form feeds, perhaps followed by a comment, inserted after `p`
where the lexer is at the start of a logical line, changes nothing the parser reads but
offsets. The line's own tokens are a `Comment` and a `WhitespaceNewline`, and it leaves the
indentation stack and the rest of the state as it found them; the source tokenizes exactly
when it did without the line; the tokens from `p` stay as they were and those from `q` move by
the length of the line; and so does the offset of an error. -/
theorem tokenize_blank_line_invisible {ws c : List Char} {st : LexState} {last : List Char}
    (hp : p = [] ∨ p.getLast? = some '\n')
    (hrun : lineLoop p (linesWithEndings p) LexState.init [] = .ok (st, last))
    (hst : st.parenlev = 0 ∧ st.continued = false ∧ st.contstrStart = none)
    (hws : ∀ x ∈ ws, isWhitespace x) (hc : c = [] ∨ c.head? = some '#' ∧ '\n' ∉ c) :
    (∃ B, (∀ t ∈ B, t.kind = .comment ∨ t.kind = .whitespaceNewline) ∧
      startLine (p ++ (ws ++ c ++ ['\n']) ++ q) st (ws ++ c ++ ['\n']) (utf8Len p)
        (utf8Len p + utf8Len (ws ++ c ++ ['\n'])) =
        .ok (.next { st with result := st.result ++ B })) ∧
    ((∃ ts, tokenize (p ++ (ws ++ c ++ ['\n']) ++ q) = .ok ts) ↔ ∃ ts, tokenize (p ++ q) = .ok ts) ∧
    (∀ ts, getParseTokens (p ++ q) = .ok ts → ∃ P Q, ts = P ++ Q ∧
      (∀ t ∈ P, t.span.end ≤ utf8Len p) ∧ (∀ t ∈ Q, utf8Len p ≤ t.span.start) ∧
      getParseTokens (p ++ (ws ++ c ++ ['\n']) ++ q) =
        .ok (P ++ Q.map (Token.shift (utf8Len (ws ++ c ++ ['\n']))))) ∧
    (∀ e, tokenize (p ++ q) = .error e →
      tokenize (p ++ (ws ++ c ++ ['\n']) ++ q) = .error (e.relocate (utf8Len (ws ++ c ++ ['\n'])))) := by
  obtain ⟨B, hB, hblank⟩ := @startLine_blank (p ++ (ws ++ c ++ ['\n']) ++ q) ws c st (utf8Len p)
    (utf8Len p + utf8Len (ws ++ c ++ ['\n'])) hst hws hc
  have hbody : '\n' ∉ ws ++ c := by
    rw [List.mem_append, not_or]
    refine ⟨fun h => by simpa [isWhitespace] using hws _ h, fun h => ?_⟩
    rcases hc with rfl | ⟨-, hn⟩
    · exact nomatch h
    · exact hn h
  have hmoves := tokenize_insert_moves hp hrun hst.2.2 (by simp) (splitLines_line hbody) hblank
  refine ⟨⟨B, hB, hblank⟩, hmoves.ok_iff, fun ts hts => ?_, fun e he => hmoves.of_error he⟩
  -- the parser's tokens: those of `p`, then those of `q`, moved; the line's own are dropped
  rw [getParseTokens_eq] at hts
  obtain ⟨all, hall, rfl⟩ : ∃ all, tokenize (p ++ q) = .ok all ∧ ts = all.filter keptByParser := by
    cases h : tokenize (p ++ q) with
    | error e => rw [h] at hts; cases hts
    | ok all => rw [h] at hts; cases hts; exact ⟨all, rfl, rfl⟩
  obtain ⟨allX, hallX, tx, ty, rfl, rfl, hf⟩ := hmoves.of_ok hall
  have htx : tx = ty.map (Token.shift (utf8Len (ws ++ c ++ ['\n']))) :=
    Move.map_of_relTokens (P := fun _ => True) (fun _ _ h _ => relToken_insert h) hf fun _ _ => trivial
  have hBkept : B.filter keptByParser = [] := List.filter_eq_nil_iff.2 fun t ht => by
    rcases hB t ht with h | h <;> simp [keptByParser, h]
  refine ⟨st.result.filter keptByParser, ty.filter keptByParser, List.filter_append _ _,
    fun t ht => lineLoop_end_le hrun t (List.mem_filter.1 ht).1,
    fun t ht => Move.relTokens_lo_le hf t (List.mem_filter.1 ht).1, ?_⟩
  rw [getParseTokens_eq, hallX, htx]
  simp only [Except.map, List.filter_append, hBkept, List.append_nil, List.filter_map]
  rfl

/-- The header of a block, after which the lexer is at the start of a logical line. -/
def ifHeader : List Char := "if x:\n".toList

/-- A comment line, indented, inside an `if` block: the run on the source with it fails exactly when
the run without it does, and the parser sees the same tokens, moved past the line. -/
theorem tokenize_blank_line_invisible_ifBlock :
    ∃ st last, (ifHeader = [] ∨ ifHeader.getLast? = some '\n') ∧
      lineLoop ifHeader (linesWithEndings ifHeader) LexState.init [] = .ok (st, last) ∧
      (st.parenlev = 0 ∧ st.continued = false ∧ st.contstrStart = none) ∧
      (∀ x ∈ "  ".toList, isWhitespace x) ∧
      ("# note".toList = [] ∨ "# note".toList.head? = some '#' ∧ '\n' ∉ "# note".toList) ∧
      (∃ B, (∀ t ∈ B, t.kind = .comment ∨ t.kind = .whitespaceNewline) ∧
        startLine (ifHeader ++ ("  ".toList ++ "# note".toList ++ ['\n']) ++ "  y\n".toList) st
          ("  ".toList ++ "# note".toList ++ ['\n']) (utf8Len ifHeader)
          (utf8Len ifHeader + utf8Len ("  ".toList ++ "# note".toList ++ ['\n'])) =
          .ok (.next { st with result := st.result ++ B })) ∧
      ((∃ ts, tokenize (ifHeader ++ ("  ".toList ++ "# note".toList ++ ['\n']) ++ "  y\n".toList) =
          .ok ts) ↔ ∃ ts, tokenize (ifHeader ++ "  y\n".toList) = .ok ts) ∧
      (∀ ts, getParseTokens (ifHeader ++ "  y\n".toList) = .ok ts → ∃ P Q, ts = P ++ Q ∧
        (∀ t ∈ P, t.span.end ≤ utf8Len ifHeader) ∧ (∀ t ∈ Q, utf8Len ifHeader ≤ t.span.start) ∧
        getParseTokens (ifHeader ++ ("  ".toList ++ "# note".toList ++ ['\n']) ++ "  y\n".toList) =
          .ok (P ++ Q.map (Token.shift (utf8Len ("  ".toList ++ "# note".toList ++ ['\n']))))) ∧
      (∀ e, tokenize (ifHeader ++ "  y\n".toList) = .error e →
        tokenize (ifHeader ++ ("  ".toList ++ "# note".toList ++ ['\n']) ++ "  y\n".toList) =
          .error (e.relocate (utf8Len ("  ".toList ++ "# note".toList ++ ['\n'])))) :=
  ⟨_, _, .inr rfl, rfl, ⟨rfl, rfl, rfl⟩, by decide, .inr ⟨rfl, by decide⟩,
    tokenize_blank_line_invisible (.inr rfl) rfl ⟨rfl, rfl, rfl⟩ (by decide) (.inr ⟨rfl, by decide⟩)⟩

end Insert

end Lexer

end FeParser
