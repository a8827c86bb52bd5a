import FeParser.Lexer.Run
import FeParser.Lexer.Stream

/-!
# The run invariant of `tokenize`

What holds of `tokenize`'s state at every line boundary, and after every pass of a line's
scan, once the source has been read up to byte `f` (`LexInv`): the tokens so far cover the
source up to `f` in the sense of `Covers`, except that from the start of an open multi-line
string on the text is pending, to be covered by the string's token once it closes; no token
is the end marker; every name token's symbol is its text; and the `Indent`/`Dedent` tokens so
far leave open as many levels as the indentation stack has entries above its bottom.

The invariant reads three fields of the state only, so the updates of `parenlev`,
`continued`, `contstr_end_re` and `needcont` keep it as they stand. Each function of the
lexer keeps it (`scanStep_inv`, `startLine_inv`, ...), so that a whole run does
(`lineLoop_inv`), and the tokens of a successful run, with the ones added after the last
line, satisfy the spec's invariants (`tokenize_inv`).

## Main results

* `tokenize_ends_with_endMarker_nested`: the stream ends with its only `EndMarker`, and its
  `Indent` and `Dedent` tokens nest and balance.
* `tokenize_covers_source`: the spans are well formed, in the source, in order and disjoint,
  and every byte outside them is a space, a tab, a form feed or part of a backslash line
  continuation.
-/

namespace FeParser

namespace Lexer

open Pattern

/-- A kind that neither opens nor closes an indentation level, does not end the stream, and
is not a name. -/
def Plain (k : TokenKind) : Prop := k ≠ .indent ∧ k ≠ .dedent ∧ k ≠ .endMarker ∧ ∀ n, k ≠ .name n

/-- Operators and punctuation are plain. -/
theorem plain_punct (p : Punct) : Plain (.punct p) := by simp [Plain]

/-- The invariant of a run that has read the source up to byte `f`, over the parts of the
state it reads: the tokens so far `result`, the indentation stack `indents`, and the start of
an open string, `pending`. -/
structure LexInv (input : List Char) (result : List Token) (indents : List Nat)
    (pending : Option Nat) (f : Nat) : Prop where
  covers : Covers input result (pending.getD f)
  pending_le : pending.getD f ≤ f
  noEndMarker : ∀ t ∈ result, t.kind ≠ .endMarker
  names : ∀ t ∈ result, ∀ n, t.kind = .name n → n = t.string
  nesting : Nesting result (indents.length - 1)

/-- The run invariant of a state. -/
def LexState.Inv (input : List Char) (st : LexState) (f : Nat) : Prop :=
  LexInv input st.result st.indents st.contstrStart f

/-! ### What keeps the invariant -/

section Keep

variable {input : List Char} {result : List Token} {indents : List Nat} {f : Nat}

/-- Before the first line nothing is read, no token is made, and the stack is `[0]`. -/
theorem LexInv.init : LexInv input [] [0] none 0 :=
  ⟨Covers.nil input, le_refl _, by simp, by simp, Nesting.nil⟩

/-- Passing over gap bytes moves the frontier without a token. -/
theorem LexInv.skip {g : Nat} (h : LexInv input result indents none f) (hfg : f ≤ g)
    (hs : Skips input f g) : LexInv input result indents none g :=
  ⟨h.covers.skip hfg hs, le_refl _, h.noEndMarker, h.names, h.nesting⟩

/-- A token from the frontier on that neither opens nor closes a level nor ends the stream,
and whose symbol, if it is a name, is its text. -/
theorem LexInv.pushText {a b : Nat} (h : LexInv input result indents none f) (ha : f = a)
    (hab : a ≤ b) {k : TokenKind} (hi : k ≠ .indent) (hd : k ≠ .dedent) (he : k ≠ .endMarker)
    {s : String} (hs : ∀ n, k = .name n → n = s) :
    LexInv input (result ++ [⟨k, s, ⟨a, b⟩⟩]) indents none b where
  covers := ha ▸ h.covers.push (ha ▸ hab) k s
  pending_le := le_refl _
  noEndMarker := List.forall_mem_append.2 ⟨h.noEndMarker, List.forall_mem_singleton.2 he⟩
  names := List.forall_mem_append.2 ⟨h.names, List.forall_mem_singleton.2 hs⟩
  nesting := h.nesting.push hi hd

/-- A plain token from the frontier on. -/
theorem LexInv.push {a b : Nat} (h : LexInv input result indents none f) (ha : f = a) (hab : a ≤ b)
    {k : TokenKind} (hk : Plain k) (s : String) :
    LexInv input (result ++ [⟨k, s, ⟨a, b⟩⟩]) indents none b :=
  h.pushText ha hab hk.1 hk.2.1 hk.2.2.1 fun n hn => absurd hn (hk.2.2.2 n)

/-- A name token from the frontier on, whose symbol is its text. -/
theorem LexInv.pushName {a b : Nat} (h : LexInv input result indents none f) (ha : f = a)
    (hab : a ≤ b) (s : String) :
    LexInv input (result ++ [⟨.name s, s, ⟨a, b⟩⟩]) indents none b :=
  h.pushText ha hab (by simp) (by simp) (by simp) fun _ hn => (TokenKind.name.inj hn).symm

/-- An open string holds the text from its start to any later frontier. -/
theorem LexInv.advance {c g : Nat} (h : LexInv input result indents (some c) f) (hfg : f ≤ g) :
    LexInv input result indents (some c) g :=
  ⟨h.covers, h.pending_le.trans hfg, h.noEndMarker, h.names, h.nesting⟩

/-- A string opens at the frontier. -/
theorem LexInv.openAt (h : LexInv input result indents none f) :
    LexInv input result indents (some f) f :=
  ⟨h.covers, le_refl _, h.noEndMarker, h.names, h.nesting⟩

/-- An open string's token, from its start to a later frontier, closes it. -/
theorem LexInv.close {c e : Nat} (h : LexInv input result indents (some c) f) (hfe : f ≤ e)
    {k : TokenKind} (hk : Plain k) (s : String) :
    LexInv input (result ++ [⟨k, s, ⟨c, e⟩⟩]) indents none e :=
  LexInv.push ⟨h.covers, le_refl _, h.noEndMarker, h.names, h.nesting⟩ rfl (h.pending_le.trans hfe)
    hk s

/-- An `Indent` from the frontier on, with its column pushed on the stack, opens one more level. -/
theorem LexInv.pushIndent {b : Nat} (h : LexInv input result indents none f) (hne : indents ≠ [])
    (hfb : f ≤ b) (column : Nat) (s : String) :
    LexInv input (result ++ [⟨.indent, s, ⟨f, b⟩⟩]) (column :: indents) none b where
  covers := h.covers.push hfb _ s
  pending_le := le_refl _
  noEndMarker := List.forall_mem_append.2 ⟨h.noEndMarker, List.forall_mem_singleton.2 (by simp)⟩
  names := List.forall_mem_append.2 ⟨h.names, List.forall_mem_singleton.2 (by simp)⟩
  nesting := by
    have hlen : (column :: indents).length - 1 = indents.length - 1 + 1 := by
      have := List.length_pos.2 hne
      simp only [List.length_cons]
      omega
    exact hlen ▸ h.nesting.pushIndent rfl

/-- A zero-width `Dedent` at the frontier, with the top of the stack popped, closes one level. -/
theorem LexInv.popDedent {top : Nat} {rest : List Nat} (h : LexInv input result (top :: rest) none f)
    (hne : rest ≠ []) (s : String) :
    LexInv input (result ++ [⟨.dedent, s, ⟨f, f⟩⟩]) rest none f where
  covers := h.covers.push (le_refl f) _ s
  pending_le := le_refl _
  noEndMarker := List.forall_mem_append.2 ⟨h.noEndMarker, List.forall_mem_singleton.2 (by simp)⟩
  names := List.forall_mem_append.2 ⟨h.names, List.forall_mem_singleton.2 (by simp)⟩
  nesting := by
    have hlen : (top :: rest).length - 1 = rest.length - 1 + 1 := by
      have := List.length_pos.2 hne
      simp only [List.length_cons]
      omega
    exact (hlen ▸ h.nesting).pushDedent rfl

end Keep

/-! ### The start of a line -/

section Line

variable {input A line B : List Char}

/-- The dedent loop keeps the invariant: its `Dedent` tokens sit at the frontier, one for each level
it pops. -/
theorem dedentLoop_inv {f column : Nat} :
    ∀ {indents : List Nat} {result : List Token} {is : List Nat} {rs : List Token},
      LexInv input result indents none f →
      dedentLoop input column f indents result = .ok (is, rs) → LexInv input rs is none f
  | [], _, _, _, _, h => by simp [dedentLoop, unwrap] at h
  | top :: rest, result, is, rs, hinv, h => by
    simp only [dedentLoop] at h
    split_ifs at h
    · have hne : rest ≠ [] := by
        rintro rfl
        simp [dedentLoop, unwrap] at h
      exact dedentLoop_inv (hinv.popDedent hne _) h
    · cases h
      exact hinv

/-- The indentation of a logical line keeps the invariant, with the frontier moved past the leading
whitespace, and opens no string. -/
theorem indentLine_inv {st st' : LexState} {column f b : Nat} (hinv : st.Inv input f)
    (hc : st.contstrStart = none) (hfb : f ≤ b) (hs : Skips input f b)
    (h : indentLine input st column f b = .ok st') : st'.Inv input b ∧ st'.contstrStart = none := by
  obtain ⟨result, parenlev, continued, indents, _, contstrEndRe, needcont⟩ := st
  cases hc
  unfold indentLine at h
  obtain ⟨top, htop, h⟩ := bind_eq_ok.1 h
  have hne : indents ≠ [] := by
    rintro rfl
    cases htop
  have hinv' : LexInv input result indents none f := hinv
  dsimp only at h
  split_ifs at h with hcol hmem hmem
  · obtain ⟨_, hthrow, -⟩ := bind_eq_ok.1 h
    cases hthrow
  · obtain ⟨⟨is, rs⟩, hded, h⟩ := bind_eq_ok.1 (by simpa only [pure_bind] using h)
    cases h
    exact ⟨dedentLoop_inv (hinv'.pushIndent hne hfb column _) hded, rfl⟩
  · obtain ⟨_, hthrow, -⟩ := bind_eq_ok.1 h
    cases hthrow
  · obtain ⟨⟨is, rs⟩, hded, h⟩ := bind_eq_ok.1 (by simpa only [pure_bind] using h)
    cases h
    exact ⟨dedentLoop_inv (hinv'.skip hfb hs) hded, rfl⟩

/-- What the start of a line at byte `lineStart` leaves for the rest of the loop body: the
scan starts from a position within the line, with no string open; the next line starts with
the whole line read; and the loop stops only at a line of whitespace with no terminator. -/
def LineStart.Inv (input line : List Char) (lineStart : Nat) : LineStart → Prop
  | .scan st linePos =>
    st.Inv input (lineStart + linePos) ∧ linePos ≤ utf8Len line ∧ st.contstrStart = none
  | .next st => st.Inv input (lineStart + utf8Len line)
  | .stop st => st.Inv input (lineStart + utf8Len line) ∧ '\n' ∉ line

/-- A line that continues an open string keeps the invariant: the string's token, when the string
closes or fails, covers the text it held pending. -/
theorem continueString_inv {st : LexState} {c : Nat} {r : LineStart}
    (hinv : st.Inv input (utf8Len A)) (hc : st.contstrStart = some c)
    (h : continueString input st c line (utf8Len A) (utf8Len A + utf8Len line) = .ok r) :
    r.Inv input line (utf8Len A) := by
  obtain ⟨result, parenlev, continued, indents, _, contstrEndRe, needcont⟩ := st
  cases hc
  have hinv' : LexInv input result indents (some c) (utf8Len A) := hinv
  unfold continueString at h
  obtain ⟨endRe, -, h⟩ := bind_eq_ok.1 h
  split at h
  · rename_i tokEnd hfind
    cases h
    exact ⟨hinv'.close (by omega) (by simp [Plain]) _, (Closing.find_bounds hfind).2, rfl⟩
  · split_ifs at h
    · cases h
      exact hinv'.close (by omega) (by simp [Plain]) _
    · cases h
      exact hinv'.advance (by omega)

/-- The start of a logical line keeps the invariant: a blank or comment line is covered by its
tokens and the whitespace before them, and the indentation step moves the frontier past the leading
whitespace. -/
theorem startLogicalLine_inv {st : LexState} {r : LineStart} (hin : input = A ++ line ++ B)
    (hinv : st.Inv input (utf8Len A)) (hc : st.contstrStart = none)
    (h : startLogicalLine input st line (utf8Len A) (utf8Len A + utf8Len line) = .ok r) :
    r.Inv input line (utf8Len A) := by
  obtain ⟨ws, rest, rfl, hws, hpos⟩ := measure_spec line 0 0
  have hskip : Skips input (utf8Len A) (utf8Len A + utf8Len ws) :=
    skips_whitespace hws (show input = A ++ ws ++ (rest ++ B) by simp [hin])
  obtain ⟨result, parenlev, continued, indents, _, contstrEndRe, needcont⟩ := st
  cases hc
  have hinv' : LexInv input result indents none (utf8Len A) := hinv
  unfold startLogicalLine at h
  rcases hm : measure (ws ++ rest) 0 0 with ⟨column, linePos⟩
  rw [hm] at h hpos
  simp only [Nat.zero_add] at hpos
  subst hpos
  dsimp only at h
  split_ifs at h with hend
  · cases h
    have hrest : rest = [] := utf8Len_eq_zero.1 (by simp at hend; omega)
    subst hrest
    refine ⟨by simpa using hinv'.skip (by omega) hskip, fun hn => ?_⟩
    have := hws _ (by simpa using hn)
    simp [isWhitespace] at this
  · simp only [pure_bind] at h
    rw [sliceFrom_append_utf8Len, ok_bind] at h
    obtain ⟨ch, hch, h⟩ := bind_eq_ok.1 h
    obtain ⟨rest, rfl⟩ : ∃ rest', rest = ch :: rest' := by
      cases rest with
      | nil => cases hch
      | cons d rest' => cases hch; exact ⟨rest', rfl⟩
    have hinvw := hinv'.skip (by omega) hskip
    have hlen : utf8Len (ws ++ ch :: rest) = utf8Len ws + utf8Len (ch :: rest) := utf8Len_append _ _
    split_ifs at h with hblank hhash
    · -- a comment line
      simp only [ok_bind, pure_bind] at h
      cases h
      obtain ⟨tail, htail⟩ := rstripSlice_prefix (ch :: rest) ['\r', '\n']
      have hcmt := congrArg utf8Len htail
      rw [utf8Len_append] at hcmt
      exact (hinvw.push rfl (by omega) (by simp [Plain]) _).push (by omega) (by omega)
        (by simp [Plain]) _
    · -- a blank line
      cases h
      exact hinvw.push rfl (by omega) (by simp [Plain]) _
    · -- a logical line
      obtain ⟨st', hst', h⟩ := bind_eq_ok.1 (by simpa only [pure_bind] using h)
      cases h
      obtain ⟨hinv'', hc''⟩ := indentLine_inv hinv rfl (by omega) hskip hst'
      exact ⟨hinv'', by omega, hc''⟩

/-- The top of the loop body keeps the invariant. -/
theorem startLine_inv {st : LexState} {r : LineStart} (hin : input = A ++ line ++ B)
    (hinv : st.Inv input (utf8Len A))
    (h : startLine input st line (utf8Len A) (utf8Len A + utf8Len line) = .ok r) :
    r.Inv input line (utf8Len A) := by
  unfold startLine at h
  split at h
  · exact continueString_inv hinv ‹_› h
  · split_ifs at h
    · exact startLogicalLine_inv hin hinv ‹_› h
    · cases h
      exact ⟨hinv, Nat.zero_le _, ‹_›⟩

end Line

/-! ### The in-line scan -/

section Scan

variable {input A line B : List Char}

/-- What a pass of the scan leaves for the next: a position within the line, and no string
open unless the line is read to its end. -/
def ScanStep.Inv (input line : List Char) (lineStart : Nat) : ScanStep → Prop
  | .next st linePos => st.Inv input (lineStart + linePos) ∧ linePos ≤ utf8Len line ∧
      (st.contstrStart = none ∨ linePos = utf8Len line)
  | .done st => st.Inv input (lineStart + utf8Len line)

/-- A pass with a token keeps the invariant: the token covers its own text from the frontier on, a
backslash continuation is a gap, and a string left open holds its text pending. -/
theorem scanToken_inv {st : LexState} {r : ScanStep} {Pre tok D : List Char} {initial : Char}
    {tokStart tokEnd : Nat} (hin : input = A ++ line ++ B)
    (hline : ∀ P Q, line = P ++ '\n' :: Q → Q = []) (hl : line = Pre ++ tok ++ D)
    (hstart : utf8Len Pre = tokStart) (hend : tokEnd = tokStart + utf8Len tok)
    (hcont : initial = '\\' → tok = ['\\', '\n'] ∨ tok = ['\\', '\r', '\n'])
    (hinv : st.Inv input (utf8Len A + tokStart)) (hc : st.contstrStart = none)
    (h : scanToken input line (utf8Len A) st tok initial tokStart tokEnd = .ok r) :
    r.Inv input line (utf8Len A) := by
  have hinv' : LexInv input st.result st.indents none (utf8Len A + tokStart) := hc ▸ hinv
  have hbound : tokEnd ≤ utf8Len line := by
    rw [hl]
    simp only [utf8Len_append]
    omega
  have hpush : ∀ {k}, Plain k → ∀ st' : LexState, st'.result = st.result → st'.indents = st.indents →
      st'.contstrStart = none →
      (ScanStep.next (st'.push input k (utf8Len A + tokStart) (utf8Len A + tokEnd)) tokEnd).Inv
        input line (utf8Len A) := by
    intro k hk st' hr hi hc'
    refine ⟨?_, hbound, Or.inl hc'⟩
    simp only [LexState.Inv, LexState.push, hr, hi, hc']
    exact hinv'.push rfl (by omega) hk _
  unfold scanToken at h
  rcases ite_eq_iff.1 h with ⟨-, h⟩ | ⟨-, h⟩
  · -- a number
    cases h
    exact hpush (by simp [Plain]) st rfl rfl hc
  rcases ite_eq_iff.1 h with ⟨-, h⟩ | ⟨-, h⟩
  · -- a line terminator
    cases h
    exact hpush (by split <;> simp [Plain]) st rfl rfl hc
  rcases ite_eq_iff.1 h with ⟨-, h⟩ | ⟨-, h⟩
  · -- a comment
    cases h
    exact hpush (by simp [Plain]) st rfl rfl hc
  rcases ite_eq_iff.1 h with ⟨-, h⟩ | ⟨-, h⟩
  · -- a triple-quoted string, closed on the line or not
    dsimp only at h
    split at h
    · rename_i e hfind
      cases h
      have := Closing.find_bounds hfind
      refine ⟨?_, this.2, Or.inl hc⟩
      simp only [LexState.Inv, LexState.push, hc]
      exact hinv'.push rfl (by omega) (by simp [Plain]) _
    · cases h
      exact hinv'.openAt.advance (by omega)
  rcases ite_eq_iff.1 h with ⟨-, h⟩ | ⟨-, h⟩
  · rcases ite_eq_iff.1 h with ⟨hnl, h⟩ | ⟨-, h⟩
    · -- a single-quoted string continued by a backslash: the token ends the line
      cases h
      obtain ⟨T, rfl⟩ := List.getLast?_eq_some_iff.1 hnl
      obtain rfl : D = [] := hline (Pre ++ T) D (by simp [hl])
      exact ⟨hinv'.openAt.advance (by omega), hbound, Or.inr (by rw [hl]; simp [hend]; omega)⟩
    · -- a single-quoted string
      cases h
      exact hpush (by simp [Plain]) st rfl rfl hc
  rcases ite_eq_iff.1 h with ⟨-, h⟩ | ⟨-, h⟩
  · -- an identifier, whose symbol is its text
    cases h
    have htext : sourceText input (utf8Len A + tokStart) (utf8Len A + tokEnd) = ⟨tok⟩ := by
      have := sourceText_append (A ++ Pre) tok (D ++ B)
      rwa [show A ++ Pre ++ tok ++ (D ++ B) = input by simp [hin, hl], utf8Len_append, hstart,
        Nat.add_assoc, ← hend] at this
    refine ⟨?_, hbound, Or.inl hc⟩
    simp only [LexState.Inv, LexState.push, hc, htext]
    exact hinv'.pushName rfl (by omega) _
  rcases ite_eq_iff.1 h with ⟨hbs, h⟩ | ⟨-, h⟩
  · -- a backslash line continuation
    cases h
    have hskip := skips_continuation (show input = (A ++ Pre) ++ tok ++ (D ++ B) by simp [hin, hl])
      (hcont hbs)
    simp only [utf8Len_append, hstart] at hskip
    rw [Nat.add_assoc, ← hend] at hskip
    refine ⟨?_, hbound, Or.inl hc⟩
    simp only [LexState.Inv, hc]
    exact hinv'.skip (by omega) hskip
  · -- an operator or a bracket
    obtain ⟨_, -, h⟩ := bind_eq_ok.1 h
    obtain ⟨k, hk, h⟩ := bind_eq_ok.1 h
    cases h
    obtain ⟨p, hp⟩ : ∃ p, k = .punct p := by
      cases hk' : TokenKind.tryFrom ⟨tok⟩ with
      | none => simp [hk', unwrap] at hk
      | some k' => rw [hk'] at hk; cases hk; exact TokenKind.tryFrom_eq_some hk'
    exact hpush (hp ▸ plain_punct p) _ rfl rfl hc

/-- A pass of the scan keeps the invariant: the whitespace before the token is a gap, and an error
token covers the one character it reads. -/
theorem scanStep_inv {st : LexState} {lp : Nat} {r : ScanStep} (hin : input = A ++ line ++ B)
    (hline : ∀ P Q, line = P ++ '\n' :: Q → Q = [])
    (hinv : st.Inv input (utf8Len A + lp)) (hc : st.contstrStart = none)
    (h : scanStep input line (utf8Len A) st lp = .ok r) : r.Inv input line (utf8Len A) := by
  obtain ⟨result, parenlev, continued, indents, _, contstrEndRe, needcont⟩ := st
  cases hc
  have hinv' : LexInv input result indents none (utf8Len A + lp) := hinv
  unfold scanStep at h
  obtain ⟨rest, hrest, h⟩ := bind_eq_ok.1 h
  obtain ⟨P, rfl, rfl⟩ := sliceFrom_eq_ok hrest
  split at h
  · rename_i a b hpt
    obtain ⟨ws, rest, n, rfl, hws, htok, rfl, rfl⟩ := pseudoToken_eq_some hpt
    have hskip : Skips input (utf8Len A + utf8Len P) (utf8Len A + utf8Len P + utf8Len ws) := by
      simpa using skips_whitespace hws (show input = (A ++ P) ++ ws ++ (rest ++ B) by simp [hin])
    have hinvw : LexInv input result indents none (utf8Len A + (utf8Len P + utf8Len ws)) :=
      hinv'.skip (by omega) (by simpa only [Nat.add_assoc] using hskip)
    dsimp only at h
    split_ifs at h with hempty
    · -- an empty token: only whitespace before the end of the line
      cases h
      have h0 : utf8Len (rest.take n) = 0 := by omega
      have hlen := utf8Len_take_le rest n
      simp only [ScanStep.Inv, h0, Nat.add_zero, utf8Len_append]
      exact ⟨hinvw, by omega, Or.inl trivial⟩
    have hslice : slice (P ++ (ws ++ rest)) (utf8Len P + utf8Len ws)
        (utf8Len P + (utf8Len ws + utf8Len (rest.take n))) = .ok (rest.take n) := by
      have := slice_append (P ++ ws) (rest.take n) (rest.drop n)
      simp only [utf8Len_append, List.append_assoc, List.take_append_drop, Nat.add_assoc] at this
      exact this
    have hfrom : sliceFrom (P ++ (ws ++ rest)) (utf8Len P + utf8Len ws) = .ok rest := by
      have := sliceFrom_append_utf8Len (P ++ ws) rest
      rwa [utf8Len_append, List.append_assoc] at this
    rw [pure_bind, hslice, ok_bind, hfrom, ok_bind] at h
    obtain ⟨initial, hinit, h⟩ := bind_eq_ok.1 h
    obtain ⟨rest, rfl⟩ : ∃ rest', rest = initial :: rest' := by
      cases rest with
      | nil => cases hinit
      | cons c rest' => cases hinit; exact ⟨rest', rfl⟩
    have hl : P ++ (ws ++ initial :: rest) =
        P ++ ws ++ (initial :: rest).take n ++ (initial :: rest).drop n := by simp
    have hinvw' : LexState.Inv input ⟨result, parenlev, continued, indents, none, contstrEndRe,
        needcont⟩ (utf8Len A + (utf8Len P + utf8Len ws)) := hinvw
    refine scanToken_inv hin hline hl (by simp) (by omega) (fun hb => ?_) hinvw' rfl h
    subst hb
    exact token_backslash htok
  · -- no token: a one-byte error token
    rename_i hnone
    cases h
    have hne : rest ≠ [] := by
      rintro rfl
      simp at hnone
    have := utf8Len_eq_zero.not.2 hne
    simp only [ScanStep.Inv, utf8Len_append]
    exact ⟨hinv'.push rfl (by omega) (by simp [Plain]) _, by omega, Or.inl rfl⟩

end Scan

/-! ### The run -/

section Run

variable {input : List Char}

/-- A round of the line loop keeps the invariant, read up to the end of its line, or, where the
loop stops at a last line blank to its end, up to the end of the source. -/
theorem round_inv {done l rest : List Char} {st : LexState} (hat : LineAt input done l rest)
    (hinv : st.Inv input (utf8Len done)) :
    RoundKeeps input (fun _ => True) (fun done st => st.Inv input (utf8Len done)) done l st := by
  simp only [RoundKeeps, utf8Len_append]
  refine EndsIn.of_ok fun r hr => ?_
  have hr' := startLine_inv hat.split hinv hr
  cases r with
  | scan _ _ =>
    refine scanLine_endsIn (S := fun st lp => st.Inv input (utf8Len done + lp) ∧ lp ≤ utf8Len l ∧
        (st.contstrStart = none ∨ lp = utf8Len l)) trivial (fun hs hlt => EndsIn.of_ok fun r hr => ?_)
      (fun hs hle => ?_) ⟨hr'.1, hr'.2.1, .inl hr'.2.2⟩
    · have := scanStep_inv hat.split hat.inner hs.1 (hs.2.2.resolve_right (by omega)) hr
      cases r <;> exact this
    · obtain rfl : _ = utf8Len l := Nat.le_antisymm hs.2.1 hle
      exact hs.1
  | next _ => exact hr'
  | stop _ =>
    have hend : utf8Len done + utf8Len l = utf8Len input := by
      rw [hat.split, hat.last hr'.2]
      simp
    exact hend ▸ hr'.1

/-- The invariant after the line loop over the whole source. -/
theorem lineLoop_inv {st : LexState} {last : List Char}
    (h : lineLoop input (linesWithEndings input) LexState.init [] = .ok (st, last)) :
    st.Inv input (utf8Len input) :=
  (lineLoop_endsIn round_inv (splitLines_lines input) (by simp) (.inl rfl)
    (show LexState.init.Inv input (utf8Len []) from LexInv.init)).of_eq_ok h

/-- The dedents after the last line close every level still open. -/
theorem dedents_close {f : Nat} {s : String} :
    ∀ {m : Nat} {result : List Token}, Covers input result f → Nesting result m →
      (∀ t ∈ result, t.kind ≠ .endMarker) →
      Covers input (result ++ List.replicate m ⟨.dedent, s, ⟨f, f⟩⟩) f ∧
        Nesting (result ++ List.replicate m ⟨.dedent, s, ⟨f, f⟩⟩) 0 ∧
        ∀ t ∈ result ++ List.replicate m ⟨.dedent, s, ⟨f, f⟩⟩, t.kind ≠ .endMarker
  | 0, _, hc, hn, he => by simpa using ⟨hc, hn, he⟩
  | m + 1, result, hc, hn, he => by
    rw [List.replicate_succ, ← List.singleton_append, ← List.append_assoc]
    refine dedents_close (hc.push (le_refl f) _ s) (hn.pushDedent rfl) fun t ht => ?_
    rcases List.mem_append.1 ht with ht | ht
    · exact he t ht
    · rw [List.mem_singleton.1 ht]
      simp

/-- The `Newline` for a last line without a terminator keeps the invariant at the end of the source.
-/
theorem finalNewline_inv {st st' : LexState} {line : List Char}
    (hinv : LexInv input st.result st.indents none (utf8Len input))
    (h : finalNewline input st line = .ok st') :
    LexInv input st'.result st'.indents none (utf8Len input) := by
  rcases finalNewline_eq_ok h with rfl | ⟨k, hk, rfl⟩
  · exact hinv
  · exact hinv.push rfl (le_refl _) (by rcases hk with rfl | rfl <;> simp [Plain]) _

/-- The tokens after the last line complete the invariant into the spec's properties of the whole
stream: they cover the source, their levels balance, and the stream ends with its only `EndMarker`.
-/
theorem finish_inv {st : LexState} {line : List Char} {ts : List Token}
    (hinv : st.Inv input (utf8Len input)) (h : finish input st line = .ok ts) :
    Covers input ts (utf8Len input) ∧ Nesting ts 0 ∧
      (∃ pre t, ts = pre ++ [t] ∧ t.kind = .endMarker ∧ ∀ u ∈ pre, u.kind ≠ .endMarker) ∧
      ∀ t ∈ ts, ∀ n, t.kind = .name n → n = t.string := by
  unfold finish at h
  split_ifs at h with hopen
  obtain ⟨st', hst', h⟩ := bind_eq_ok.1 h
  cases h
  have hnone : st.contstrStart = none := by simpa using hopen
  have hinv' := finalNewline_inv (hnone ▸ hinv) hst'
  obtain ⟨hc, hn, he⟩ := dedents_close (s := sourceText input (utf8Len input) (utf8Len input))
    hinv'.covers hinv'.nesting hinv'.noEndMarker
  rw [LexState.push, eofDedents_result]
  refine ⟨hc.push (le_refl _) _ _, hn.push (by simp) (by simp), ⟨_, _, rfl, rfl, he⟩,
    fun t ht n hn => ?_⟩
  -- the names are those of the lines; the dedents and the end marker are none
  simp only [List.mem_append, List.mem_replicate, List.mem_singleton] at ht
  rcases ht with (ht | ⟨-, rfl⟩) | rfl
  · exact hinv'.names t ht n hn
  · cases hn
  · cases hn

/-- A successful run leaves tokens that cover the source, nest, end with their only end
marker, and whose names are their text. -/
theorem tokenize_inv {s : List Char} {ts : List Token} (h : tokenize s = .ok ts) :
    Covers s ts (utf8Len s) ∧ Nesting ts 0 ∧
      (∃ pre t, ts = pre ++ [t] ∧ t.kind = .endMarker ∧ ∀ u ∈ pre, u.kind ≠ .endMarker) ∧
      ∀ t ∈ ts, ∀ n, t.kind = .name n → n = t.string := by
  unfold tokenize at h
  obtain ⟨⟨st, line⟩, hrun, h⟩ := bind_eq_ok.1 h
  exact finish_inv (lineLoop_inv hrun) h

end Run

/-! ### The spec's invariants of the token stream -/

/-- The last token of a successful run is `EndMarker` and no other token is; every prefix of
the stream has at least as many `Indent` as `Dedent` tokens, and the totals are equal. -/
theorem tokenize_ends_with_endMarker_nested {s : List Char} {ts : List Token}
    (h : tokenize s = .ok ts) :
    (∃ pre t, ts = pre ++ [t] ∧ t.kind = .endMarker ∧ ∀ u ∈ pre, u.kind ≠ .endMarker) ∧
      (∀ pre, pre <+: ts → dedentCount pre ≤ indentCount pre) ∧
      indentCount ts = dedentCount ts := by
  obtain ⟨-, hn, he, -⟩ := tokenize_inv h
  exact ⟨he, hn.prefixes, by simpa using hn.open_eq⟩

/-- An `if` block: one `Indent`, closed by the `Dedent` at the end of the source, before the only
`EndMarker`. -/
theorem tokenize_ends_with_endMarker_nested_ifBlock :
    ∃ ts, tokenize "if x:\n  y\n".toList = .ok ts ∧
      (∃ pre t, ts = pre ++ [t] ∧ t.kind = .endMarker ∧ ∀ u ∈ pre, u.kind ≠ .endMarker) ∧
      (∀ pre, pre <+: ts → dedentCount pre ≤ indentCount pre) ∧
      indentCount ts = dedentCount ts :=
  ⟨_, rfl, tokenize_ends_with_endMarker_nested (s := "if x:\n  y\n".toList) rfl⟩

/-- The tokens of a successful run cover the source: every span lies in the source and ends
no later than the next one starts, and every byte outside all spans is a space, a tab, a form
feed or part of a backslash line continuation. -/
theorem tokenize_covers_source {s : List Char} {ts : List Token} (h : tokenize s = .ok ts) :
    (∀ t ∈ ts, t.span.start ≤ t.span.end ∧ t.span.end ≤ utf8Len s) ∧
      ts.Chain' (fun t t' => t.span.end ≤ t'.span.start) ∧
      ∀ i < utf8Len s, ¬ Covered ts i → GapByte s i := by
  obtain ⟨hc, -, -, -⟩ := tokenize_inv h
  exact ⟨fun t ht => ⟨hc.ordered.1 t ht, hc.end_le t ht⟩, hc.ordered.2, hc.gaps⟩

/-- A statement continued with a backslash: the continuation and the indentation of the next line
are the only bytes without a token. -/
theorem tokenize_covers_source_continuation :
    ∃ ts, tokenize "x = \\\n  1\n".toList = .ok ts ∧
      (∀ t ∈ ts, t.span.start ≤ t.span.end ∧ t.span.end ≤ utf8Len "x = \\\n  1\n".toList) ∧
      ts.Chain' (fun t t' => t.span.end ≤ t'.span.start) ∧
      ∀ i < utf8Len "x = \\\n  1\n".toList, ¬ Covered ts i → GapByte "x = \\\n  1\n".toList i :=
  ⟨_, rfl, tokenize_covers_source (s := "x = \\\n  1\n".toList) rfl⟩

end Lexer

end FeParser
