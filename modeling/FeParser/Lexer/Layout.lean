import FeParser.Lexer.BlankLine
import FeParser.Lexer.Brackets
import FeParser.Lexer.Strings

/-!
# Indentation tokens start logical lines

The parser reads a block as `Newline Indent ... Dedent`, and `tokenize` emits the `Indent` and
the `Dedent`s of a line only at the start of a logical line: no string open, no bracket open,
no backslash before it. This module proves that the line before such a line has ended, so
that among the tokens `get_parse_tokens` returns, every `Indent` and `Dedent` read from the
source comes first, or right after the `Newline` that ends a logical line, or right after the
`ErrorToken` of a string the lexer gave up on at the end of the line before (`EndsLine`); a
`Dedent` may also follow another `Dedent`. The `Dedent`s that `tokenize` adds at the end of
the source are apart: inside a bracket left open no `Newline` comes before them.

The step that needs the patterns is the end of a line. A match of the pseudo-token pattern
that reads the line feed is the line end itself, a backslash continuation, or a single-quoted
string that a backslash continues (`token_newline`): every other alternative stops before a
line feed. So a line read to its end leaves a `Newline` last, or a bracket, a backslash or a
string open, and the next line is no logical line.

The `ErrorToken` that ends a line is the source from a string's opening to the end of a later
line (`IsUnclosedString`), which the invariant of open strings (`LexState.Strings`) provides.
It is not always a single-quoted string: the lexer gives up on a string only while `needcont`
is set, and it sets `needcont` for a single-quoted string continued by a backslash but clears
it only when a string closes. After a single-quoted string it gave up on, a triple-quoted
string opened later is given up on at the end of its first continued line too
(`getParseTokens_layout_unclosedTriple`).

## Main results

* `getParseTokens_layout`: every `Indent` and `Dedent` inside the source follows a line end,
  among the tokens the parser reads; and after every prefix of whole lines, with no string,
  bracket or backslash continuation open, the last token the parser keeps ends a line.
-/

namespace FeParser

namespace Pattern

/-! ### Matches that read a line feed -/

/-- The match of a pattern at the start of `cs`, if any, reads no line feed. -/
def NoNewline (o : Option Nat) (cs : List Char) : Prop := ∀ n, o = some n → '\n' ∉ cs.take n

/-- The first of two alternatives that matches reads no line feed when neither does. -/
theorem NoNewline.orElse {a b : Option Nat} {cs : List Char} (ha : NoNewline a cs)
    (hb : NoNewline b cs) : NoNewline (a <|> b) cs := by
  cases a with
  | none => exact hb
  | some m => exact ha

/-- A match read in two parts reads a line feed only in one of them. -/
theorem newline_not_mem_take_add {cs : List Char} {m k : Nat} (hm : '\n' ∉ cs.take m)
    (hk : '\n' ∉ (cs.drop m).take k) : '\n' ∉ cs.take (m + k) := by
  rw [List.take_add]
  exact fun h => (List.mem_append.1 h).elim hm hk

/-- A run of digits with single underscores between them reads no line feed, when the digit class
has none. -/
theorem newline_not_mem_underscored {p : Char → Bool} (hp : p '\n' = false) (cs : List Char) :
    '\n' ∉ cs.take (underscored p cs) := by
  induction cs using underscored.induct p with
  | case1 c cs hc ih =>
    rw [underscored, if_pos hc]
    exact newline_not_mem_take_add (by simp; rintro rfl; simp [hp] at hc) ih
  | case2 c cs hc => simp [underscored, hc]
  | case3 c cs hne hc ih =>
    rw [underscored.eq_2 p c cs hne, if_pos hc]
    exact newline_not_mem_take_add (by simp; rintro rfl; simp [hp] at hc) ih
  | case4 c cs hne hc => simp [underscored.eq_2 p c cs hne, hc]
  | case5 => simp [underscored]

/-- An optional part that reads no line feed when it matches reads none when it is absent either. -/
theorem noNewline_getD {o : Option Nat} {cs : List Char} (h : NoNewline o cs) :
    '\n' ∉ cs.take (o.getD 0) := by
  cases o with
  | none => simp
  | some n => exact h n rfl

/-- A run of digits of a class without the line feed reads none. -/
theorem noNewline_digitsOf {p : Char → Bool} (hp : p '\n' = false) :
    ∀ cs, NoNewline (digitsOf p cs) cs
  | [], _, h => by cases h
  | c :: cs, n, h => by
    simp only [digitsOf] at h
    split_ifs at h with hc
    cases h
    exact newline_not_mem_take_add (by simp; rintro rfl; simp [hp] at hc)
      (newline_not_mem_underscored hp cs)

/-- A decimal digit part reads no line feed. -/
theorem noNewline_digitPart (cs : List Char) : NoNewline (digitPart cs) cs :=
  noNewline_digitsOf (by decide) cs

/-- An exponent reads no line feed: `e` or `E`, an optional sign, digits. -/
theorem noNewline_exponent : ∀ cs, NoNewline (exponent cs) cs
  | e :: s :: cs, n, h => by
    simp only [exponent] at h
    split_ifs at h with he hs
    · obtain ⟨k, hk, rfl⟩ := Option.map_eq_some'.1 h
      rw [Nat.add_comm]
      refine newline_not_mem_take_add ?_ (noNewline_digitPart cs k hk)
      simp only [Bool.or_eq_true, decide_eq_true_eq] at he hs
      rcases he with rfl | rfl <;> rcases hs with rfl | rfl <;> simp
    · obtain ⟨k, hk, rfl⟩ := Option.map_eq_some'.1 h
      rw [Nat.add_comm]
      refine newline_not_mem_take_add ?_ (noNewline_digitPart (s :: cs) k hk)
      simp only [Bool.or_eq_true, decide_eq_true_eq] at he
      rcases he with rfl | rfl <;> simp
  | [], _, h => by cases h
  | [_], _, h => by cases h

/-- The point of a float and what follows it. -/
theorem newline_not_mem_point {cs : List Char} {n : Nat} (h : (cs.drop n).head? = some '.') :
    '\n' ∉ (cs.drop n).take 1 := by
  obtain ⟨tl, htl⟩ : ∃ tl, cs.drop n = '.' :: tl := by
    cases hd : cs.drop n with
    | nil => simp [hd] at h
    | cons d tl => simp [hd] at h; exact ⟨tl, by rw [h]⟩
  simp [htl]

/-- A `Pointfloat` reads no line feed. -/
theorem noNewline_pointFloat (cs : List Char) : NoNewline (pointFloat cs) cs := by
  intro n h
  unfold pointFloat at h
  obtain ⟨m, hm, rfl⟩ := Option.map_eq_some'.1 h
  refine newline_not_mem_take_add ?_ (noNewline_getD (noNewline_exponent _))
  split at hm
  · -- digits, the point, and digits or none
    rename_i k hk
    split_ifs at hm with hd
    cases hm
    exact newline_not_mem_take_add
      (newline_not_mem_take_add (noNewline_digitPart cs k hk) (newline_not_mem_point hd))
      (by rw [← List.drop_drop]; exact noNewline_getD (noNewline_digitPart _))
  · -- the point, then digits
    split_ifs at hm with hd
    obtain ⟨k, hk, rfl⟩ := Option.map_eq_some'.1 hm
    rw [Nat.add_comm]
    refine newline_not_mem_take_add (newline_not_mem_point (n := 0) hd) ?_
    rw [List.drop_one]
    exact noNewline_digitPart _ k hk

/-- An `Expfloat` reads no line feed. -/
theorem noNewline_expFloat (cs : List Char) : NoNewline (expFloat cs) cs := by
  intro n h
  obtain ⟨m, hm, h⟩ := Option.bind_eq_some.1 h
  obtain ⟨k, hk, rfl⟩ := Option.map_eq_some'.1 h
  exact newline_not_mem_take_add (noNewline_digitPart cs m hm) (noNewline_exponent _ k hk)

/-- An imaginary suffix adds the letter `j` or `J` to a number that reads no line feed. -/
theorem noNewline_imaginary {m : Option Nat} {cs : List Char} (hm : NoNewline m cs) :
    NoNewline (imaginary m cs) cs := by
  intro n h
  obtain ⟨k, hk, h⟩ := Option.bind_eq_some.1 h
  split_ifs at h with hj
  cases h
  refine newline_not_mem_take_add (hm k hk) ?_
  simp only [List.mem_cons, List.mem_singleton, List.not_mem_nil, or_false] at hj
  cases hd : cs.drop k with
  | nil => simp [hd] at hj
  | cons d tl => rcases hj with hj | hj <;> simp_all

/-- A hexadecimal, binary or octal number reads no line feed. -/
theorem noNewline_radixNumber {markers : List Char} {p : Char → Bool} (hm : '\n' ∉ markers)
    (hp : p '\n' = false) (cs : List Char) : NoNewline (radixNumber markers p cs) cs := by
  intro n h
  unfold radixNumber at h
  split at h
  · rename_i m cs
    dsimp only at h
    split_ifs at h with hmk
    cases h
    exact newline_not_mem_take_add (by simp; rintro rfl; exact hm hmk)
      (newline_not_mem_underscored hp cs)
  · cases h

/-- A decimal number reads no line feed. -/
theorem noNewline_decNumber (cs : List Char) : NoNewline (decNumber cs) cs := by
  intro n h
  unfold decNumber at h
  split at h
  · cases h
    exact newline_not_mem_take_add (by simp) (newline_not_mem_underscored (by decide) _)
  · rename_i c cs _
    split_ifs at h with hc
    cases h
    exact newline_not_mem_take_add (by simp; rintro rfl; exact absurd hc (by decide))
      (newline_not_mem_underscored (by decide) cs)
  · cases h

/-- A `Number` reads no line feed, whichever alternative matches. -/
theorem noNewline_number (cs : List Char) : NoNewline (number cs) cs := by
  have hfloat : NoNewline (floatNumber cs) cs :=
    (noNewline_pointFloat cs).orElse (noNewline_expFloat cs)
  have hint : NoNewline (intNumber cs) cs :=
    (noNewline_radixNumber (by decide) (by decide) cs).orElse <|
      (noNewline_radixNumber (by decide) (by decide) cs).orElse <|
        (noNewline_radixNumber (by decide) (by decide) cs).orElse (noNewline_decNumber cs)
  exact (noNewline_imaginary (noNewline_digitPart cs)).orElse <|
    (noNewline_imaginary hfloat).orElse <| hfloat.orElse hint

/-- A comment stops before the line feed. -/
theorem noNewline_comment (cs : List Char) : NoNewline (comment cs) cs := by
  intro n h
  unfold comment at h
  split at h
  · rename_i cs
    cases h
    refine newline_not_mem_take_add (by simp) ?_
    rw [List.drop_one, List.tail_cons, ← List.prefix_iff_eq_take.1 (List.takeWhile_prefix _)]
    exact fun h => by simpa using List.mem_takeWhile_imp h
  · cases h

/-- The optional `=` that ends an operator. -/
theorem newline_not_mem_eqSign {cs : List Char} (h : cs.head? = some '=') : '\n' ∉ cs.take 1 := by
  cases cs with
  | nil => cases h
  | cons d ds => cases h; simp

/-- An operator reads no line feed. -/
theorem noNewline_operator (cs : List Char) : NoNewline (operator cs) cs := by
  intro n h
  unfold operator at h
  split at h
  -- the six operators that start with two fixed characters
  iterate 6 (cases h; (try split) <;> simp [newline_not_mem_eqSign, *])
  · -- one character, then an optional `=`
    split_ifs at h with hc hq <;> cases h
    · simp only [List.take_succ_cons, List.mem_cons, not_or]
      exact ⟨by rintro rfl; simp at hc, newline_not_mem_eqSign hq⟩
    all_goals simp only [List.take_succ_cons, List.take_zero, List.mem_singleton]; rintro rfl
    all_goals simp at *
  · cases h

/-- A name reads no line feed: it is word characters. -/
theorem noNewline_name (cs : List Char) : NoNewline (name cs) cs :=
  fun _ h hmem => absurd (name_eq_some h _ hmem) (by decide)

/-- A bracket reads no line feed. -/
theorem noNewline_bracket (cs : List Char) : NoNewline (bracket cs) cs := by
  intro n h
  unfold bracket at h
  split at h
  · rename_i c _
    split_ifs at h with hc
    cases h
    have hne : '\n' ≠ c := by rintro rfl; simp at hc
    simp [hne]
  · cases h

/-- `Funny` reads a line feed only as a line end, `\n` or `\r\n`. -/
theorem funny_newline {cs : List Char} {n : Nat} (h : funny cs = some n)
    (hnl : '\n' ∈ cs.take n) : cs.take n = ['\n'] ∨ cs.take n = ['\r', '\n'] := by
  unfold funny at h
  rcases (Option.orElse_eq_some _ _ _).1 h with ho | ⟨-, h⟩
  · exact absurd hnl (noNewline_operator cs n ho)
  rcases (Option.orElse_eq_some _ _ _).1 h with hb | ⟨-, hs⟩
  · exact absurd hnl (noNewline_bracket cs n hb)
  unfold special at hs
  split at hs
  · cases hs; exact .inr rfl
  · cases hs; exact .inl rfl
  · cases hs; simp at hnl
  · split_ifs at hs with hc
    cases hs
    simp only [List.take_succ_cons, List.take_zero, List.mem_singleton] at hnl
    subst hnl
    simp at hc
  · cases hs

/-- `PseudoExtras` reads a line feed only in a backslash continuation. -/
theorem pseudoExtras_newline {cs : List Char} {n : Nat} (h : pseudoExtras cs = some n)
    (hnl : '\n' ∈ cs.take n) : cs.take n = ['\\', '\n'] ∨ cs.take n = ['\\', '\r', '\n'] := by
  unfold pseudoExtras at h
  split at h
  · cases h; exact .inl rfl
  · cases h; exact .inr rfl
  · cases h; simp at hnl
  · rcases (Option.orElse_eq_some _ _ _).1 h with hc | ⟨-, ht⟩
    · exact absurd hnl (noNewline_comment _ n hc)
    · obtain ⟨pfx, q, hpq, hp, hq⟩ := isTripleQuoted_iff.1 (triple_eq_some ht)
      rw [hpq] at hnl
      simp only [List.mem_append, List.mem_cons, List.mem_singleton, List.not_mem_nil,
        or_false, or_self] at hnl
      rcases hnl with hm | rfl
      · exact absurd (mem_prefixLetters hp hm) (by decide)
      · rcases hq with h | h <;> cases h

/-- A match of the token alternatives that reads a line feed is a line end, a backslash
continuation, or a single-quoted string. -/
theorem token_newline {cs : List Char} {n : Nat} (h : token cs = some n)
    (hnl : '\n' ∈ cs.take n) :
    cs.take n = ['\n'] ∨ cs.take n = ['\r', '\n'] ∨ cs.take n = ['\\', '\n'] ∨
      cs.take n = ['\\', '\r', '\n'] ∨ contStr cs = some n := by
  unfold token at h
  rcases (Option.orElse_eq_some _ _ _).1 h with hx | ⟨-, h⟩
  · rcases pseudoExtras_newline hx hnl with h | h
    exacts [.inr (.inr (.inl h)), .inr (.inr (.inr (.inl h)))]
  rcases (Option.orElse_eq_some _ _ _).1 h with hn | ⟨-, h⟩
  · exact absurd hnl (noNewline_number cs n hn)
  rcases (Option.orElse_eq_some _ _ _).1 h with hf | ⟨-, h⟩
  · rcases funny_newline hf hnl with h | h
    exacts [.inl h, .inr (.inl h)]
  rcases (Option.orElse_eq_some _ _ _).1 h with hc | ⟨-, hname⟩
  · exact .inr (.inr (.inr (.inr hc)))
  · exact absurd hnl (noNewline_name cs n hname)

/-- A closing delimiter ends with its quote. -/
theorem Closing.getLast?_delimiter (c : Closing) : c.delimiter.getLast? = some c.quote := by
  cases c <;> rfl

/-- A closing delimiter found in a line that ends with a line feed ends before the line does. -/
theorem Closing.find_lt {c : Closing} {line : List Char} {start e : Nat}
    (h : c.find line start = some e) (hnl : line.getLast? = some '\n') : e < utf8Len line := by
  obtain ⟨P, M, R, rfl, -, rfl, body, rfl⟩ := Closing.find_eq_some h
  rcases R.eq_nil_or_concat with rfl | ⟨R', d, rfl⟩
  · rw [List.append_nil, List.getLast?_append_of_ne_nil _ (by cases c <;> simp [Closing.delimiter]),
      List.getLast?_append_of_ne_nil _ (by cases c <;> simp [Closing.delimiter]),
      Closing.getLast?_delimiter] at hnl
    cases c <;> cases hnl
  · have := d.utf8Size_pos
    simp only [List.concat_eq_append, utf8Len_append, utf8Len_cons, utf8Len_nil]
    omega

end Pattern

namespace Lexer

open Pattern

/-! ### Layout tokens and the line ends before them -/

/-- The last token of `ts` that `get_parse_tokens` keeps. -/
def lastKept (ts : List Token) : Option Token := (ts.filter keptByParser).getLast?

/-- After one more token, the last token the parser keeps is that token if the parser keeps it, and
the one before otherwise. -/
theorem lastKept_push (ts : List Token) (t : Token) :
    lastKept (ts ++ [t]) = if keptByParser t then some t else lastKept ts := by
  by_cases h : keptByParser t <;> simp [lastKept, List.filter_append, h]

/-- The token the parser reads at the end of a line: the `Newline` of a logical line, or the
`ErrorToken` the lexer pushes for a string it gives up on at the end of a line. -/
def EndsLine (t : Token) : Prop :=
  t.kind = .newline ∨ (t.kind = .errorToken ∧ IsUnclosedString t.string.toList)

/-- Where a layout token of kind `k` may stand, given the last token the parser reads before
it: first, right after a line end, or, for a `Dedent`, right after another `Dedent`. -/
def LayoutFollows (k : TokenKind) : Option Token → Prop
  | none => True
  | some u => EndsLine u ∨ (k = .dedent ∧ u.kind = .dedent)

/-- **Layout at line starts**: every `Indent` and `Dedent` of `ts` stands where `LayoutFollows`
allows, among the tokens the parser reads. -/
def LayoutAtLineStarts (ts : List Token) : Prop :=
  ∀ pre t post, ts = pre ++ t :: post → (t.kind = .indent ∨ t.kind = .dedent) →
    LayoutFollows t.kind (lastKept pre)

/-- No tokens have no layout token out of place. -/
theorem LayoutAtLineStarts.nil : LayoutAtLineStarts [] := fun pre t post h => by simp at h

/-- A pushed token keeps the layout if, being an `Indent` or a `Dedent`, it goes where
`LayoutFollows` allows. -/
theorem LayoutAtLineStarts.push {ts : List Token} {t : Token} (h : LayoutAtLineStarts ts)
    (ht : t.kind = .indent ∨ t.kind = .dedent → LayoutFollows t.kind (lastKept ts)) :
    LayoutAtLineStarts (ts ++ [t]) := by
  intro pre t' post heq hk
  rcases append_singleton_cases heq.symm with ⟨rfl, rfl⟩ | ⟨post', rfl⟩
  · exact ht hk
  · exact h pre t' post' rfl hk

/-- A token that is neither `Indent` nor `Dedent` keeps the layout. -/
theorem LayoutAtLineStarts.pushPlain {ts : List Token} {t : Token} (h : LayoutAtLineStarts ts)
    (ht : t.kind ≠ .indent ∧ t.kind ≠ .dedent) : LayoutAtLineStarts (ts ++ [t]) :=
  h.push fun hk => (hk.elim ht.1 ht.2).elim

/-- **The line has ended**: if the next line starts a logical line (no string open, no open
bracket, no backslash), the last token the parser reads ends a line. -/
def LexState.LineEnded (st : LexState) : Prop :=
  st.contstrStart = none → st.parenlev = 0 → st.continued = false →
    ∀ u, lastKept st.result = some u → EndsLine u

/-- The invariant of the line loop at a line boundary. -/
structure LexState.Layout (st : LexState) : Prop where
  starts : LayoutAtLineStarts st.result
  ended : st.LineEnded

/-- The invariant inside the scan of `line`, at byte `lp`: a line read to its end, its line
feed included, has ended. -/
def LexState.ScanLayout (line : List Char) (st : LexState) (lp : Nat) : Prop :=
  LayoutAtLineStarts st.result ∧ lp ≤ utf8Len line ∧
    (lp = utf8Len line → line.getLast? = some '\n' → st.LineEnded)

section Keep

variable {input : List Char} {st : LexState} {a b : Nat}

/-- The initial state has no tokens, so the line before has ended. -/
theorem LexState.Layout.init : LexState.init.Layout :=
  ⟨.nil, fun _ _ _ u hu => by simp [LexState.init, lastKept] at hu⟩

/-- A token that the parser does not read. -/
theorem LexState.Layout.pushDropped (h : st.Layout) {k : TokenKind}
    (hk : k = .comment ∨ k = .whitespaceNewline) : (st.push input k a b).Layout := by
  have hkept : keptByParser ⟨k, sourceText input a b, ⟨a, b⟩⟩ = false := by
    rcases hk with rfl | rfl <;> rfl
  refine ⟨h.starts.pushPlain (by rcases hk with rfl | rfl <;> simp), fun hc hp hcont u hu => ?_⟩
  simp only [LexState.push, lastKept_push, hkept] at hu
  exact h.ended hc hp hcont u (by simpa using hu)

/-- After a pushed token that ends a line, the last token the parser keeps ends a line. -/
theorem endsLine_of_push {ts : List Token} {t : Token} (ht : EndsLine t) :
    ∀ u, lastKept (ts ++ [t]) = some u → EndsLine u := by
  intro u hu
  have hkept : keptByParser t = true := by
    rcases ht with h | ⟨h, -⟩ <;> simp [keptByParser, h]
  rw [lastKept_push, if_pos hkept] at hu
  cases hu
  exact ht

/-- A pushed line end, a `Newline` outside brackets, ends the line. -/
theorem LexState.lineEnded_push_lineEnd :
    (st.push input (if st.parenlev > 0 then .whitespaceNewline else .newline) a b).LineEnded := by
  intro _ hp _
  simp only [LexState.push] at hp
  exact endsLine_of_push (.inl (by simp [hp]))

end Keep

/-! ### The pass that reads the line feed -/

section Scan

variable {input line : List Char} {lineStart : Nat} {st : LexState} {initial : Char}
  {tokStart tokEnd : Nat}

/-- A line end `\n` or `\r\n`: a `Newline`, or a `WhitespaceNewline` inside brackets. -/
theorem scanToken_lineEnd {token : List Char} (ht : token = ['\n'] ∨ token = ['\r', '\n'])
    (hinit : token.head? = some initial) :
    scanToken input line lineStart st token initial tokStart tokEnd =
      pure (.next (st.push input (if st.parenlev > 0 then .whitespaceNewline else .newline)
        (lineStart + tokStart) (lineStart + tokEnd)) tokEnd) := by
  rcases ht with rfl | rfl <;> cases hinit <;> rfl

/-- A backslash continuation `\\\n` or `\\\r\n`. -/
theorem scanToken_backslash {token : List Char}
    (ht : token = ['\\', '\n'] ∨ token = ['\\', '\r', '\n']) (hinit : token.head? = some initial) :
    scanToken input line lineStart st token initial tokStart tokEnd =
      pure (.next { st with continued := true } tokEnd) := by
  rcases ht with rfl | rfl <;> cases hinit <;> rfl

/-- A string prefix is at most two letters long. -/
theorem length_le_of_isStringPrefix {pfx : List Char} (hp : IsStringPrefix pfx) :
    pfx.length ≤ 2 := by
  have hl : ∀ l ∈ [[], ['b'], ['r'], ['u'], ['f'], ['b', 'r'], ['r', 'b'], ['f', 'r'], ['r', 'f']],
      l.length ≤ 2 := by decide
  simpa using hl (pfx.map Char.toLower) (by simpa [IsStringPrefix] using hp)

/-- The single-quote test of `scanToken` passes on a token that starts with a string prefix
and a quote: it reads them as one, two or three characters. -/
theorem singleQuoted_test {pfx body : List Char} {q initial : Char} (hp : IsStringPrefix pfx)
    (hq : q = '\'' ∨ q = '"') (hinit : (pfx ++ q :: body).head? = some initial) :
    (IsSingleQuoted [initial] || IsSingleQuoted ((pfx ++ q :: body).take 2) ||
      IsSingleQuoted ((pfx ++ q :: body).take 3)) = true := by
  have hopen : IsSingleQuoted (pfx ++ [q]) := by
    unfold IsSingleQuoted
    rcases hq with rfl | rfl <;> simp [hp]
  have htake : (pfx ++ q :: body).take (pfx.length + 1) = pfx ++ [q] := by
    simp [List.take_append_eq_append_take]
  have hlen := length_le_of_isStringPrefix hp
  rcases (by omega : pfx.length = 0 ∨ pfx.length = 1 ∨ pfx.length = 2) with h | h | h
  · obtain rfl := List.eq_nil_of_length_eq_zero h
    obtain rfl : q = initial := by simpa using hinit
    simp only [List.nil_append] at hopen
    simp [hopen]
  all_goals rw [h] at htake; simp [htake, hopen]

/-- A single-quoted string that a backslash continues to the end of its line leaves the string
open. -/
theorem scanToken_openString {pfx body : List Char} {q : Char} (hp : IsStringPrefix pfx)
    (hq : q = '\'' ∨ q = '"') (hinit : (pfx ++ q :: body).head? = some initial)
    (hnl : (pfx ++ q :: body).getLast? = some '\n') :
    scanToken input line lineStart st (pfx ++ q :: body) initial tokStart tokEnd =
      pure (.next { st with contstrEndRe := some (closingOf (pfx ++ q :: body)),
                            contstrStart := some (lineStart + tokStart),
                            needcont := true } tokEnd) := by
  -- the first character is a prefix letter or the quote
  have hi : initial.isDigit = false ∧ initial ≠ '.' ∧ initial ≠ '\r' ∧ initial ≠ '\n' ∧
      initial ≠ '#' := by
    have : initial ∈ ['b', 'B', 'r', 'R', 'u', 'U', 'f', 'F'] ∨ initial = q := by
      cases pfx with
      | nil => exact .inr (by simpa using hinit.symm)
      | cons c cs =>
        obtain rfl : c = initial := by simpa using hinit
        exact .inl (mem_prefixLetters hp (List.mem_cons_self _ _))
    simp only [List.mem_cons, List.not_mem_nil, or_false] at this
    rcases hq with rfl | rfl <;>
      rcases this with (rfl | rfl | rfl | rfl | rfl | rfl | rfl | rfl) | rfl <;> decide
  have htri : ¬IsTripleQuoted (pfx ++ q :: body) := by
    rw [isTripleQuoted_iff]
    rintro ⟨pfx', q', h, -, hq'⟩
    rw [h] at hnl
    simp only [List.getLast?_append, List.getLast?_cons_cons, List.getLast?_singleton] at hnl
    rcases hq' with rfl | rfl <;> simp at hnl
  have hsq := singleQuoted_test hp hq hinit
  unfold scanToken
  rw [if_neg (by simp [hi]), if_neg (by simp [hi]), if_neg (by simp [hi]), if_neg htri,
    if_pos hsq, if_pos hnl]

/-- What a pass leaves for the next: inside the line, the scan invariant; at a string left
open, the invariant of a line boundary. -/
def ScanStep.Layout (line : List Char) : ScanStep → Prop
  | .next st lp => st.ScanLayout line lp
  | .done st => st.Layout

/-- A pass with the token `token`, read from `tokStart` to `tokEnd` of the line, a match of the
pseudo-token pattern whose first character is `initial`. -/
theorem scanToken_layout {r : ScanStep} {L0 token L1 : List Char}
    (hl : line = L0 ++ token ++ L1) (hstart : utf8Len L0 = tokStart)
    (hend : tokEnd = tokStart + utf8Len token) (hinit : token.head? = some initial)
    (hpat : ∃ R n, Pattern.token R = some n ∧ R.take n = token)
    (hb : LayoutAtLineStarts st.result)
    (h : scanToken input line lineStart st token initial tokStart tokEnd = .ok r) :
    r.Layout line := by
  have hbound : tokEnd ≤ utf8Len line := by rw [hl]; simp only [utf8Len_append]; omega
  by_cases hnl : token.getLast? = some '\n'
  · -- the token reads the line feed: a line end, a backslash continuation or an open string
    obtain ⟨R, n, hR, rfl⟩ := hpat
    rcases token_newline hR (List.mem_of_getLast?_eq_some hnl) with ht | ht | ht | ht | hc
    iterate 2
      rw [scanToken_lineEnd (by simp only [ht]; simp) hinit] at h
      cases h
      exact ⟨hb.pushPlain (by split <;> simp), hbound, fun _ _ => LexState.lineEnded_push_lineEnd⟩
    iterate 2
      rw [scanToken_backslash (by simp only [ht]; simp) hinit] at h
      cases h
      exact ⟨hb, hbound, fun _ _ _ _ hcont => by cases hcont⟩
    obtain ⟨pfx, q, body, htok, hp, hq, -⟩ := contStr_eq_some hc
    rw [htok] at h hinit hnl
    rw [scanToken_openString hp hq hinit hnl] at h
    cases h
    exact ⟨hb, hbound, fun _ _ hc => by cases hc⟩
  · -- otherwise the pass stops short of the line feed, or leaves a string open
    have hshort : tokEnd = utf8Len line → line.getLast? = some '\n' → False := by
      intro heq hlast
      obtain rfl : L1 = [] := utf8Len_eq_zero.1 (by
        rw [hl] at heq; simp only [utf8Len_append] at heq; omega)
      have hne : token ≠ [] := by rintro rfl; cases hinit
      rw [hl, List.append_nil, List.getLast?_append_of_ne_nil _ hne] at hlast
      exact hnl hlast
    rcases scanToken_eq_ok h with ⟨k, hk, rfl⟩ | ⟨-, ⟨e, hfind, rfl⟩ | rfl⟩ |
      ⟨-, -, ⟨hnl', -⟩ | ⟨-, rfl⟩⟩ | ⟨-, rfl⟩ | ⟨_, k, -, hk, rfl⟩
    · exact ⟨hb.pushPlain (by rcases hk.kind with rfl | rfl | rfl | rfl <;> (try split) <;> simp),
        hbound, fun heq hlast => (hshort heq hlast).elim⟩
    · exact ⟨hb.pushPlain (by simp), (Closing.find_bounds hfind).2,
        fun heq hlast => absurd heq (Closing.find_lt hfind hlast).ne⟩
    · exact ⟨hb, fun hc => by cases hc⟩
    · exact absurd hnl' hnl
    · exact ⟨hb.pushPlain (by simp), hbound, fun heq hlast => (hshort heq hlast).elim⟩
    · exact ⟨hb, hbound, fun heq hlast => (hshort heq hlast).elim⟩
    · obtain ⟨p, rfl⟩ := TokenKind.tryFrom_eq_some hk
      exact ⟨hb.pushPlain (by simp), hbound, fun heq hlast => (hshort heq hlast).elim⟩

/-- A pass of the scan inside a line keeps the layout, and a pass that reads the line to its end,
line feed included, leaves the line ended. -/
theorem scanStep_layout {lp : Nat} {r : ScanStep} (hlt : lp < utf8Len line)
    (hb : LayoutAtLineStarts st.result) (h : scanStep input line lineStart st lp = .ok r) :
    r.Layout line := by
  rcases scanStep_eq_ok h with ⟨P, ws, rfl, rfl, hws, rfl⟩ |
    ⟨P, ws, R, n, initial, rfl, rfl, -, htok, hinit, h⟩ | ⟨P, R, rfl, rfl, hpt, rfl⟩
  · -- an empty match: only whitespace is left, and no line feed
    refine ⟨hb, by simp, fun _ hlast => ?_⟩
    have hne : ws ≠ [] := by rintro rfl; simp at hlt
    rw [List.getLast?_append_of_ne_nil _ hne] at hlast
    exact absurd (hws _ (List.mem_of_getLast?_eq_some hlast)) (by decide)
  · exact scanToken_layout (show _ = (P ++ ws) ++ _ ++ R.drop n by simp) (by simp) rfl hinit
      ⟨R, n, htok, rfl⟩ hb h
  · -- no match: an error token for one byte, which is not the line feed
    refine ⟨hb.pushPlain (by simp), hlt, fun heq hlast => ?_⟩
    have hne : R ≠ [] := by rintro rfl; simp at hlt
    rw [List.getLast?_append_of_ne_nil _ hne] at hlast
    obtain ⟨R', rfl⟩ := List.getLast?_eq_some_iff.1 hlast
    obtain rfl : R' = [] := utf8Len_eq_zero.1 (by
      simp only [utf8Len_append, utf8Len_cons, utf8Len_nil] at heq
      have : '\n'.utf8Size = 1 := rfl
      omega)
    exact absurd hpt (by decide)

end Scan

/-! ### The start of a line -/

section Line

variable {input line : List Char} {st : LexState} {lineStart lineEnd : Nat}

/-- What the top of the loop body leaves: the scan invariant where a scan starts, and the
invariant of a line boundary where the line is done with or the loop stops. -/
def LineStart.Layout (line : List Char) : LineStart → Prop
  | .scan st lp => st.ScanLayout line lp
  | .next st => st.Layout
  | .stop st => st.Layout

/-- The dedent loop pushes each `Dedent` after a line end or another `Dedent`. -/
theorem dedentLoop_layout {column restOff : Nat} :
    ∀ {indents : List Nat} {result : List Token} {is : List Nat} {rs : List Token},
      LayoutAtLineStarts result →
      (∀ u, lastKept result = some u → EndsLine u ∨ u.kind = .dedent) →
      dedentLoop input column restOff indents result = .ok (is, rs) → LayoutAtLineStarts rs
  | [], _, _, _, _, _, h => by cases h
  | top :: rest, result, is, rs, hb, hl, h => by
    simp only [dedentLoop] at h
    split_ifs at h
    · refine dedentLoop_layout (hb.push fun _ => ?_) (fun u hu => ?_) h
      · cases hk : lastKept result with
        | none => trivial
        | some u => exact (hl u hk).imp_right fun hu => ⟨rfl, hu⟩
      · simp only [lastKept_push, keptByParser, if_true, Option.some.injEq] at hu
        exact .inr (by rw [← hu])
    · cases h
      exact hb

/-- The indentation of a logical line, read where the last token the parser keeps ends a
line: an `Indent`, after which nothing is popped, or the `Dedent`s. -/
theorem indentLine_layout {st' : LexState} {column restOff : Nat}
    (hb : LayoutAtLineStarts st.result) (hl : ∀ u, lastKept st.result = some u → EndsLine u)
    (h : indentLine input st column lineStart restOff = .ok st') :
    LayoutAtLineStarts st'.result := by
  obtain ⟨top, rest, -, -, ⟨-, hd⟩ | ⟨-, -, hd⟩⟩ := indentLine_eq_ok h
  · simp only [dedentLoop, lt_irrefl, if_false, Except.ok.injEq, Prod.mk.injEq] at hd
    rw [← hd.2]
    refine hb.push fun _ => ?_
    cases hk : lastKept st.result with
    | none => trivial
    | some u => exact .inl (hl u hk)
  · exact dedentLoop_layout hb (fun u hu => .inl (hl u hu)) hd

/-- Inside a string opened on a line before: the line closes it, or the lexer gives it up at
the line's end, or the line belongs to it. -/
theorem continueString_layout {A B : List Char} {s : Nat} {r : LineStart}
    (hin : input = A ++ line ++ B) (hA : A = [] ∨ A.getLast? = some '\n') (hb : st.Layout)
    (hs : st.Strings input (utf8Len A)) (hc : st.contstrStart = some s)
    (h : continueString input st s line (utf8Len A) (utf8Len A + utf8Len line) = .ok r) :
    r.Layout line := by
  obtain ⟨_, -, ho⟩ := hs.opened s hc
  unfold continueString at h
  obtain ⟨c, -, h⟩ := bind_eq_ok.1 h
  split at h
  · -- the line closes the string, before its line feed
    rename_i e hfind
    cases h
    exact ⟨hb.starts.pushPlain (by simp), (Closing.find_bounds hfind).2,
      fun heq hlast => absurd heq (Closing.find_lt hfind hlast).ne⟩
  · split_ifs at h <;> cases h
    · -- an error token ends the string and the line
      exact ⟨hb.starts.pushPlain (by simp),
        fun _ _ _ => endsLine_of_push (.inr ⟨rfl, ho.unclosed hin hA⟩)⟩
    · exact hb

/-- The start of a logical line, with the line before ended, keeps the layout: its `Indent` and
`Dedent` tokens follow that line's end, and a blank or comment line pushes tokens the parser drops.
-/
theorem startLogicalLine_layout {r : LineStart} (hb : st.Layout) (hc : st.contstrStart = none)
    (hp : st.parenlev = 0) (hcont : st.continued = false)
    (h : startLogicalLine input st line lineStart lineEnd = .ok r) : r.Layout line := by
  obtain ⟨ws, rest, rfl, -, hpos⟩ := measure_spec line 0 0
  unfold startLogicalLine at h
  generalize measure (ws ++ rest) 0 0 = p at h hpos
  rcases p with ⟨column, linePos⟩
  dsimp only at h hpos
  split_ifs at h with hend
  · cases h
    exact hb
  simp only [pure_bind] at h
  obtain ⟨_, -, h⟩ := bind_eq_ok.1 h
  obtain ⟨ch, -, h⟩ := bind_eq_ok.1 h
  split_ifs at h
  · -- a comment line
    obtain ⟨_, -, h⟩ := bind_eq_ok.1 (by simpa only [ok_bind] using h)
    cases h
    exact (hb.pushDropped (.inl rfl)).pushDropped (.inr rfl)
  · -- a blank line
    cases h
    exact hb.pushDropped (.inr rfl)
  · -- a logical line: its indentation, then the scan from its first token
    obtain ⟨st', hst', h⟩ := bind_eq_ok.1 (by simpa only [pure_bind] using h)
    cases h
    exact ⟨indentLine_layout hb.starts (hb.ended hc hp hcont) hst',
      by simp only [utf8Len_append] at hend ⊢; omega, fun heq => absurd heq hend⟩

/-- The top of the loop body keeps the layout over its line: a logical line as
`startLogicalLine_layout` says, a line inside an open string or brackets or after a backslash
without layout tokens. -/
theorem startLine_layout {A B : List Char} {r : LineStart} (hin : input = A ++ line ++ B)
    (hA : A = [] ∨ A.getLast? = some '\n') (hs : st.Strings input (utf8Len A)) (hb : st.Layout)
    (h : startLine input st line (utf8Len A) (utf8Len A + utf8Len line) = .ok r) :
    r.Layout line := by
  unfold startLine at h
  split at h
  · exact continueString_layout hin hA hb hs ‹_› h
  · rename_i hc
    split_ifs at h with hlog
    · simp only [Bool.and_eq_true, decide_eq_true_eq, Bool.not_eq_true'] at hlog
      exact startLogicalLine_layout hb hc hlog.1 hlog.2 h
    · -- a line inside brackets or after a backslash: the scan starts at its first byte
      cases h
      refine ⟨hb.starts, Nat.zero_le _, fun h0 hlast => ?_⟩
      obtain ⟨ys, rfl⟩ := List.getLast?_eq_some_iff.1 hlast
      have := Char.utf8Size_pos '\n'
      simp only [utf8Len_append, utf8Len_cons, utf8Len_nil] at h0
      omega

end Line

/-! ### The run -/

section Run

variable {input : List Char}

/-- The layout after the lines `done`: the layout so far, and, at a line start, a line that
has ended. -/
def LayoutUpTo (done : List Char) (st : LexState) : Prop :=
  LayoutAtLineStarts st.result ∧ (done = [] ∨ done.getLast? = some '\n' → st.LineEnded)

/-- A round of the line loop keeps the layout: a line read to its end has ended. -/
theorem round_layout {done l rest : List Char} {st : LexState} (hat : LineAt input done l rest)
    (hs : st.Strings input (utf8Len done)) (hb : LayoutUpTo done st) :
    RoundKeeps input (fun _ => True) LayoutUpTo done l st := by
  -- the line is not empty, so the lines so far end where it does
  have hlast : done ++ l = [] ∨ (done ++ l).getLast? = some '\n' → l.getLast? = some '\n' := by
    rintro (h | h)
    · exact absurd (List.append_eq_nil.1 h).2 hat.ne_nil
    · rwa [List.getLast?_append_of_ne_nil _ hat.ne_nil] at h
  refine EndsIn.of_ok fun r hr => ?_
  have hr' := startLine_layout hat.split hat.start hs ⟨hb.1, hb.2 hat.start⟩ hr
  cases r with
  | scan _ _ =>
    refine scanLine_endsIn (S := LexState.ScanLayout l) trivial
      (fun hs hlt => EndsIn.of_ok fun r hr => ?_) (fun hs hle => ⟨hs.1, fun hl => hs.2.2
        (Nat.le_antisymm hs.2.1 hle) (hlast hl)⟩) hr'
    have := scanStep_layout hlt hs.1 hr
    cases r with
    | next _ _ => exact this
    | done _ => exact ⟨this.starts, fun _ => this.ended⟩
  | next _ | stop _ => exact ⟨hr'.starts, fun _ => hr'.ended⟩

/-- The strings and the layout after the lines of the source, from the start of a run. -/
theorem lineLoop_layout {st : LexState} {last : List Char}
    (h : lineLoop input (linesWithEndings input) LexState.init [] = .ok (st, last)) :
    LayoutUpTo input st :=
  ((lineLoop_endsIn (P := fun done st => st.Strings input (utf8Len done) ∧ LayoutUpTo done st)
    (fun hat hb => (round_strings hat hb.1).and (round_layout hat hb.1 hb.2))
    (splitLines_lines input) (by simp) (.inl rfl)
    ⟨LexState.Strings.init, .nil, fun _ => LexState.Layout.init.ended⟩).of_eq_ok h).2

/-- The same for all the tokens of a run of `tokenize`, counting only those the parser keeps
before each `Indent` and `Dedent`. -/
theorem tokenize_layout {s : List Char} {ts : List Token} (h : tokenize s = .ok ts) :
    ∀ pre t post, ts = pre ++ t :: post → (t.kind = .indent ∨ t.kind = .dedent) →
      t.span.start < utf8Len s → LayoutFollows t.kind (lastKept pre) := by
  unfold tokenize at h
  obtain ⟨⟨st, line⟩, hrun, h⟩ := bind_eq_ok.1 h
  have hb := (lineLoop_layout hrun).1
  obtain ⟨F, rfl, hF⟩ := finish_eq_ok h
  intro pre t post heq hk hlt
  -- the tokens after the last line start at the end of the source
  have hnotF : t ∉ F := fun ht => absurd (hF t ht).1 (by omega)
  rcases List.append_eq_append_iff.1 heq with ⟨a', rfl, hF'⟩ | ⟨c', hst, htF⟩
  · exact absurd (by rw [hF']; simp) hnotF
  · cases c' with
    | nil => exact absurd (by rw [List.nil_append] at htF; rw [← htF]; simp) hnotF
    | cons u c' =>
      obtain ⟨rfl, -⟩ := List.cons.inj htF
      exact hb pre t c' hst hk

/-- **Indentation tokens start logical lines.** Among the tokens `get_parse_tokens` returns,
every `Indent` and every `Dedent` read from the source, rather than added at its end, is the
first token, or follows a `Newline`, or follows the `ErrorToken` of a string the lexer gave up
on at the end of the line before; a `Dedent` may also follow another `Dedent`. This is so
because a line read to its end has ended: after every prefix of whole lines of the source,
unless a string, a bracket or a backslash continuation is open, the last token the parser
keeps ends a line. -/
theorem getParseTokens_layout {s : List Char} {ts : List Token} (h : getParseTokens s = .ok ts) :
    (∀ pre t post, ts = pre ++ t :: post → (t.kind = .indent ∨ t.kind = .dedent) →
      t.span.start < utf8Len s → LayoutFollows t.kind pre.getLast?) ∧
    ∀ p q st last, s = p ++ q → p.getLast? = some '\n' →
      lineLoop s (linesWithEndings p) LexState.init [] = .ok (st, last) → st.LineEnded := by
  refine ⟨?_, fun p q st last hs hp hrun => ?_⟩
  · rw [getParseTokens_eq] at h
    cases hrun : tokenize s with
    | error e => rw [hrun] at h; cases h
    | ok all =>
      rw [hrun] at h
      cases h
      intro pre t post heq hk hlt
      -- the same token in the full stream, after the tokens that give `pre`
      obtain ⟨l₁, l₂, rfl, rfl, h₂⟩ := List.filter_eq_append_iff.1 heq
      obtain ⟨m₁, m₂, rfl, hm₁, -, -⟩ := List.filter_eq_cons_iff.1 h₂
      have hpre : lastKept (l₁ ++ m₁) = (l₁.filter keptByParser).getLast? := by
        rw [lastKept, List.filter_append, List.filter_eq_nil_iff.2 hm₁, List.append_nil]
      rw [← hpre]
      exact tokenize_layout hrun (l₁ ++ m₁) t m₂ (by simp) hk hlt
  · -- the lines of `p` are read as if nothing followed them
    rw [hs, lineLoop_prefix] at hrun
    exact (lineLoop_layout hrun).2 (.inr hp)

/-- The `ErrorToken` before an `Indent` may stand for a triple-quoted string: the lexer gives up
on the single-quoted string of the first line without clearing `needcont`, and so gives up on
the triple-quoted string opened two lines later at the end of its first continued line. -/
theorem getParseTokens_layout_unclosedTriple :
    ∃ ts, getParseTokens "'a\\\nb\n\"\"\"x\ny\n  z\n".toList = .ok ts ∧
      (∀ pre t post, ts = pre ++ t :: post → (t.kind = .indent ∨ t.kind = .dedent) →
        t.span.start < utf8Len "'a\\\nb\n\"\"\"x\ny\n  z\n".toList →
        LayoutFollows t.kind pre.getLast?) ∧
      ∀ p q st last, "'a\\\nb\n\"\"\"x\ny\n  z\n".toList = p ++ q → p.getLast? = some '\n' →
        lineLoop "'a\\\nb\n\"\"\"x\ny\n  z\n".toList (linesWithEndings p) LexState.init [] =
          .ok (st, last) → st.LineEnded :=
  ⟨_, rfl, getParseTokens_layout rfl⟩

end Run

end Lexer

end FeParser
