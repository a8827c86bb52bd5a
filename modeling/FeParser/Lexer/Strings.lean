import FeParser.Lexer.Run

/-!
# String tokens are whole literals

A string token of `tokenize` is read in one of three ways: on one line, as a match of the
single-quoted alternative `ContStr` of the pseudo-token pattern; as a triple-quoted opening
whose closing delimiter the pattern `get_contstr_end_re(token)` finds further on the line; or
across lines, from an opening the lexer remembers (`contstr_start`, `contstr_end_re`) to the
first line where that pattern matches. In every case the token's text, the source under its
span, is a whole literal: a string prefix, an opening delimiter of one quote or three, a body,
and the same delimiter closing it.

The pattern facts come first: what a match of a closing pattern, of `ContStr` and of `Triple`
reads, what `get_contstr_end_re` picks for an opening, and that a token whose opening is a
prefix and a quote can only be a match of `ContStr` or `Triple`, since the other alternatives
read no quote. The run invariant (`LexState.Strings`) then says that the string tokens so far
are whole literals and that an open string starts with the opening of the pattern set to close
it, before the byte the run has read up to. Each function of the lexer keeps it.

## Main results

* `tokenize_strings`: every string token of a successful run is a whole literal.
-/

namespace FeParser

namespace Pattern

/-! ### Closing patterns -/

/-- The delimiter that opens a string and that its closing pattern ends with: one quote, or
three. -/
def Closing.delimiter : Closing → List Char
  | .single => ['\'']
  | .double => ['"']
  | .single3 => ['\'', '\'', '\'']
  | .double3 => ['"', '"', '"']

/-- A match of a closing pattern is a body and then the delimiter. -/
theorem Closing.matchAt_eq_some (c : Closing) {cs : List Char} {n : Nat}
    (h : c.matchAt cs = some n) : ∃ body, cs.take n = body ++ c.delimiter := by
  induction cs using Closing.matchAt.induct c generalizing n with
  | case1 => cases h
  | case2 cs hc | case3 cs hc =>
    subst hc
    unfold matchAt at h
    simp at h
    subst h
    exact ⟨[], rfl⟩
  | case4 cs hc h2 | case6 cs hc h2 =>
    subst hc
    unfold matchAt at h
    simp only [if_pos, h2] at h
    cases h
    exact ⟨[], by simp [delimiter, quote, List.take_succ_cons, h2]⟩
  | case5 cs hc h2 ih | case7 cs hc h2 ih =>
    subst hc
    unfold matchAt at h
    simp only [if_pos, h2, if_false] at h
    obtain ⟨m, hm, rfl⟩ := Option.map_eq_some'.1 h
    obtain ⟨body, hb⟩ := ih hm
    exact ⟨_ :: body, by rw [List.take_succ_cons, hb]; rfl⟩
  | case8 tail hq =>
    unfold matchAt at h
    simp [hq] at h
  | case9 e es hn hq ih =>
    unfold matchAt at h
    simp only [if_neg hq, if_pos] at h
    obtain ⟨m, hm, rfl⟩ := Option.map_eq_some'.1 h
    obtain ⟨body, hb⟩ := ih hm
    exact ⟨'\\' :: e :: body, by simp [hb]⟩
  | case10 hq =>
    unfold matchAt at h
    simp [hq] at h
  | case11 d cs hq hb ih =>
    unfold matchAt at h
    simp only [if_neg hq, if_neg hb] at h
    obtain ⟨m, hm, rfl⟩ := Option.map_eq_some'.1 h
    obtain ⟨body, hb⟩ := ih hm
    exact ⟨d :: body, by simp [hb]⟩

/-- What the search from offset `off` over `ds` finds: a stretch `M` from at or after `start` that
ends with the delimiter, its end the offset found. -/
theorem Closing.find_go_eq_some (c : Closing) (start : Nat) :
    ∀ {ds : List Char} {off e : Nat}, find.go c start ds off = some e →
      ∃ P M R, ds = P ++ M ++ R ∧ start ≤ off + utf8Len P ∧ off + utf8Len P + utf8Len M = e ∧
        ∃ body, M = body ++ c.delimiter
  | [], _, _, h => by simp [find.go] at h
  | d :: ds, off, e, h => by
    simp only [find.go] at h
    split_ifs at h with hs
    · split at h
      · cases h
        obtain ⟨body, hb⟩ := c.matchAt_eq_some ‹_›
        exact ⟨[], _, _, (List.take_append_drop _ _).symm, by simpa, by simp, body, hb⟩
      · obtain ⟨P, M, R, rfl, h1, h2, hM⟩ := find_go_eq_some c start h
        exact ⟨d :: P, M, R, rfl, by simp; omega, by simp; omega, hM⟩
    · obtain ⟨P, M, R, rfl, h1, h2, hM⟩ := find_go_eq_some c start h
      exact ⟨d :: P, M, R, rfl, by simp; omega, by simp; omega, hM⟩

/-- The search finds, from byte `start` on, a body followed by the delimiter. -/
theorem Closing.find_eq_some {c : Closing} {line : List Char} {start e : Nat}
    (h : c.find line start = some e) :
    ∃ P M R, line = P ++ M ++ R ∧ start ≤ utf8Len P ∧ utf8Len P + utf8Len M = e ∧
      ∃ body, M = body ++ c.delimiter := by
  simpa using c.find_go_eq_some start h

/-! ### Openings -/

/-- The letters that lower to those of a string prefix. -/
theorem mem_prefixLetters_of_toLower {c : Char} (h : c.toLower ∈ ['b', 'r', 'u', 'f']) :
    c ∈ ['b', 'B', 'r', 'R', 'u', 'U', 'f', 'F'] := by
  -- an upper-case letter is lowered by adding 32 to its code
  have upper : ∀ n < 26, Char.ofNat (n + 65 + 32) ∈ ['b', 'r', 'u', 'f'] →
      Char.ofNat (n + 65) ∈ ['b', 'B', 'r', 'R', 'u', 'U', 'f', 'F'] := by decide
  unfold Char.toLower at h
  dsimp only at h
  split_ifs at h with hn
  · rw [← Char.ofNat_toNat c]
    have := upper (c.toNat - 65) (by omega)
    rw [Nat.sub_add_cancel hn.1] at this
    exact this h
  · simp only [List.mem_cons, List.mem_singleton, List.not_mem_nil, or_false] at h
    rcases h with rfl | rfl | rfl | rfl <;> simp

/-- A string prefix is made of those letters. -/
theorem mem_prefixLetters {pfx : List Char} (hp : IsStringPrefix pfx) {c : Char} (hc : c ∈ pfx) :
    c ∈ ['b', 'B', 'r', 'R', 'u', 'U', 'f', 'F'] := by
  have hl : ∀ l ∈ [[], ['b'], ['r'], ['u'], ['f'], ['b', 'r'], ['r', 'b'], ['f', 'r'], ['r', 'f']],
      ∀ x ∈ l, x ∈ ['b', 'r', 'u', 'f'] := by decide
  exact mem_prefixLetters_of_toLower (hl _ (by simpa [IsStringPrefix] using hp) _
    (List.mem_map_of_mem _ hc))

/-- The opening of a string: a string prefix and a quote. -/
theorem stringOpening_eq_some {cs : List Char} {p : Nat} {q : Char}
    (h : stringOpening cs = some (p, q)) :
    ∃ pfx rest, cs = pfx ++ q :: rest ∧ pfx.length = p ∧ IsStringPrefix pfx ∧
      (q = '\'' ∨ q = '"') := by
  obtain ⟨a, -, ha⟩ := List.exists_of_findSome?_eq_some h
  split at ha
  · rename_i q' rest hdrop
    split_ifs at ha with hc
    cases ha
    simp only [Bool.and_eq_true, Bool.or_eq_true, decide_eq_true_eq] at hc
    have hlen : p < cs.length := by
      by_contra hle
      simp [List.drop_eq_nil_of_le (Nat.le_of_not_lt hle)] at hdrop
    exact ⟨cs.take p, rest, by rw [← hdrop, List.take_append_drop], by simp; omega, hc.2, hc.1⟩
  · cases ha

/-- The rest of a single-quoted string is a body closed by the quote, or continued by a
backslash and a line end. -/
theorem contStrBody_eq_some (q : Char) {cs : List Char} {n : Nat}
    (h : contStrBody q cs = some n) :
    ∃ body, cs.take n = body ++ [q] ∨ cs.take n = body ++ ['\n'] := by
  induction cs using contStrBody.induct q generalizing n with
  | case1 => cases h
  | case2 cs =>
    unfold contStrBody at h
    simp at h
    subst h
    exact ⟨[], .inl rfl⟩
  | case3 cs hq =>
    unfold contStrBody at h
    simp [hq] at h
  | case4 tail hq _ =>
    unfold contStrBody at h
    simp [hq] at h
    subst h
    exact ⟨['\\'], .inr rfl⟩
  | case5 tail hq _ =>
    unfold contStrBody at h
    simp [hq] at h
    subst h
    exact ⟨['\\', '\r'], .inr rfl⟩
  | case6 e ds hn hr hq _ ih =>
    unfold contStrBody at h
    simp only [hq, if_false] at h
    obtain ⟨m, hm, rfl⟩ := Option.map_eq_some'.1 h
    obtain ⟨body, hb⟩ := ih hm
    exact ⟨'\\' :: e :: body, by rcases hb with hb | hb <;> simp [hb]⟩
  | case7 hq _ =>
    unfold contStrBody at h
    simp [hq] at h
  | case8 c cs hq hn hb ih =>
    unfold contStrBody at h
    simp only [if_neg hq, if_neg hn, if_neg hb] at h
    obtain ⟨m, hm, rfl⟩ := Option.map_eq_some'.1 h
    obtain ⟨body, hb⟩ := ih hm
    exact ⟨c :: body, by rcases hb with hb | hb <;> simp [hb]⟩

/-- A single-quoted string matched by `ContStr`: a prefix, the quote, and a body that the
quote closes or a backslash continues; a body that starts with the quote is that quote
alone. -/
theorem contStr_eq_some {cs : List Char} {n : Nat} (h : contStr cs = some n) :
    ∃ pfx q body, cs.take n = pfx ++ q :: body ∧ IsStringPrefix pfx ∧ (q = '\'' ∨ q = '"') ∧
      (∃ b, body = b ++ [q] ∨ body = b ++ ['\n']) ∧ (body.head? = some q → body = [q]) := by
  obtain ⟨⟨p, q⟩, ho, h⟩ := Option.bind_eq_some.1 h
  obtain ⟨m, hm, rfl⟩ := Option.map_eq_some'.1 h
  obtain ⟨pfx, rest, rfl, rfl, hp, hq⟩ := stringOpening_eq_some ho
  have hdrop : (pfx ++ q :: rest).drop (pfx.length + 1) = rest := by simp
  rw [hdrop] at hm
  refine ⟨pfx, q, rest.take m, by rw [Nat.add_assoc, List.take_append, Nat.add_comm,
    List.take_succ_cons], hp, hq, contStrBody_eq_some q hm, fun hh => ?_⟩
  -- the quote right after the opening closes the string at once
  cases rest with
  | nil => simp at hh
  | cons d r =>
    cases m with
    | zero => simp at hh
    | succ m =>
      obtain rfl : d = q := by simpa using hh
      rw [show contStrBody d (d :: r) = some 1 by unfold contStrBody; simp] at hm
      cases hm
      rfl

/-- `get_single_quote_set().contains(s)`: a string prefix and a quote. -/
theorem isSingleQuoted_eq_true {s : List Char} (h : IsSingleQuoted s) :
    ∃ pre q, s = pre ++ [q] ∧ IsStringPrefix pre ∧ (q = '\'' ∨ q = '"') := by
  unfold IsSingleQuoted at h
  split at h
  · rename_i q pre hs
    simp only [Bool.and_eq_true, Bool.or_eq_true, decide_eq_true_eq] at h
    exact ⟨pre.reverse, q, by rw [← List.reverse_reverse s, hs]; simp, h.2, h.1⟩
  · cases h

/-- `get_triple_quote_set().contains(token)`: a prefix and three quotes of one kind. -/
theorem isTripleQuoted_iff {t : List Char} :
    IsTripleQuoted t ↔
      ∃ pfx q, t = pfx ++ [q, q, q] ∧ IsStringPrefix pfx ∧ (q = '\'' ∨ q = '"') := by
  constructor
  · intro h
    simp only [IsTripleQuoted, Bool.and_eq_true, Bool.or_eq_true, decide_eq_true_eq] at h
    obtain ⟨⟨hlen, hp⟩, hq⟩ := h
    have ht : t = (t.reverse.drop 3).reverse ++ (t.reverse.take 3).reverse := by
      rw [← List.reverse_append, List.take_append_drop, List.reverse_reverse]
    rcases hq with hq | hq <;> rw [hq] at ht <;> simp only [List.reverse_cons, List.reverse_nil,
      List.nil_append, List.cons_append, List.singleton_append] at ht <;>
      refine ⟨_, _, ht, ?_, by simp⟩ <;> rw [ht] at hp <;> simpa using hp
  · rintro ⟨pfx, q, rfl, hp, hq⟩
    rcases hq with rfl | rfl <;> simp [IsTripleQuoted, hp]

/-- A match of `Triple` is a triple-quoted opening. -/
theorem triple_eq_some {cs : List Char} {n : Nat} (h : triple cs = some n) :
    IsTripleQuoted (cs.take n) := by
  obtain ⟨⟨p, q⟩, ho, h⟩ := Option.bind_eq_some.1 h
  dsimp only at h
  split_ifs at h with h3
  cases h
  obtain ⟨pfx, rest, rfl, rfl, hp, hq⟩ := stringOpening_eq_some ho
  obtain ⟨r, rfl⟩ : ∃ r, rest = q :: q :: r := by
    rcases rest with _ | ⟨a, _ | ⟨b, r⟩⟩ <;> simp_all
  exact isTripleQuoted_iff.2 ⟨pfx, q, by simp [List.take_append_eq_append_take], hp, hq⟩

/-- `get_contstr_end_re`: after a prefix and a quote, the closing pattern ends with three
quotes if the token opens with three, and with one otherwise. -/
theorem closingOf_delimiter {pfx rest : List Char} {q : Char} (hp : IsStringPrefix pfx)
    (hq : q = '\'' ∨ q = '"') :
    (closingOf (pfx ++ q :: rest)).delimiter =
      if rest.take 2 = [q, q] then [q, q, q] else [q] := by
  have hstrip : lstripSlice (pfx ++ q :: rest) ['b', 'B', 'r', 'R', 'u', 'U', 'f', 'F'] =
      q :: rest := by
    rw [lstripSlice, List.dropWhile_append, if_pos (by
      simpa [List.dropWhile_eq_nil_iff] using fun c hc => mem_prefixLetters hp hc)]
    rcases hq with rfl | rfl <;> rfl
  unfold closingOf
  rw [hstrip]
  rcases hq with rfl | rfl
  · by_cases h2 : rest.take 2 = ['\'', '\''] <;>
      simp [h2, List.take_succ_cons, Closing.delimiter]
  · by_cases h2 : rest.take 2 = ['"', '"'] <;> simp [h2, List.take_succ_cons, Closing.delimiter]

/-! ### The alternative that reads a quote -/

/-- `Name = \w+` matches word characters only. -/
theorem name_eq_some {cs : List Char} {n : Nat} (h : name cs = some n) :
    ∀ c ∈ cs.take n, isWordChar c := by
  have hn : n = (cs.takeWhile isWordChar).length := by
    unfold name at h
    split at h <;> simp_all
  rw [hn, ← List.prefix_iff_eq_take.1 (List.takeWhile_prefix _)]
  exact fun _ => List.mem_takeWhile_imp

/-- The characters a string can start with: a quote, or a letter of a string prefix. -/
def openingChars : List Char := ['\'', '"', 'b', 'B', 'r', 'R', 'u', 'U', 'f', 'F']

/-- From a character that can open a string, only three alternatives of the pseudo-token
can match: `Triple`, `ContStr` and `Name`. -/
theorem token_opening {c : Char} (hc : c ∈ openingChars) (cs : List Char) :
    token (c :: cs) = (triple (c :: cs) <|> contStr (c :: cs) <|> name (c :: cs)) := by
  simp only [openingChars, List.mem_cons, List.mem_singleton, List.not_mem_nil, or_false] at hc
  rcases hc with rfl | rfl | rfl | rfl | rfl | rfl | rfl | rfl | rfl | rfl <;> rfl

/-- A token whose opening is a prefix and a quote, and that is no triple-quoted opening, is a
match of `ContStr`: no other alternative reads a quote. -/
theorem contStr_of_token {cs : List Char} {n : Nat} (h : token cs = some n) {pfx rest : List Char}
    {q : Char} (hcs : cs.take n = pfx ++ q :: rest) (hp : IsStringPrefix pfx)
    (hq : q = '\'' ∨ q = '"') (htri : ¬IsTripleQuoted (cs.take n)) : contStr cs = some n := by
  obtain ⟨c, cs, rfl⟩ : ∃ c cs', cs = c :: cs' := by
    cases cs with
    | nil => simp at hcs
    | cons c cs => exact ⟨c, cs, rfl⟩
  have hc : c ∈ openingChars := by
    cases n with
    | zero => simp at hcs
    | succ n =>
      rw [List.take_succ_cons] at hcs
      cases pfx with
      | nil => rcases hq with rfl | rfl <;> simp_all [openingChars]
      | cons d pfx =>
        obtain ⟨rfl, -⟩ := List.cons.inj hcs
        have := mem_prefixLetters hp (List.mem_cons_self _ _)
        simp only [List.mem_cons, List.mem_singleton, List.not_mem_nil, or_false] at this
        rcases this with h | h | h | h | h | h | h | h <;> simp [h, openingChars]
  rw [token_opening hc] at h
  cases ht : triple (c :: cs) with
  | some m =>
    rw [ht] at h
    cases h
    exact absurd (triple_eq_some ht) htri
  | none =>
    rw [ht] at h
    cases hs : contStr (c :: cs) with
    | some m => rw [hs] at h; exact h
    | none =>
      -- a name reads no quote
      rw [hs] at h
      have := name_eq_some h q (by rw [hcs]; simp)
      rcases hq with rfl | rfl <;> simp [isWordChar] at this

end Pattern

namespace Lexer

open Pattern

/-- A whole string literal: a string prefix, an opening delimiter, a body, and the same
delimiter closing it. -/
def IsStringLiteral (s : List Char) : Prop :=
  ∃ (pfx : List Char) (c : Closing) (body : List Char),
    IsStringPrefix pfx ∧ s = pfx ++ c.delimiter ++ body ++ c.delimiter

/-- The text of the `ErrorToken` for a string the lexer gives up on at the end of a line: the
source from the string's opening, a string prefix and its delimiter, to the end of that line,
past the line feed of a line before. -/
def IsUnclosedString (text : List Char) : Prop :=
  ∃ (pfx : List Char) (c : Closing) (body : List Char),
    IsStringPrefix pfx ∧ text = pfx ++ c.delimiter ++ body ∧ '\n' ∈ body

/-- The string opened at byte `s` of the source: a string prefix and the opening delimiter of
`c`, the pattern set to close it, ending by byte `f`. -/
def OpenString (input : List Char) (f s : Nat) (c : Closing) : Prop :=
  ∃ X pfx Y, input = X ++ (pfx ++ c.delimiter) ++ Y ∧ utf8Len X = s ∧ IsStringPrefix pfx ∧
    utf8Len X + utf8Len (pfx ++ c.delimiter) ≤ f

/-- The invariant of a run that has read the source up to byte `f`: every string token so far
is a whole literal, and a string still open starts, before `f`, with the opening of the
pattern set to close it. -/
structure LexState.Strings (input : List Char) (f : Nat) (st : LexState) : Prop where
  whole : ∀ t ∈ st.result, t.kind = .str → IsStringLiteral t.string.toList
  opened : ∀ s, st.contstrStart = some s → ∃ c, st.contstrEndRe = some c ∧ OpenString input f s c

/-! ### Closing a string -/

section Close

variable {input : List Char} {f s : Nat} {c : Closing}

/-- Of two prefixes of one text, the one with fewer bytes is a prefix of the other. -/
theorem prefix_of_utf8Len_le {l₁ l₂ L : List Char} (h₁ : l₁ <+: L) (h₂ : l₂ <+: L)
    (hle : utf8Len l₁ ≤ utf8Len l₂) : l₁ <+: l₂ := by
  rcases List.prefix_or_prefix_of_prefix h₁ h₂ with h | ⟨t, rfl⟩
  · exact h
  · rw [utf8Len_eq_zero.1 (show utf8Len t = 0 by simp only [utf8Len_append] at hle; omega),
      List.append_nil]

/-- A string open before `f` is open before any later frontier. -/
theorem OpenString.mono (h : OpenString input f s c) {g : Nat} (hfg : f ≤ g) :
    OpenString input g s c :=
  let ⟨X, pfx, Y, hin, hX, hp, hle⟩ := h
  ⟨X, pfx, Y, hin, hX, hp, hle.trans hfg⟩

/-- The source from the start of an open string to the end of a closing delimiter found past
its opening is a whole literal. -/
theorem OpenString.close {A P M Z : List Char} (ho : OpenString input f s c)
    (hin : input = A ++ P ++ M ++ Z) (hf : f ≤ utf8Len A + utf8Len P)
    (hM : ∃ body, M = body ++ c.delimiter) :
    IsStringLiteral (sourceText input s (utf8Len A + utf8Len P + utf8Len M)).toList := by
  obtain ⟨X, pfx, Y, hX, rfl, hp, hle⟩ := ho
  obtain ⟨body, rfl⟩ := hM
  -- the opening lies in the text before the delimiter
  obtain ⟨W, hW⟩ := @prefix_of_utf8Len_le _ (A ++ P) input ⟨Y, hX.symm⟩
    ⟨body ++ c.delimiter ++ Z, by rw [hin]; simp⟩
    (by simp only [utf8Len_append] at hle ⊢; omega)
  have hlen := congrArg utf8Len hW
  have htext := sourceText_append X (pfx ++ c.delimiter ++ W ++ (body ++ c.delimiter)) Z
  rw [show X ++ (pfx ++ c.delimiter ++ W ++ (body ++ c.delimiter)) ++ Z = input by
    rw [hin, ← hW]; simp] at htext
  rw [show utf8Len A + utf8Len P + utf8Len (body ++ c.delimiter) =
      utf8Len X + utf8Len (pfx ++ c.delimiter ++ W ++ (body ++ c.delimiter)) by
    simp only [utf8Len_append] at hlen ⊢; omega, htext]
  exact ⟨pfx, c, W ++ body, hp, by simp⟩

/-- The source from the start of a string opened on an earlier line to the end of a later
line: the string's opening, then text past the line feed that ends the line before. -/
theorem OpenString.unclosed {A L B : List Char} (ho : OpenString input (utf8Len A) s c)
    (hin : input = A ++ L ++ B) (hA : A = [] ∨ A.getLast? = some '\n') :
    IsUnclosedString (sourceText input s (utf8Len A + utf8Len L)).toList := by
  obtain ⟨X, pfx, Y, hX, rfl, hp, hle⟩ := ho
  -- the opening lies in the lines before, and so does the line feed that ends them
  obtain ⟨W, hW⟩ := @prefix_of_utf8Len_le (X ++ (pfx ++ c.delimiter)) A input ⟨Y, hX.symm⟩
    ⟨L ++ B, by rw [hin]; simp⟩ (by simpa only [utf8Len_append] using hle)
  have hnl : '\n' ∈ W := by
    rcases hA with rfl | hA
    · cases c <;> simp [Closing.delimiter] at hW
    · rw [← hW] at hA
      rcases List.eq_nil_or_concat' W with rfl | ⟨W', x, rfl⟩
      · cases c <;> simp [Closing.delimiter] at hA
      · simp only [← List.append_assoc, List.getLast?_concat, Option.some.injEq] at hA
        simp [hA]
  have htext := sourceText_append X (pfx ++ c.delimiter ++ (W ++ L)) B
  rw [show X ++ (pfx ++ c.delimiter ++ (W ++ L)) ++ B = input by rw [hin, ← hW]; simp] at htext
  rw [show utf8Len A + utf8Len L = utf8Len X + utf8Len (pfx ++ c.delimiter ++ (W ++ L)) by
    rw [← hW]; simp only [utf8Len_append]; omega, htext]
  exact ⟨pfx, c, W ++ L, hp, by simp, List.mem_append_left _ hnl⟩

end Close

/-! ### What keeps the invariant -/

section Keep

variable {input : List Char} {f : Nat} {st : LexState}

/-- The initial state has no tokens and no open string. -/
theorem LexState.Strings.init : LexState.init.Strings input 0 :=
  ⟨fun _ => nofun, fun _ => nofun⟩

/-- The invariant at a frontier holds at any later one. -/
theorem LexState.Strings.mono (h : st.Strings input f) {g : Nat} (hfg : f ≤ g) :
    st.Strings input g :=
  ⟨h.whole, fun s hs => (h.opened s hs).imp fun _ ⟨hc, ho⟩ => ⟨hc, ho.mono hfg⟩⟩

/-- A token of another kind. -/
theorem LexState.Strings.push (h : st.Strings input f) {k : TokenKind} (hk : k ≠ .str)
    {a b : Nat} : (st.push input k a b).Strings input f :=
  ⟨List.forall_mem_append.2 ⟨h.whole, List.forall_mem_singleton.2 fun hs => absurd hs hk⟩,
    h.opened⟩

/-- A string token over a whole literal. -/
theorem LexState.Strings.pushStr (h : st.Strings input f) {a b : Nat}
    (hlit : IsStringLiteral (sourceText input a b).toList) :
    (st.push input .str a b).Strings input f :=
  ⟨List.forall_mem_append.2 ⟨h.whole, List.forall_mem_singleton.2 fun _ => hlit⟩, h.opened⟩

/-- Comments, line ends, indentation and the end marker. -/
theorem LexState.Strings.append (h : st.Strings input f) {ts : List Token}
    (hk : ∀ t ∈ ts, IsMarker t.kind) :
    ∀ t ∈ st.result ++ ts, t.kind = .str → IsStringLiteral t.string.toList :=
  List.forall_mem_append.2 ⟨h.whole, fun t ht hs => absurd hs (hk t ht).ne_str⟩

/-- With no string open, the invariant is about the tokens only. -/
theorem LexState.Strings.of_none {st' : LexState}
    (h : ∀ t ∈ st'.result, t.kind = .str → IsStringLiteral t.string.toList)
    (hc : st'.contstrStart = none) : st'.Strings input f :=
  ⟨h, fun _ hs => by rw [hc] at hs; cases hs⟩

end Keep

/-! ### The start of a line -/

section Line

variable {input A line B : List Char} {st : LexState} {lineEnd : Nat}

/-- What the start of a line leaves: the invariant, and no string open where a scan starts. -/
def LineStart.Strings (input : List Char) (f : Nat) : LineStart → Prop
  | .scan st _ => st.Strings input f ∧ st.contstrStart = none
  | .next st => st.Strings input f
  | .stop st => st.Strings input f

/-- A line that continues an open string keeps the invariant: a string token it pushes runs from the
opening to a closing delimiter on the line, and a string it leaves open stays open. -/
theorem continueString_strings {s : Nat} {r : LineStart} (hin : input = A ++ line ++ B)
    (hb : st.Strings input (utf8Len A)) (hs : st.contstrStart = some s)
    (h : continueString input st s line (utf8Len A) lineEnd = .ok r) :
    r.Strings input (utf8Len A + utf8Len line) := by
  obtain ⟨c, hc, ho⟩ := hb.opened s hs
  unfold continueString at h
  simp only [hc, unwrap, ok_bind] at h
  split at h
  · -- the line closes the string
    rename_i e hfind
    cases h
    obtain ⟨P, M, R, rfl, -, rfl, hM⟩ := Closing.find_eq_some hfind
    refine ⟨LexState.Strings.of_none (hb.pushStr ?_).whole rfl, rfl⟩
    rw [← Nat.add_assoc]
    exact ho.close (Z := R ++ B) (by rw [hin]; simp) (by omega) hM
  · split_ifs at h <;> cases h
    · exact LexState.Strings.of_none (hb.push (by decide)).whole rfl
    · exact hb.mono (by omega)

/-- The start of a logical line, where no string is open, keeps the invariant: it pushes no string.
-/
theorem startLogicalLine_strings {f lineStart : Nat} {r : LineStart} (hb : st.Strings input f)
    (hc : st.contstrStart = none) (h : startLogicalLine input st line lineStart lineEnd = .ok r) :
    r.Strings input f := by
  obtain ⟨ts, hts, hk, hc'⟩ := startLogicalLine_appends h
  have hs : r.state.Strings input f := LexState.Strings.of_none (hts ▸ hb.append hk) (hc'.trans hc)
  cases r with
  | scan st' lp => exact ⟨hs, hc'.trans hc⟩
  | next st' => exact hs
  | stop st' => exact hs

/-- The top of the loop body keeps the invariant over its line, and a scan starts with no string
open. -/
theorem startLine_strings {r : LineStart} (hin : input = A ++ line ++ B)
    (hb : st.Strings input (utf8Len A)) (h : startLine input st line (utf8Len A) lineEnd = .ok r) :
    r.Strings input (utf8Len A + utf8Len line) := by
  unfold startLine at h
  split at h
  · exact continueString_strings hin hb ‹_› h
  · split_ifs at h
    · exact startLogicalLine_strings (hb.mono (by omega)) ‹_› h
    · cases h
      exact ⟨LexState.Strings.of_none hb.whole ‹_›, ‹_›⟩

end Line

/-! ### The in-line scan -/

section Scan

variable {input A line B : List Char}

/-- What a pass leaves for the next: the invariant, and no string open unless the line has
been read to its end. -/
def ScanStep.Strings (input line : List Char) (f : Nat) : ScanStep → Prop
  | .next st lp => st.Strings input f ∧ (st.contstrStart = none ∨ lp = utf8Len line)
  | .done st => st.Strings input f

/-- A token that passes the single-quote test is a match of `ContStr`: a prefix, a quote, and
a body that the quote closes or a backslash continues. -/
theorem singleQuoted_token {token : List Char} {initial : Char} (hinit : token.head? = some initial)
    (hpat : ∃ R n, Pattern.token R = some n ∧ R.take n = token) (htri : ¬IsTripleQuoted token)
    (hsq : (IsSingleQuoted [initial] || IsSingleQuoted (token.take 2) ||
      IsSingleQuoted (token.take 3)) = true) :
    ∃ pfx q body, token = pfx ++ q :: body ∧ IsStringPrefix pfx ∧ (q = '\'' ∨ q = '"') ∧
      (∃ b, body = b ++ [q] ∨ body = b ++ ['\n']) ∧ (body.head? = some q → body = [q]) := by
  obtain ⟨R, n, hR, rfl⟩ := hpat
  -- the test reads a prefix and a quote off the start of the token
  obtain ⟨k, hk⟩ : ∃ k, IsSingleQuoted ((R.take n).take k) := by
    simp only [Bool.or_eq_true] at hsq
    rcases hsq with (h | h) | h
    · refine ⟨1, ?_⟩
      obtain ⟨rest, hrest⟩ : ∃ rest, R.take n = initial :: rest := by
        cases hr : R.take n with
        | nil => simp [hr] at hinit
        | cons d rest => rw [hr] at hinit; cases hinit; exact ⟨rest, rfl⟩
      rwa [hrest]
    exacts [⟨2, h⟩, ⟨3, h⟩]
  obtain ⟨pre, q, hpre, hp, hq⟩ := isSingleQuoted_eq_true hk
  have hopen : R.take n = pre ++ q :: (R.take n).drop k := by
    have := List.take_append_drop k (R.take n)
    rw [hpre] at this
    simpa using this.symm
  exact contStr_eq_some (contStr_of_token hR hopen hp hq htri)

/-- A pass with the token `token`, read from `tokStart` to `tokEnd` of the line, a match of the
pseudo-token pattern whose first character is `initial`. -/
theorem scanToken_strings {st : LexState} {r : ScanStep} {L0 token L1 : List Char}
    {initial : Char} {tokStart tokEnd : Nat} (hin : input = A ++ line ++ B)
    (hline : ∀ P Q, line = P ++ '\n' :: Q → Q = []) (hl : line = L0 ++ token ++ L1)
    (hstart : utf8Len L0 = tokStart) (hend : tokEnd = tokStart + utf8Len token)
    (hinit : token.head? = some initial)
    (hpat : ∃ R n, Pattern.token R = some n ∧ R.take n = token)
    (hb : st.Strings input (utf8Len A + utf8Len line)) (hc : st.contstrStart = none)
    (h : scanToken input line (utf8Len A) st token initial tokStart tokEnd = .ok r) :
    r.Strings input line (utf8Len A + utf8Len line) := by
  have hin' : input = A ++ L0 ++ token ++ (L1 ++ B) := by simp [hin, hl]
  have hbound : tokEnd ≤ utf8Len line := by rw [hl]; simp only [utf8Len_append]; omega
  -- an opening at the start of the token, as an open string
  have hopen : ∀ {pfx : List Char} (rest : List Char) {c : Closing},
      token = pfx ++ c.delimiter ++ rest → IsStringPrefix pfx →
        OpenString input (utf8Len A + tokEnd) (utf8Len A + tokStart) c := by
    intro pfx rest c ht hp
    refine ⟨A ++ L0, pfx, rest ++ (L1 ++ B), by rw [hin', ht]; simp, by simp [hstart], hp, ?_⟩
    rw [hend, ht]
    simp only [utf8Len_append]
    omega
  rcases scanToken_eq_ok h with ⟨k, hk, rfl⟩ | ⟨htri, ⟨e, hfind, rfl⟩ | rfl⟩ |
    ⟨htri, hsq, ⟨hnl, rfl⟩ | ⟨hnl, rfl⟩⟩ | ⟨-, rfl⟩ | ⟨_, k, -, hk, rfl⟩
  · -- a number, a comment, a name or a line end
    refine ⟨hb.push ?_, .inl hc⟩
    rcases hk.kind with rfl | rfl | rfl | rfl <;> (try split) <;> exact nofun
  · -- a triple-quoted string closed on the line
    obtain ⟨pfx, q, rfl, hp, hq⟩ := isTripleQuoted_iff.1 htri
    have hdelim : (closingOf (pfx ++ [q, q, q])).delimiter = [q, q, q] := by
      simpa using @closingOf_delimiter _ [q, q] _ hp hq
    obtain ⟨P, M, R, hPMR, hP, rfl, hM⟩ := Closing.find_eq_some hfind
    refine ⟨LexState.Strings.of_none (hb.pushStr ?_).whole hc, .inl hc⟩
    rw [← Nat.add_assoc]
    exact (hopen [] (by rw [hdelim]; simp) hp).close (Z := R ++ B)
      (by rw [hin, hPMR]; simp) (by omega) hM
  · -- a triple-quoted string left open
    obtain ⟨pfx, q, rfl, hp, hq⟩ := isTripleQuoted_iff.1 htri
    have hdelim : (closingOf (pfx ++ [q, q, q])).delimiter = [q, q, q] := by
      simpa using @closingOf_delimiter _ [q, q] _ hp hq
    refine ⟨hb.whole, fun s hs => ⟨_, rfl, ?_⟩⟩
    cases hs
    exact (hopen [] (by rw [hdelim]; simp) hp).mono (by omega)
  · -- a single-quoted string continued by a backslash: it ends the line
    obtain ⟨pfx, q, body, rfl, hp, hq, -, hhead⟩ := singleQuoted_token hinit hpat htri hsq
    have hdelim : (closingOf (pfx ++ q :: body)).delimiter = [q] := by
      rw [closingOf_delimiter hp hq, if_neg]
      intro h2
      have hq1 : body.head? = some q := by
        cases body with
        | nil => simp at h2
        | cons d ds => simp at h2; simp [h2.1]
      simp [hhead hq1] at h2
    obtain ⟨T, hT⟩ := List.getLast?_eq_some_iff.1 hnl
    obtain rfl : L1 = [] := hline (L0 ++ T) L1 (by rw [hl, hT]; simp)
    refine ⟨⟨hb.whole, fun s hs => ⟨_, rfl, ?_⟩⟩, .inr (by rw [hl, hend, ← hstart]; simp)⟩
    cases hs
    exact (hopen body (by rw [hdelim]; simp) hp).mono (by omega)
  · -- a single-quoted string closed on the line
    obtain ⟨pfx, q, body, rfl, hp, hq, ⟨b, hbody | hbody⟩, -⟩ :=
      singleQuoted_token hinit hpat htri hsq
    · have htext : sourceText input (utf8Len A + tokStart) (utf8Len A + tokEnd) =
          ⟨pfx ++ q :: body⟩ := by
        have := sourceText_append (A ++ L0) (pfx ++ q :: body) (L1 ++ B)
        rwa [← hin', utf8Len_append, hstart, Nat.add_assoc, ← hend] at this
      refine ⟨hb.pushStr ?_, .inl hc⟩
      rw [htext, hbody]
      rcases hq with rfl | rfl
      exacts [⟨pfx, .single, b, hp, by simp [Closing.delimiter]⟩,
        ⟨pfx, .double, b, hp, by simp [Closing.delimiter]⟩]
    · refine absurd ?_ hnl
      rw [hbody, ← List.cons_append, ← List.append_assoc]
      exact List.getLast?_concat _
  · -- a backslash continuation
    exact ⟨⟨hb.whole, hb.opened⟩, .inl hc⟩
  · -- an operator or a bracket
    obtain ⟨p, rfl⟩ := TokenKind.tryFrom_eq_some hk
    refine ⟨LexState.Strings.push ?_ (fun h => by cases h), .inl hc⟩
    exact ⟨hb.whole, hb.opened⟩

/-- A pass of the scan keeps the invariant over its line: a string token is a whole literal, and a
string left open has its opening on the line. -/
theorem scanStep_strings {st : LexState} {lp : Nat} {r : ScanStep} (hin : input = A ++ line ++ B)
    (hline : ∀ P Q, line = P ++ '\n' :: Q → Q = [])
    (hb : st.Strings input (utf8Len A + utf8Len line)) (hc : st.contstrStart = none)
    (h : scanStep input line (utf8Len A) st lp = .ok r) :
    r.Strings input line (utf8Len A + utf8Len line) := by
  rcases scanStep_eq_ok h with ⟨-, -, -, -, -, rfl⟩ |
    ⟨P, ws, R, n, initial, rfl, rfl, -, htok, hinit, h⟩ | ⟨-, -, -, -, -, rfl⟩
  · exact ⟨hb, .inl hc⟩
  · exact scanToken_strings hin hline (show _ = (P ++ ws) ++ _ ++ R.drop n by simp) (by simp) rfl
      hinit ⟨R, n, htok, rfl⟩ hb hc h
  · exact ⟨hb.push (by decide), .inl hc⟩

end Scan

/-! ### The run -/

section Run

variable {input : List Char}

/-- A round of the line loop keeps the invariant, read up to the end of its line. -/
theorem round_strings {done l rest : List Char} {st : LexState} (hat : LineAt input done l rest)
    (hb : st.Strings input (utf8Len done)) :
    RoundKeeps input (fun _ => True) (fun done st => st.Strings input (utf8Len done)) done l st := by
  simp only [RoundKeeps, utf8Len_append]
  refine EndsIn.of_ok fun r hr => ?_
  have hr' := startLine_strings hat.split hb hr
  cases r with
  | scan _ _ =>
    -- no string is open while the line is scanned, until it is read to its end
    refine scanLine_endsIn (S := fun st lp => st.Strings input (utf8Len done + utf8Len l) ∧
        (st.contstrStart = none ∨ lp = utf8Len l)) trivial (fun hs hlt => EndsIn.of_ok fun r hr => ?_)
      (fun hs _ => hs.1) ⟨hr'.1, .inl hr'.2⟩
    have := scanStep_strings hat.split hat.inner hs.1 (hs.2.resolve_right (by omega)) hr
    cases r <;> exact this
  | next _ => exact hr'
  | stop _ => exact hr'.mono (by rw [hat.split]; simp only [utf8Len_append]; omega)

end Run

end Lexer

end FeParser
