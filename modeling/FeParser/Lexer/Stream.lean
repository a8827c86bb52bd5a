import FeParser.Lexer.Pattern

/-!
# Token streams over a source

The spec says three things of the tokens `tokenize` reads from a source: their spans are in
order and lie in the source; the source text that no token covers is layout (spaces, tabs,
form feeds, backslash line continuations); and the `Indent` and `Dedent` tokens nest. Here
each is a predicate on a token list that grows one token at a time, with the lemma that says
what a new token, or a run of skipped text, needs for the predicate to survive.

`Covers input ts f` is the first two up to byte `f`, the frontier the lexer has read to:
every span ends by `f`, and every byte before `f` outside all spans is a `GapByte`.
`Nesting ts depth` is the third, with `depth` levels open.

## Main results

* `Covers.skip`, `Covers.push`: skippable text, or a token from the frontier on, extends a
  cover.
* `skips_whitespace`, `skips_continuation`: the text the lexer passes over is skippable.
* `Nesting.push`, `Nesting.pushIndent`, `Nesting.pushDedent`.
* `Nesting.filter`: leaving out tokens that neither open nor close a level keeps the nesting.
-/

namespace FeParser

namespace Lexer

/-! ### Skippable text -/

/-- The character `c`, between `pre` and `post` in the source, is layout the lexer may pass
over without a token: a space, a tab, a form feed, or a character of a backslash line
continuation (`\` followed by `\n` or `\r\n`). -/
def Skippable (pre : List Char) (c : Char) (post : List Char) : Prop :=
  c = ' ' ∨ c = '\t' ∨ c = '\x0c' ∨
    (c = '\\' ∧ (['\n'] <+: post ∨ ['\r', '\n'] <+: post)) ∨
    (c = '\r' ∧ ['\\'] <:+ pre ∧ ['\n'] <+: post) ∨
    (c = '\n' ∧ (['\\'] <:+ pre ∨ ['\\', '\r'] <:+ pre))

/-- Byte `i` of the source lies in a skippable character. -/
def GapByte (input : List Char) (i : Nat) : Prop :=
  ∃ pre c post, input = pre ++ c :: post ∧ utf8Len pre ≤ i ∧ i < utf8Len pre + c.utf8Size ∧
    Skippable pre c post

/-- Every byte of the source from `f` to `g` is a gap byte. -/
def Skips (input : List Char) (f g : Nat) : Prop := ∀ i, f ≤ i → i < g → GapByte input i

variable {input : List Char}

/-- An empty stretch of the source skips nothing. -/
theorem Skips.refl (f : Nat) : Skips input f f := fun _ h₁ h₂ => absurd h₂ (by omega)

/-- Two adjacent skippable stretches make one. -/
theorem Skips.trans {f g k : Nat} (h₁ : Skips input f g) (h₂ : Skips input g k) :
    Skips input f k := fun i hf hk =>
  if hi : i < g then h₁ i hf hi else h₂ i (by omega) hk

/-- A skippable character is a skippable stretch of its own width. -/
theorem skips_char {A B : List Char} {c : Char} (h : input = A ++ c :: B) (hc : Skippable A c B) :
    Skips input (utf8Len A) (utf8Len A + c.utf8Size) :=
  fun _ hA hi => ⟨A, c, B, h, hA, hi, hc⟩

/-- The whitespace the pseudo-token pattern reads before a token is skippable. -/
theorem skips_whitespace {ws : List Char} (hws : ∀ c ∈ ws, Pattern.isWhitespace c) :
    ∀ {A B : List Char}, input = A ++ ws ++ B →
      Skips input (utf8Len A) (utf8Len A + utf8Len ws) := by
  induction ws with
  | nil => intro A B _; simpa using Skips.refl _
  | cons c ws ih =>
    intro A B h
    have hc : Skippable A c (ws ++ B) := by
      have := hws c (List.mem_cons_self _ _)
      simp only [Pattern.isWhitespace, Bool.or_eq_true, decide_eq_true_eq] at this
      rcases this with (rfl | rfl) | rfl <;> simp [Skippable]
    have hrest := ih (fun d hd => hws d (List.mem_cons_of_mem _ hd)) (A := A ++ [c]) (B := B)
      (by simp [h])
    simp only [utf8Len_append, utf8Len_cons, utf8Len_nil] at hrest
    have e : input = A ++ c :: (ws ++ B) := by simp [h]
    exact (skips_char e hc).trans (by simpa [Nat.add_assoc] using hrest)

/-- A backslash line continuation is skippable. -/
theorem skips_continuation {A tok B : List Char} (h : input = A ++ tok ++ B)
    (htok : tok = ['\\', '\n'] ∨ tok = ['\\', '\r', '\n']) :
    Skips input (utf8Len A) (utf8Len A + utf8Len tok) := by
  rcases htok with rfl | rfl
  · have e₁ : input = A ++ '\\' :: '\n' :: B := by simp [h]
    have e₂ : input = (A ++ ['\\']) ++ '\n' :: B := by simp [h]
    have h₁ := skips_char e₁ (by simp [Skippable, List.prefix_append])
    have h₂ := skips_char e₂ (by simp [Skippable, List.suffix_append])
    simp only [utf8Len_append, utf8Len_cons, utf8Len_nil] at h₂ ⊢
    exact h₁.trans (by simpa [Nat.add_assoc] using h₂)
  · have e₁ : input = A ++ '\\' :: '\r' :: '\n' :: B := by simp [h]
    have e₂ : input = (A ++ ['\\']) ++ '\r' :: '\n' :: B := by simp [h]
    have e₃ : input = (A ++ ['\\', '\r']) ++ '\n' :: B := by simp [h]
    have h₁ := skips_char e₁ (by simp [Skippable, List.prefix_append])
    have h₂ := skips_char e₂ (by simp [Skippable, List.suffix_append, List.prefix_append])
    have h₃ := skips_char e₃ (by simp [Skippable, List.suffix_append])
    simp only [utf8Len_append, utf8Len_cons, utf8Len_nil] at h₂ h₃ ⊢
    exact h₁.trans (h₂.trans (by simpa [Nat.add_assoc] using h₃))

/-! ### Covering the source -/

/-- Some token's span contains byte `i`. -/
def Covered (ts : List Token) (i : Nat) : Prop := ∃ t ∈ ts, t.span.start ≤ i ∧ i < t.span.end

/-- `ts` covers the source up to byte `f`: its spans are well formed, in order and disjoint,
they end by `f`, and every byte before `f` that none of them contains is a gap byte. -/
structure Covers (input : List Char) (ts : List Token) (f : Nat) : Prop where
  ordered : Token.Ordered ts
  end_le : ∀ t ∈ ts, t.span.end ≤ f
  gaps : ∀ i < f, ¬ Covered ts i → GapByte input i

/-- No tokens cover the empty stretch at the start of the source. -/
theorem Covers.nil (input : List Char) : Covers input [] 0 :=
  ⟨⟨by simp, List.chain'_nil⟩, by simp, fun _ h => absurd h (Nat.not_lt_zero _)⟩

variable {ts : List Token} {f : Nat}

/-- Skipping a stretch of gap bytes moves the frontier of a cover without a token. -/
theorem Covers.skip {g : Nat} (h : Covers input ts f) (hfg : f ≤ g) (hs : Skips input f g) :
    Covers input ts g :=
  ⟨h.ordered, fun t ht => (h.end_le t ht).trans hfg, fun i hi hc =>
    if hif : i < f then h.gaps i hif hc else hs i (by omega) hi⟩

/-- A token from the frontier `f` to `b` extends a cover to `b`. -/
theorem Covers.push {b : Nat} (h : Covers input ts f) (hfb : f ≤ b) (k : TokenKind) (s : String) :
    Covers input (ts ++ [⟨k, s, ⟨f, b⟩⟩]) b where
  ordered := by
    refine ⟨fun t ht => ?_, h.ordered.2.append (List.chain'_singleton _) ?_⟩
    · rcases List.mem_append.1 ht with ht | ht
      · exact h.ordered.1 t ht
      · simp only [List.mem_singleton] at ht
        subst ht
        exact hfb
    · intro x hx y hy
      simp only [Option.mem_def, List.head?_cons, Option.some.injEq] at hy
      subst hy
      exact h.end_le x (List.mem_of_mem_getLast? hx)
  end_le t ht := by
    rcases List.mem_append.1 ht with ht | ht
    · exact (h.end_le t ht).trans hfb
    · simp only [List.mem_singleton] at ht
      subst ht
      exact le_refl _
  gaps i hi hc := by
    have hif : i < f := by
      by_contra hge
      exact hc ⟨_, List.mem_append_right _ (List.mem_singleton_self _), by simp; omega, hi⟩
    exact h.gaps i hif fun ⟨t, ht, hs⟩ => hc ⟨t, List.mem_append_left _ ht, hs⟩

/-! ### Nesting of `Indent` and `Dedent` -/

/-- The number of `Indent` tokens. -/
def indentCount (ts : List Token) : Nat := (ts.map Token.kind).count .indent

/-- The number of `Dedent` tokens. -/
def dedentCount (ts : List Token) : Nat := (ts.map Token.kind).count .dedent

/-- The `Indent` tokens of a concatenation are those of its parts. -/
@[simp] theorem indentCount_append (ts us : List Token) :
    indentCount (ts ++ us) = indentCount ts + indentCount us := by
  simp [indentCount]

/-- The `Dedent` tokens of a concatenation are those of its parts. -/
@[simp] theorem dedentCount_append (ts us : List Token) :
    dedentCount (ts ++ us) = dedentCount ts + dedentCount us := by
  simp [dedentCount]

/-- One token is one `Indent` if it is an `Indent`, and none otherwise. -/
@[simp] theorem indentCount_singleton (t : Token) :
    indentCount [t] = if t.kind = .indent then 1 else 0 := by
  by_cases h : t.kind = .indent <;> simp [indentCount, List.count_singleton, h]

/-- One token is one `Dedent` if it is a `Dedent`, and none otherwise. -/
@[simp] theorem dedentCount_singleton (t : Token) :
    dedentCount [t] = if t.kind = .dedent then 1 else 0 := by
  by_cases h : t.kind = .dedent <;> simp [dedentCount, List.count_singleton, h]

/-- No prefix of `ts` closes more indentation levels than it opens, and `depth` are open at
its end. -/
structure Nesting (ts : List Token) (depth : Nat) : Prop where
  prefixes : ∀ pre, pre <+: ts → dedentCount pre ≤ indentCount pre
  open_eq : indentCount ts = dedentCount ts + depth

/-- No tokens open no level. -/
theorem Nesting.nil : Nesting [] 0 :=
  ⟨fun _ h => by simp [List.prefix_nil.1 h, indentCount, dedentCount], rfl⟩

variable {d : Nat}

/-- One more token, with the depth after it. -/
theorem Nesting.concat (h : Nesting ts d) (t : Token) (d' : Nat)
    (hd : indentCount [t] + d = dedentCount [t] + d') : Nesting (ts ++ [t]) d' where
  prefixes pre hpre := by
    rcases List.prefix_concat_iff.1 hpre with rfl | hpre
    · have := h.open_eq
      simp only [indentCount_append, dedentCount_append]
      omega
    · exact h.prefixes pre hpre
  open_eq := by
    have := h.open_eq
    simp only [indentCount_append, dedentCount_append]
    omega

/-- A token that is neither `Indent` nor `Dedent` keeps the depth. -/
theorem Nesting.push (h : Nesting ts d) {t : Token} (hi : t.kind ≠ .indent)
    (hd : t.kind ≠ .dedent) : Nesting (ts ++ [t]) d :=
  h.concat t d (by simp [indentCount, dedentCount, List.count_singleton, hi, hd])

/-- An `Indent` opens one more level. -/
theorem Nesting.pushIndent (h : Nesting ts d) {t : Token} (ht : t.kind = .indent) :
    Nesting (ts ++ [t]) (d + 1) :=
  h.concat t _ (by simp [indentCount, dedentCount, List.count_singleton, ht]; omega)

/-- A `Dedent` closes one of the open levels. -/
theorem Nesting.pushDedent (h : Nesting ts (d + 1)) {t : Token} (ht : t.kind = .dedent) :
    Nesting (ts ++ [t]) d :=
  h.concat t _ (by simp [indentCount, dedentCount, List.count_singleton, ht]; omega)

/-- Leaving out tokens of other kinds keeps the number of tokens of a kind. -/
theorem count_kind_filter {p : Token → Bool} {k : TokenKind} (hp : ∀ t : Token, t.kind = k → p t)
    (ts : List Token) : ((ts.filter p).map Token.kind).count k = (ts.map Token.kind).count k := by
  induction ts with
  | nil => rfl
  | cons t ts ih =>
    by_cases hpt : p t
    · simp [List.filter_cons, hpt, ih, List.count_cons]
    · have hk : t.kind ≠ k := fun hk => hpt (hp t hk)
      simp [List.filter_cons, hpt, ih, List.count_cons, hk]

/-- Leaving out tokens that neither open nor close a level keeps the nesting. -/
theorem Nesting.filter (h : Nesting ts d) {p : Token → Bool} (hi : ∀ t : Token, t.kind = .indent → p t)
    (hd : ∀ t : Token, t.kind = .dedent → p t) : Nesting (ts.filter p) d where
  prefixes pre hpre := by
    -- a prefix of the filtered tokens is the filter of a prefix
    obtain ⟨post, hpost⟩ := hpre
    obtain ⟨l₁, l₂, rfl, rfl, -⟩ := List.append_eq_filter_iff.1 hpost
    simpa only [indentCount, dedentCount, count_kind_filter hi, count_kind_filter hd] using
      h.prefixes l₁ (List.prefix_append _ _)
  open_eq := by
    simpa only [indentCount, dedentCount, count_kind_filter hi, count_kind_filter hd] using h.open_eq

end Lexer

end FeParser
