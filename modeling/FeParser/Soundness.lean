import FeParser.Grammar

/-!
# Soundness of the module-level parsers

Every success of a parser consumes a prefix of its input that derives, in the grammar of
`FeParser.Grammar`, the tree it returns. The spans the parsers build obey the policy
`Grammar.HullIfOrdered`: on ordered tokens, each node's span is the hull of the non-layout
tokens consumed for it.

`SoundFor f P` packages "every success of `f` consumes a prefix deriving its output in
`P`"; the combinators preserve it (`alt_sound`, `many0_sound`, …) and each parser of
`parsers.rs` is sound for its production (`dottedName_sound`, …, `fileInput_sound`).

## Main results

* `fileInput_sound`: a success of `file_input` consumed a prefix that derives the returned
  module, with every span the hull of its tokens whenever those are ordered.
-/

namespace FeParser

open Grammar

variable {α β : Type}

/-- Every success of `f` consumes a prefix of its input that derives its output in `P`. -/
def SoundFor (f : Parser α) (P : List Token → α → Prop) : Prop :=
  ∀ ⦃input rest : List Token⦄ ⦃x : α⦄, f input = .ok (rest, x) → ∃ pre, input = pre ++ rest ∧ P pre x

/-! ### Combinators -/

/-- A token parser consumes the one token it returns, which passes its check. -/
theorem tokenWith_sound (cond : Token → Bool) :
    SoundFor (tokenWith cond) fun pre t => pre = [t] ∧ cond t = true := by
  intro input rest t h
  obtain ⟨rfl, ht⟩ := tokenWith_eq_ok.1 h
  exact ⟨[t], rfl, rfl, ht⟩

/-- `alt` of two parsers sound for `P` is sound for `P`. -/
theorem alt_sound {p q : Parser α} {P : List Token → α → Prop} (hp : SoundFor p P)
    (hq : SoundFor q P) : SoundFor (alt p q) P := by
  intro input rest x h
  rcases alt_eq_ok.1 h with h | ⟨-, h⟩
  exacts [hp h, hq h]

/-- A separator token then a parser sound for `P` derive `Preceded`. -/
theorem preceded_sound {p : Parser β} {q : Parser α} {kind : TokenKind}
    {P : List Token → α → Prop} (hp : ∀ ⦃input rest t⦄, p input = .ok (rest, t) →
      ∃ t' : Token, t'.kind = kind ∧ input = t' :: rest) (hq : SoundFor q P) :
    SoundFor (preceded p q) (Preceded kind P) := by
  intro input rest x h
  obtain ⟨⟨b, a⟩, hpq, rfl⟩ := map_eq_ok.1 h
  obtain ⟨mid, h1, h2⟩ := pair_eq_ok.1 hpq
  obtain ⟨t, ht, rfl⟩ := hp h1
  obtain ⟨pre, rfl, hpre⟩ := hq h2
  exact ⟨t :: pre, rfl, .mk ht hpre⟩

/-- `token(kind)` consumes one token of that kind. -/
theorem token_step {kind : TokenKind} :
    ∀ ⦃input rest : List Token⦄ ⦃t : Token⦄, token kind input = .ok (rest, t) →
      ∃ t' : Token, t'.kind = kind ∧ input = t' :: rest := by
  intro input rest t h
  obtain ⟨rfl, ht⟩ := tokenWith_eq_ok.1 h
  exact ⟨t, by simpa using ht, rfl⟩

/-- The `many` loop is sound for the repetition of a sound parser. -/
theorem manyLoop_sound {code : ErrorKind} {f : Parser α} {P : List Token → α → Prop}
    (hf : SoundFor f P) {input rest : List Token} {xs : List α}
    (h : manyLoop code f (input.length + 1) input = .ok (rest, xs)) :
    ∃ pre, input = pre ++ rest ∧ Many P pre xs := by
  rw [manyLoop_eq] at h
  split at h
  · obtain ⟨rfl, rfl⟩ : input = rest ∧ [] = xs := by simpa using h
    exact ⟨[], rfl, .nil⟩
  · cases h
  · rename_i r o hfo
    split at h
    · obtain ⟨os, hos, rfl⟩ := map_eq_ok.1 h
      obtain ⟨pre₁, rfl, h₁⟩ := hf hfo
      obtain ⟨pre₂, rfl, h₂⟩ := manyLoop_sound hf hos
      exact ⟨pre₁ ++ pre₂, (List.append_assoc _ _ _).symm, .cons h₁ h₂⟩
    · cases h
termination_by input.length

/-- `many0` of a parser sound for `P` consumes a repetition of derivations of `P`. -/
theorem many0_sound {f : Parser α} {P : List Token → α → Prop} (hf : SoundFor f P) :
    SoundFor (many0 f) (Many P) :=
  fun _ _ _ h => manyLoop_sound hf h

/-- `many1` of a parser sound for `P` consumes a repetition of derivations of `P`, with at least
one. -/
theorem many1_sound {f : Parser α} {P : List Token → α → Prop} (hf : SoundFor f P) :
    SoundFor (many1 f) fun pre xs => Many P pre xs.val := by
  intro input rest xs h
  unfold many1 at h
  split at h
  · rename_i r o hfo
    obtain ⟨os, hos, rfl⟩ := map_eq_ok.1 h
    obtain ⟨pre₁, rfl, h₁⟩ := hf hfo
    obtain ⟨pre₂, rfl, h₂⟩ := manyLoop_sound hf hos
    exact ⟨pre₁ ++ pre₂, (List.append_assoc _ _ _).symm, .cons h₁ h₂⟩
  · cases h

/-! ### Repetitions -/

namespace Grammar

/-- A repetition of single tokens is those tokens. -/
theorem Many.singles {c : Token → Prop} {pre xs : List Token}
    (h : Many (fun pre t => pre = [t] ∧ c t) pre xs) : pre = xs ∧ ∀ t ∈ xs, c t := by
  induction h with
  | nil => simp
  | cons hx _ ih =>
    obtain ⟨rfl, hc⟩ := hx
    obtain ⟨rfl, hcs⟩ := ih
    exact ⟨rfl, by simpa [hc] using hcs⟩

/-- A repetition of separator–token pairs is a list of pairs. -/
theorem Many.pairs {c : Token → Prop} {kind : TokenKind} {pre xs : List Token}
    (h : Many (Preceded kind fun pre t => pre = [t] ∧ c t) pre xs) :
    ∃ parts : List (Token × Token), pre = pairTokens parts ∧ xs = parts.map (·.2) ∧
      ∀ q ∈ parts, q.1.kind = kind ∧ c q.2 := by
  induction h with
  | nil => exact ⟨[], rfl, rfl, by simp⟩
  | @cons _ _ x _ hx _ ih =>
    obtain ⟨parts, rfl, rfl, hparts⟩ := ih
    cases hx with
    | @mk t _ _ hk hP =>
      obtain ⟨rfl, hc⟩ := hP
      exact ⟨(t, x) :: parts, rfl, rfl, by simpa [hk, hc] using hparts⟩

/-- The last element of a non-empty repetition derives from a suffix of its tokens. -/
theorem Many.getLast {P : List Token → α → Prop} {pre : List Token} {xs : List α}
    (h : Many P pre xs) (hne : xs ≠ []) : ∃ a c, pre = a ++ c ∧ P c (xs.getLast hne) := by
  induction h with
  | nil => contradiction
  | @cons ts us x xs hx hxs ih =>
    cases xs with
    | nil => cases hxs; exact ⟨[], ts, by simp, hx⟩
    | cons y ys =>
      obtain ⟨a, c, rfl, hc⟩ := ih (List.cons_ne_nil _ _)
      exact ⟨ts ++ a, c, by simp, by simpa using hc⟩

/-- The first and last elements of a non-empty repetition derive from its two ends. -/
theorem Many.ends {P : List Token → α → Prop} {pre : List Token} {xs : List α}
    (h : Many P pre xs) (hne : xs ≠ []) :
    (∃ x, xs = [x] ∧ P pre x) ∨
      ∃ a m c, pre = a ++ m ++ c ∧ P a (xs.head hne) ∧ P c (xs.getLast hne) := by
  cases h with
  | nil => contradiction
  | @cons ts us x xs hx hxs =>
    cases xs with
    | nil => cases hxs; exact .inl ⟨x, rfl, by simpa using hx⟩
    | cons y ys =>
      obtain ⟨a, c, rfl, hc⟩ := hxs.getLast (List.cons_ne_nil _ _)
      exact .inr ⟨ts, a, c, by simp, hx, by simpa using hc⟩

/-- An empty repetition consumes no tokens. -/
theorem Many.eq_nil {P : List Token → α → Prop} {us : List Token} (h : Many P us []) :
    us = [] := by
  cases h; rfl

/-- The last element of a non-empty separated repetition derives from a suffix. -/
theorem Many.preceded_getLast {P : List Token → α → Prop} {kind : TokenKind} {us : List Token}
    {xs : List α} (h : Many (Preceded kind P) us xs) (hne : xs ≠ []) :
    ∃ m c, us = m ++ c ∧ P c (xs.getLast hne) := by
  obtain ⟨a, c, rfl, hc⟩ := h.getLast hne
  cases hc with
  | @mk t c _ _ hP => exact ⟨a ++ [t], c, by simp, hP⟩

/-- Every element of a repetition derives from an infix of its tokens. -/
theorem Many.forall {P : List Token → α → Prop} {pre : List Token} {xs : List α}
    (h : Many P pre xs) : ∀ x ∈ xs, ∃ seg, seg <:+: pre ∧ P seg x := by
  induction h with
  | nil => simp
  | @cons ts us x xs hx _ ih =>
    intro y hy
    rcases List.mem_cons.1 hy with rfl | hy
    · exact ⟨ts, List.infix_append [] ts us, hx⟩
    · obtain ⟨seg, hseg, hP⟩ := ih y hy
      exact ⟨seg, hseg.trans (List.infix_append ts us []  |>.trans (by simp)), hP⟩

/-! ### Spans -/

/-- On tokens that all carry text, the hull needs no ordering. -/
theorem hull_of_text {ts : List Token} (h : ∀ t ∈ ts, t.kind.isLayout = false) (hne : ts ≠ []) :
    Span.hull ts = Span.fromPair (ts.head hne).span (ts.getLast hne).span := by
  have hnl : nonLayout ts = ts := List.filter_eq_self.2 (by simpa using h)
  obtain ⟨t, ts, rfl⟩ := List.exists_cons_of_ne_nil hne
  unfold Span.hull
  rw [hnl]
  rfl

/-- Tokens that all carry text span from the first to the last. -/
theorem HullIfOrdered.text {ts : List Token} (h : ∀ t ∈ ts, t.kind.isLayout = false)
    (hne : ts ≠ []) : HullIfOrdered ts (Span.fromPair (ts.head hne).span (ts.getLast hne).span) :=
  fun _ => (hull_of_text h hne).symm

/-- One token with text spans its own span. -/
theorem HullIfOrdered.token {t : Token} (ht : t.kind.isLayout = false) :
    HullIfOrdered [t] t.span :=
  fun _ => (hull_singleton ht).symm

/-- `from_pair` of the spans of a left and a right part, both with text, is the hull of the two and
all between them: the step by which every rule's span is the hull of its tokens. -/
theorem HullIfOrdered.fromPair {a m c : List Token} {sa sc : Span} (ha : HullIfOrdered a sa)
    (hc : HullIfOrdered c sc) (hna : nonLayout a ≠ []) (hnc : nonLayout c ≠ []) :
    HullIfOrdered (a ++ m ++ c) (Span.fromPair sa sc) := by
  intro h
  rw [ha h.of_append_left.of_append_left, hc h.of_append_right]
  exact fromPair_hull h hna hnc

/-- Two text tokens and what lies between them span from the first to the last. -/
theorem HullIfOrdered.ends {first last : Token} (m : List Token) (hf : first.kind.isLayout = false)
    (hl : last.kind.isLayout = false) :
    HullIfOrdered (first :: (m ++ [last])) (Span.fromPair first.span last.span) :=
  (HullIfOrdered.token hf).fromPair (m := m) (HullIfOrdered.token hl) (nonLayout_cons_ne_nil hf [])
    (nonLayout_cons_ne_nil hl [])

/-- A trailing layout token does not move the hull. -/
theorem HullIfOrdered.append_layout {ts : List Token} {t : Token} {s : Span}
    (h : HullIfOrdered ts s) (ht : t.kind.isLayout = true) : HullIfOrdered (ts ++ [t]) s :=
  fun ho => (h ho.of_append_left).trans (hull_append_layout (by simpa using ht)).symm

/-- The span of a `dots_to_int` node is the hull of its dots, and it has text. -/
theorem DotsToInt.span {ts : List Token} {v : Spanned Nat} (h : DotsToInt HullIfOrdered ts v) :
    HullIfOrdered ts v.span ∧ nonLayout ts ≠ [] := by
  cases h with
  | mk hne hk hs =>
    obtain ⟨t, us, rfl⟩ := List.exists_cons_of_ne_nil hne
    refine ⟨hs, nonLayout_cons_ne_nil ?_ _⟩
    rcases hk t (by simp) with h | h <;> simp [h, TokenKind.isLayout]

/-- The span of a `dotted_name` node is the hull of its tokens, and it starts with a name. -/
theorem DottedName.span {ts : List Token} {v : Spanned (List String)}
    (h : DottedName HullIfOrdered ts v) : HullIfOrdered ts v.span ∧ nonLayout ts ≠ [] := by
  cases h with
  | mk hf _ hs => exact ⟨hs, nonLayout_cons_ne_nil (isLayout_of_isName hf) _⟩

/-- The span of a `simple_import_name` node is the hull of its tokens, and it has text. -/
theorem SimpleImportName.span {ts : List Token} {v : Spanned FeParser.SimpleImportName}
    (h : SimpleImportName HullIfOrdered ts v) : HullIfOrdered ts v.span ∧ nonLayout ts ≠ [] := by
  cases h with
  | mk hp _ hs => exact ⟨hs, nonLayout_append_ne_nil hp.span.2⟩

/-- The span of a `from_import_name` node is the hull of its tokens, and it starts with a name. -/
theorem FromImportName.span {ts : List Token} {v : Spanned FeParser.FromImportName}
    (h : FromImportName HullIfOrdered ts v) : HullIfOrdered ts v.span ∧ nonLayout ts ≠ [] := by
  cases h with
  | mk hn _ hs => exact ⟨hs, nonLayout_cons_ne_nil (isLayout_of_isName hn) _⟩

/-- The span of a `from_import_names_list` node is the hull of its tokens, and it has text. -/
theorem FromImportNamesList.span {ts : List Token} {v : Spanned FeParser.FromImportNames}
    (h : FromImportNamesList HullIfOrdered ts v) : HullIfOrdered ts v.span ∧ nonLayout ts ≠ [] := by
  cases h with
  | mk hn _ _ hs => exact ⟨hs, nonLayout_append_ne_nil (nonLayout_append_ne_nil hn.span.2)⟩

/-- The span of a `from_import_names` node is the hull of its tokens, and it has text. -/
theorem FromImportNames.span {ts : List Token} {v : Spanned FeParser.FromImportNames}
    (h : FromImportNames HullIfOrdered ts v) : HullIfOrdered ts v.span ∧ nonLayout ts ≠ [] := by
  cases h with
  | star ht hs => exact ⟨hs, nonLayout_cons_ne_nil (by simp [ht, TokenKind.isLayout]) _⟩
  | parens ho _ _ hs => exact ⟨hs, nonLayout_cons_ne_nil (by simp [ho, TokenKind.isLayout]) _⟩
  | list hl => exact hl.span

/-- The span of an `event_field` node is the hull of its tokens, and it starts with a name. -/
theorem EventField.span {ts : List Token} {v : Spanned FeParser.EventField}
    (h : EventField HullIfOrdered ts v) : HullIfOrdered ts v.span ∧ nonLayout ts ≠ [] := by
  cases h with
  | mk hn _ _ _ hs => exact ⟨hs, nonLayout_cons_ne_nil (isLayout_of_isName hn) _⟩

/-- The span of an `event_def` node is the hull of its tokens, and it starts with its keyword. -/
theorem EventDef.span {ts : List Token} {v : Spanned ContractStmt}
    (h : EventDef HullIfOrdered ts v) : HullIfOrdered ts v.span ∧ nonLayout ts ≠ [] := by
  cases h with
  | mk hkw _ _ _ _ _ _ _ hs => exact ⟨hs, nonLayout_cons_ne_nil (by simp [hkw, TokenKind.isLayout]) _⟩

/-- The span of a `module_stmt` node is the hull of its tokens, its closing `Newline` aside, and it
has text. -/
theorem ModuleStmt.span {ts : List Token} {v : Spanned FeParser.ModuleStmt}
    (h : ModuleStmt HullIfOrdered ts v) : HullIfOrdered ts v.span ∧ nonLayout ts ≠ [] := by
  rcases h with (⟨hi, hnl⟩ | ⟨hi, hnl⟩) | hc
  · cases hi with
    | mk hkw _ _ hs => exact ⟨hs.append_layout (by simp [hnl, TokenKind.isLayout]),
        nonLayout_append_ne_nil (nonLayout_cons_ne_nil (by simp [hkw, TokenKind.isLayout]) _)⟩
  · cases hi with
    | mk hf _ _ _ hs => exact ⟨hs.append_layout (by simp [hnl, TokenKind.isLayout]),
        nonLayout_append_ne_nil (nonLayout_cons_ne_nil (by simp [hf, TokenKind.isLayout]) _)⟩
  · cases hc with
    | mk hkw _ _ _ _ _ _ _ hs =>
      exact ⟨hs, nonLayout_cons_ne_nil (by simp [hkw, TokenKind.isLayout]) _⟩

end Grammar

/-! ### The parsers -/

/-- A parser sound for `P` is sound for anything weaker. -/
theorem SoundFor.mono {f : Parser α} {P Q : List Token → α → Prop} (hf : SoundFor f P)
    (hPQ : ∀ pre x, P pre x → Q pre x) : SoundFor f Q := fun _ _ _ h =>
  let ⟨pre, hpre, hP⟩ := hf h
  ⟨pre, hpre, hPQ _ _ hP⟩

/-- The optional `as NAME` of both kinds of imported name. -/
theorem alias_sound {input rest : List Token} {al : Option Token}
    (h : opt (preceded (nameString "as") nameToken) input = .ok (rest, al)) :
    ∃ a : Option (Token × Token), input = aliasTokens a ++ rest ∧ IsAlias a ∧
      al = a.map (·.2) := by
  rcases opt_eq_ok.1 h with ⟨n, hp, rfl⟩ | ⟨-, rfl, rfl⟩
  · obtain ⟨⟨kw, n⟩, hpq, rfl⟩ := map_eq_ok.1 hp
    obtain ⟨mid, h₁, h₂⟩ := pair_eq_ok.1 hpq
    obtain ⟨rfl, hkw⟩ := tokenWith_eq_ok.1 h₁
    obtain ⟨rfl, hn⟩ := tokenWith_eq_ok.1 h₂
    exact ⟨some (kw, n), rfl, ⟨by simpa using hkw, hn⟩, rfl⟩
  · exact ⟨none, rfl, trivial, rfl⟩

/-- `dots_to_int` consumes a run of dots and ellipses and returns their width less one, spanning
them. -/
theorem dotsToInt_sound : SoundFor dotsToInt (DotsToInt HullIfOrdered) := by
  intro input rest v h
  simp only [dotsToInt, bind_eq_ok, Prod.exists, pure, Except.pure, Except.ok.injEq,
    Prod.mk.injEq] at h
  obtain ⟨r, toks, hm, rfl, rfl⟩ := h
  have hdot : SoundFor (alt (token (.punct .dot)) (token (.punct .ellipsis)))
      fun pre t => pre = [t] ∧ (t.kind = .punct .dot ∨ t.kind = .punct .ellipsis) :=
    alt_sound ((tokenWith_sound _).mono fun _ _ ⟨h₁, h₂⟩ => ⟨h₁, .inl (by simpa using h₂)⟩)
      ((tokenWith_sound _).mono fun _ _ ⟨h₁, h₂⟩ => ⟨h₁, .inr (by simpa using h₂)⟩)
  obtain ⟨pre, rfl, hpre⟩ := many1_sound hdot hm
  obtain ⟨rfl, hk⟩ := Many.singles hpre
  refine ⟨_, rfl, .mk toks.property hk (HullIfOrdered.text (fun t ht => ?_) _)⟩
  rcases hk t ht with h | h <;> simp [h, TokenKind.isLayout]

/-- `dotted_name` consumes a name and its dotted parts and returns their symbols. -/
theorem dottedName_sound : SoundFor dottedName (DottedName HullIfOrdered) := by
  intro input rest v h
  simp only [dottedName, bind_eq_ok, Prod.exists, pure, Except.pure, Except.ok.injEq,
    Prod.mk.injEq] at h
  obtain ⟨r, first, hf, r', others, hm, rfl, rfl⟩ := h
  obtain ⟨rfl, hfk⟩ := tokenWith_eq_ok.1 hf
  obtain ⟨pre, rfl, hpre⟩ := many0_sound (preceded_sound token_step (tokenWith_sound _)) hm
  obtain ⟨parts, rfl, rfl, hparts⟩ := Many.pairs hpre
  refine ⟨first :: pairTokens parts, rfl, ?_⟩
  rw [List.map_map]
  refine .mk hfk (fun q hq => ⟨(hparts q hq).1, (hparts q hq).2⟩) ?_
  rcases List.eq_nil_or_concat parts with rfl | ⟨init, q, rfl⟩
  · exact HullIfOrdered.token (isLayout_of_isName hfk)
  · have hq := hparts q (by simp)
    simpa [pairTokens] using HullIfOrdered.ends (pairTokens init ++ [q.1])
      (isLayout_of_isName hfk) (isLayout_of_isName hq.2)

/-- `from_import_name` consumes a name with its optional alias. -/
theorem fromImportName_sound : SoundFor fromImportName (Grammar.FromImportName HullIfOrdered) := by
  intro input rest v h
  simp only [fromImportName, bind_eq_ok, Prod.exists, pure, Except.pure, Except.ok.injEq,
    Prod.mk.injEq] at h
  obtain ⟨r, n, hn, r', al, hal, rfl, rfl⟩ := h
  obtain ⟨rfl, hnk⟩ := tokenWith_eq_ok.1 hn
  obtain ⟨a, rfl, ha, rfl⟩ := alias_sound hal
  refine ⟨n :: aliasTokens a, rfl, ?_⟩
  rcases a with _ | ⟨kw, m⟩
  · exact .mk hnk trivial (HullIfOrdered.token (isLayout_of_isName hnk))
  · exact .mk hnk ha (HullIfOrdered.ends [kw] (isLayout_of_isName hnk) (isLayout_of_isName ha.2))

/-- `simple_import_name` consumes a dotted name with its optional alias. -/
theorem simpleImportName_sound :
    SoundFor simpleImportName (Grammar.SimpleImportName HullIfOrdered) := by
  intro input rest v h
  simp only [simpleImportName, bind_eq_ok, Prod.exists, pure, Except.pure, Except.ok.injEq,
    Prod.mk.injEq] at h
  obtain ⟨r, path, hp, r', al, hal, rfl, rfl⟩ := h
  obtain ⟨pre, rfl, hpre⟩ := dottedName_sound hp
  obtain ⟨a, rfl, ha, rfl⟩ := alias_sound hal
  refine ⟨pre ++ aliasTokens a, by simp, ?_⟩
  rcases a with _ | ⟨kw, m⟩
  · exact .mk hpre trivial (by simpa [aliasTokens] using hpre.span.1)
  · have hm := isLayout_of_isName ha.2
    have := HullIfOrdered.fromPair (m := [kw]) hpre.span.1 (HullIfOrdered.token hm) hpre.span.2
      (nonLayout_cons_ne_nil hm [])
    exact .mk hpre ha (by simpa [aliasTokens] using this)

/-- `simple_import` consumes `import` and a comma-separated list of names. -/
theorem simpleImport_sound : SoundFor simpleImport (SimpleImport HullIfOrdered) := by
  intro input rest v h
  simp only [simpleImport, bind_eq_ok, Prod.exists, pure, Except.pure, Except.ok.injEq,
    Prod.mk.injEq] at h
  obtain ⟨r₁, kw, hkw, r₂, n, hn, r₃, ns, hns, rfl, rfl⟩ := h
  obtain ⟨rfl, hk⟩ := tokenWith_eq_ok.1 hkw
  replace hk : kw.kind = .name "import" := by simpa using hk
  have hkl : kw.kind.isLayout = false := by simp [hk, TokenKind.isLayout]
  obtain ⟨pre₁, rfl, h₁⟩ := simpleImportName_sound hn
  obtain ⟨pre₂, rfl, h₂⟩ := many0_sound (preceded_sound token_step simpleImportName_sound) hns
  refine ⟨kw :: (pre₁ ++ pre₂), by simp, .mk hk h₁ h₂ ?_⟩
  rcases eq_or_ne ns [] with rfl | hne
  · have := (HullIfOrdered.token hkl).fromPair (m := []) h₁.span.1 (nonLayout_cons_ne_nil hkl [])
      h₁.span.2
    simpa [h₂.eq_nil] using this
  · obtain ⟨m, c, rfl, hc⟩ := h₂.preceded_getLast hne
    have := (HullIfOrdered.token hkl).fromPair (m := pre₁ ++ m) hc.span.1
      (nonLayout_cons_ne_nil hkl []) hc.span.2
    simpa [List.getLast_cons hne] using this

/-- `from_import_names_list` consumes a comma-separated list of names and an optional trailing
comma. -/
theorem fromImportNamesList_sound :
    SoundFor fromImportNamesList (FromImportNamesList HullIfOrdered) := by
  intro input rest v h
  simp only [fromImportNamesList, bind_eq_ok, Prod.exists, pure, Except.pure, Except.ok.injEq,
    Prod.mk.injEq] at h
  obtain ⟨r₁, n, hn, r₂, ns, hns, r₃, comma, hc, rfl, rfl⟩ := h
  obtain ⟨pre₁, rfl, h₁⟩ := fromImportName_sound hn
  obtain ⟨pre₂, rfl, h₂⟩ := many0_sound (preceded_sound token_step fromImportName_sound) hns
  rcases opt_eq_ok.1 hc with ⟨c, hct, rfl⟩ | ⟨-, rfl, rfl⟩
  · obtain ⟨rfl, hck⟩ := tokenWith_eq_ok.1 hct
    replace hck : c.kind = .punct .comma := by simpa using hck
    have hcl : c.kind.isLayout = false := by simp [hck, TokenKind.isLayout]
    refine ⟨pre₁ ++ pre₂ ++ (some c).toList, by simp, .mk h₁ h₂ (by simpa using hck) ?_⟩
    exact h₁.span.1.fromPair (HullIfOrdered.token hcl) h₁.span.2 (nonLayout_cons_ne_nil hcl [])
  · refine ⟨pre₁ ++ pre₂ ++ none.toList, by simp, .mk h₁ h₂ (by simp) ?_⟩
    rcases eq_or_ne ns [] with rfl | hne
    · simpa [h₂.eq_nil] using h₁.span.1
    · obtain ⟨m, c, rfl, hc⟩ := h₂.preceded_getLast hne
      have := h₁.span.1.fromPair (m := m) hc.span.1 h₁.span.2 hc.span.2
      simpa [List.getLast_cons hne] using this

/-- The parenthesised alternative of `from_import_names` consumes a list between parentheses,
spanning them. -/
theorem fromImportNamesParens_sound :
    SoundFor fromImportNamesParens (Grammar.FromImportNames HullIfOrdered) := by
  intro input rest v h
  simp only [fromImportNamesParens, token, bind_eq_ok, Prod.exists, pure, Except.pure,
    Except.ok.injEq, Prod.mk.injEq, tokenWith_eq_ok, beq_iff_eq] at h
  obtain ⟨r₁, o, ⟨rfl, ho⟩, r₂, names, hn, r₃, c, ⟨rfl, hc⟩, rfl, rfl⟩ := h
  obtain ⟨pre, rfl, hpre⟩ := fromImportNamesList_sound hn
  exact ⟨o :: (pre ++ [c]), by simp, .parens ho hpre hc
    (HullIfOrdered.ends pre (by simp [ho, TokenKind.isLayout]) (by simp [hc, TokenKind.isLayout]))⟩

/-- The `*` alternative of `from_import_names` consumes the star. -/
theorem fromImportNamesStar_sound :
    SoundFor fromImportNamesStar (Grammar.FromImportNames HullIfOrdered) := by
  intro input rest v h
  simp only [fromImportNamesStar, token, bind_eq_ok, Prod.exists, pure, Except.pure,
    Except.ok.injEq, Prod.mk.injEq, tokenWith_eq_ok, beq_iff_eq] at h
  obtain ⟨r, t, ⟨rfl, ht⟩, rfl, rfl⟩ := h
  exact ⟨[t], rfl, .star ht (HullIfOrdered.token (by simp [ht, TokenKind.isLayout]))⟩

/-- `from_import_names` is sound through each of its three alternatives. -/
theorem fromImportNames_sound : SoundFor fromImportNames (Grammar.FromImportNames HullIfOrdered) :=
  alt_sound fromImportNamesStar_sound
    (alt_sound fromImportNamesParens_sound (fromImportNamesList_sound.mono fun _ _ => .list))

/-- The path of a `from` import with a dotted name consumes the optional dots and the name. -/
theorem fromImportSubPath_sound : SoundFor fromImportSubPath (Grammar.FromImportPath HullIfOrdered) := by
  intro input rest v h
  simp only [fromImportSubPath, bind_eq_ok, Prod.exists, pure, Except.pure, Except.ok.injEq,
    Prod.mk.injEq] at h
  obtain ⟨r₁, lvl, hl, r₂, path, hp, rfl, rfl⟩ := h
  obtain ⟨pre₂, rfl, h₂⟩ := dottedName_sound hp
  rcases opt_eq_ok.1 hl with ⟨lvl, hlvl, rfl⟩ | ⟨-, rfl, rfl⟩
  · obtain ⟨pre₁, rfl, h₁⟩ := dotsToInt_sound hlvl
    have := h₁.span.1.fromPair (m := []) h₂.span.1 h₁.span.2 h₂.span.2
    exact ⟨pre₁ ++ pre₂, by simp, .relative h₁ h₂ (by simpa using this)⟩
  · exact ⟨pre₂, rfl, .absolute h₂ h₂.span.1⟩

/-- The span of a `from` import: from the keyword to the end of the imported names. -/
theorem HullIfOrdered.fromImport {f i : Token} {ts us : List Token}
    {names : Spanned FeParser.FromImportNames} (hf : f.kind = .name "from")
    (hn : Grammar.FromImportNames HullIfOrdered us names) :
    HullIfOrdered (f :: (ts ++ i :: us)) (Span.fromPair f.span names.span) := by
  have hfl : f.kind.isLayout = false := by simp [hf, TokenKind.isLayout]
  have := (HullIfOrdered.token hfl).fromPair (m := ts ++ [i]) hn.span.1
    (nonLayout_cons_ne_nil hfl []) hn.span.2
  simpa using this

/-- The `from` import of a parent path, dots only, consumes `from`, the dots, `import` and the
names. -/
theorem fromImportParentAlt_sound : SoundFor fromImportParentAlt (FromImport HullIfOrdered) := by
  intro input rest v h
  simp only [fromImportParentAlt, nameString, bind_eq_ok, Prod.exists, pure, Except.pure,
    Except.ok.injEq, Prod.mk.injEq, tokenWith_eq_ok, beq_iff_eq] at h
  obtain ⟨r₁, f, ⟨rfl, hf⟩, r₂, lvl, hl, r₃, i, ⟨rfl, hi⟩, r₄, names, hn, rfl, rfl⟩ := h
  obtain ⟨pre₁, rfl, h₁⟩ := dotsToInt_sound hl
  obtain ⟨pre₂, rfl, h₂⟩ := fromImportNames_sound hn
  exact ⟨f :: (pre₁ ++ i :: pre₂), by simp, .mk hf (.parent h₁ h₁.span.1) hi h₂
    (HullIfOrdered.fromImport hf h₂)⟩

/-- The `from` import of a dotted path consumes `from`, the path, `import` and the names. -/
theorem fromImportSubAlt_sound : SoundFor fromImportSubAlt (FromImport HullIfOrdered) := by
  intro input rest v h
  simp only [fromImportSubAlt, nameString, bind_eq_ok, Prod.exists, pure, Except.pure,
    Except.ok.injEq, Prod.mk.injEq, tokenWith_eq_ok, beq_iff_eq] at h
  obtain ⟨r₁, f, ⟨rfl, hf⟩, r₂, path, hp, r₃, i, ⟨rfl, hi⟩, r₄, names, hn, rfl, rfl⟩ := h
  obtain ⟨pre₁, rfl, h₁⟩ := fromImportSubPath_sound hp
  obtain ⟨pre₂, rfl, h₂⟩ := fromImportNames_sound hn
  exact ⟨f :: (pre₁ ++ i :: pre₂), by simp, .mk hf h₁ hi h₂ (HullIfOrdered.fromImport hf h₂)⟩

/-- `from_import` is sound through each of its two alternatives. -/
theorem fromImport_sound : SoundFor fromImport (FromImport HullIfOrdered) :=
  alt_sound fromImportParentAlt_sound fromImportSubAlt_sound

/-- `import_stmt` consumes an import and the `Newline` after it. -/
theorem importStmt_sound : SoundFor importStmt (ImportStmt HullIfOrdered) := by
  intro input rest x h
  obtain ⟨⟨x, nl⟩, hpq, rfl⟩ := map_eq_ok.1 h
  obtain ⟨mid, h₁, h₂⟩ := pair_eq_ok.1 hpq
  obtain ⟨rfl, hnl⟩ := tokenWith_eq_ok.1 h₂
  replace hnl : nl.kind = .newline := by simpa using hnl
  rcases alt_eq_ok.1 h₁ with h₁ | ⟨-, h₁⟩
  · obtain ⟨pre, rfl, hpre⟩ := simpleImport_sound h₁
    exact ⟨pre ++ [nl], by simp, .simple hpre hnl⟩
  · obtain ⟨pre, rfl, hpre⟩ := fromImport_sound h₁
    exact ⟨pre ++ [nl], by simp, .«from» hpre hnl⟩

/-- `event_field` consumes a name, `:`, a type name and a `Newline`. -/
theorem eventField_sound : SoundFor eventField (Grammar.EventField HullIfOrdered) := by
  intro input rest v h
  simp only [eventField, nameToken, token, newlineToken, bind_eq_ok, Prod.exists, pure,
    Except.pure, Except.ok.injEq, Prod.mk.injEq, tokenWith_eq_ok, beq_iff_eq] at h
  obtain ⟨r₁, n, ⟨rfl, hn⟩, r₂, c, ⟨rfl, hc⟩, r₃, t, ⟨rfl, ht⟩, r₄, nl, ⟨rfl, hnl⟩, rfl, rfl⟩ := h
  exact ⟨[n, c, t, nl], rfl, .mk hn hc ht hnl
    ((HullIfOrdered.ends [c] (isLayout_of_isName hn) (isLayout_of_isName ht)).append_layout
      (by simp [hnl, TokenKind.isLayout]))⟩

/-- The span of an indented block: from its keyword to the end of its last statement. -/
theorem HullIfOrdered.block {kw ded : Token} {a ts : List Token} {P : List Token → β → Prop}
    {sp : β → Span} {xs : List β} (hkw : kw.kind.isLayout = false) (hded : ded.kind = .dedent)
    (hxs : Many P ts xs) (hne : xs ≠ [])
    (hP : ∀ ts x, P ts x → HullIfOrdered ts (sp x) ∧ nonLayout ts ≠ []) :
    HullIfOrdered (kw :: (a ++ (ts ++ [ded]))) (Span.fromPair kw.span (sp (xs.getLast hne))) := by
  obtain ⟨b, c, rfl, hc⟩ := hxs.getLast hne
  have := ((HullIfOrdered.token hkw).fromPair (m := a ++ b) (hP _ _ hc).1
    (nonLayout_cons_ne_nil hkw []) (hP _ _ hc).2).append_layout (t := ded)
    (by simp [hded, TokenKind.isLayout])
  simpa using this

/-- `event_def` consumes the header, the `Newline`, the `Indent`, its fields and the `Dedent`. -/
theorem eventDef_sound : SoundFor eventDef (EventDef HullIfOrdered) := by
  intro input rest v h
  simp only [eventDef, nameString, nameToken, token, newlineToken, indentToken, dedentToken,
    bind_eq_ok, Prod.exists, pure, Except.pure, Except.ok.injEq, Prod.mk.injEq, tokenWith_eq_ok,
    beq_iff_eq] at h
  obtain ⟨r₁, kw, ⟨rfl, hkw⟩, r₂, n, ⟨rfl, hn⟩, r₃, c, ⟨rfl, hc⟩, r₄, nl, ⟨rfl, hnl⟩, r₅, ind,
    ⟨rfl, hind⟩, r₆, fs, hfs, r₇, ded, ⟨rfl, hded⟩, rfl, rfl⟩ := h
  obtain ⟨pre, rfl, hpre⟩ := many1_sound eventField_sound hfs
  exact ⟨kw :: n :: c :: nl :: ind :: (pre ++ [ded]), by simp,
    .mk hkw hn hc hnl hind hpre fs.property hded (HullIfOrdered.block (a := [n, c, nl, ind])
      (by simp [hkw, TokenKind.isLayout]) hded hpre fs.property fun _ _ => EventField.span)⟩

/-- `contract_def` consumes the header, the `Newline`, the `Indent`, its statements and the
`Dedent`. -/
theorem contractDef_sound : SoundFor contractDef (ContractDef HullIfOrdered) := by
  intro input rest v h
  simp only [contractDef, nameString, nameToken, token, newlineToken, indentToken, dedentToken,
    bind_eq_ok, Prod.exists, pure, Except.pure, Except.ok.injEq, Prod.mk.injEq, tokenWith_eq_ok,
    beq_iff_eq] at h
  obtain ⟨r₁, kw, ⟨rfl, hkw⟩, r₂, n, ⟨rfl, hn⟩, r₃, c, ⟨rfl, hc⟩, r₄, nl, ⟨rfl, hnl⟩, r₅, ind,
    ⟨rfl, hind⟩, r₆, body, hb, r₇, ded, ⟨rfl, hded⟩, rfl, rfl⟩ := h
  obtain ⟨pre, rfl, hpre⟩ := many1_sound eventDef_sound hb
  exact ⟨kw :: n :: c :: nl :: ind :: (pre ++ [ded]), by simp,
    .mk hkw hn hc hnl hind hpre body.property hded (HullIfOrdered.block (a := [n, c, nl, ind])
      (by simp [hkw, TokenKind.isLayout]) hded hpre body.property fun _ _ => EventDef.span)⟩

/-- `module_stmt` is sound through each of its two alternatives. -/
theorem moduleStmt_sound : SoundFor moduleStmt (Grammar.ModuleStmt HullIfOrdered) :=
  alt_sound (importStmt_sound.mono fun _ _ => .«import») (contractDef_sound.mono fun _ _ => .contract)

/-- The non-empty alternative of `file_input` consumes its statements and the `EndMarker`. -/
theorem nonEmptyFileInput_sound : SoundFor nonEmptyFileInput (FileInput HullIfOrdered) := by
  intro input rest v h
  simp only [nonEmptyFileInput, endmarkerToken, token, bind_eq_ok, Prod.exists, pure,
    Except.pure, Except.ok.injEq, Prod.mk.injEq, tokenWith_eq_ok, beq_iff_eq] at h
  obtain ⟨r₁, ⟨body, hne⟩, hb, r₂, e, ⟨rfl, he⟩, rfl, rfl⟩ := h
  obtain ⟨pre, rfl, hpre⟩ := many1_sound moduleStmt_sound hb
  have hel : e.kind.isLayout = true := by simp [he, TokenKind.isLayout]
  refine ⟨pre ++ [e], by simp, .nonEmpty hpre hne he ?_⟩
  rcases hpre.ends hne with ⟨x, rfl, hx⟩ | ⟨a, m, c, rfl, ha, hc⟩
  · simpa using hx.span.1.append_layout hel
  · exact (ha.span.1.fromPair hc.span.1 ha.span.2 hc.span.2).append_layout hel

/-- The empty alternative of `file_input` consumes the `EndMarker` alone and gives the empty module
its span. -/
theorem emptyFileInput_sound : SoundFor emptyFileInput (FileInput HullIfOrdered) := by
  intro input rest v h
  simp only [emptyFileInput, endmarkerToken, token, bind_eq_ok, Prod.exists, pure, Except.pure,
    Except.ok.injEq, Prod.mk.injEq, tokenWith_eq_ok, beq_iff_eq] at h
  obtain ⟨r, e, ⟨rfl, he⟩, rfl, rfl⟩ := h
  exact ⟨[e], rfl, .empty he⟩

/-- Every success of `file_input` consumed a prefix deriving the module it returns, whose
spans are hulls wherever the tokens are ordered. -/
theorem fileInput_sound : SoundFor fileInput (FileInput HullIfOrdered) :=
  alt_sound emptyFileInput_sound nonEmptyFileInput_sound

end FeParser
