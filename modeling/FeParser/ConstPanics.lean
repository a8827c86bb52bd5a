import FeParser.ConstSoundness

/-!
# The operator `unwrap`s of the constant-expression parsers

`const_expr` and `const_term` turn the operator token of each pass of their loop into an
operator with `Operator::try_from(op_tok.string).unwrap()`, and `const_factor` its unary
operator with `UnaryOp::try_from(op_tok.string).unwrap()`. The parsers choose these tokens by
their kind, while the `unwrap`s read their text: a `+` token whose text is not `+` panics.

A token is `Spelled` when `TokenKind::try_from` reads its operator kind back from its text,
as it does for every token the lexer makes. The text of a spelled token of one of these kinds
names the operator, so on spelled tokens the `unwrap`s hold, and no run of the five parsers
panics, at any fuel: each returns, fails with an `Error`, or runs out of fuel.

## Main results

* `constParsers_panicFree`: no level of the constant-expression parsers panics on spelled
  tokens.
-/

namespace FeParser

open Grammar

variable {α β : Type}

/-! ### The operator table -/

/-- `TokenKind::try_from` reads a punctuation kind only from its own row of the table. -/
theorem TokenKind.mem_punctTable_of_tryFrom {s : String} {p : Punct}
    (h : TokenKind.tryFrom s = some (.punct p)) : (s, p) ∈ TokenKind.punctTable := by
  obtain ⟨q, hq, hpq⟩ := Option.map_eq_some'.1 h
  cases hpq
  obtain ⟨l₁, l₂, htab, -⟩ := List.lookup_eq_some_iff.1 hq
  rw [htab]
  exact List.mem_append_right _ (List.mem_cons_self _ _)

/-- The rows of the binary operators of the two loops spell an `Operator`, and those of the
unary operators a `UnaryOp`. -/
theorem punctTable_operators : ∀ e ∈ TokenKind.punctTable,
    (e.2 ∈ [Punct.plus, .minus, .star, .slash, .percent] → (Operator.tryFrom e.1).isSome) ∧
      (e.2 ∈ [Punct.plus, .minus, .tilde] → (UnaryOp.tryFrom e.1).isSome) := by
  decide

/-- The row of the table that a spelled operator token was read from. -/
theorem Token.Spelled.mem_punctTable {t : Token} (h : t.Spelled) {p : Punct}
    (hp : t.kind = .punct p) : (t.string, p) ∈ TokenKind.punctTable :=
  TokenKind.mem_punctTable_of_tryFrom (hp ▸ h p hp)

/-- The text of a spelled `+`, `-`, `*`, `/` or `%` token names an `Operator`. -/
theorem Token.Spelled.operator {t : Token} (h : t.Spelled)
    (hk : IsSumOp t.kind ∨ IsProductOp t.kind) :
    ∃ o, Operator.tryFrom t.string = some o := by
  obtain ⟨p, hp, hmem⟩ :
      ∃ p, t.kind = .punct p ∧ p ∈ [Punct.plus, .minus, .star, .slash, .percent] := by
    rcases hk with (hk | hk) | (hk | hk | hk) <;> exact ⟨_, hk, by simp⟩
  exact Option.isSome_iff_exists.1 ((punctTable_operators _ (h.mem_punctTable hp)).1 hmem)

/-- The text of a spelled `+`, `-` or `~` token names a `UnaryOp`. -/
theorem Token.Spelled.unaryOp {t : Token} (h : t.Spelled) (hk : IsUnaryOp t.kind) :
    ∃ u, UnaryOp.tryFrom t.string = some u := by
  obtain ⟨p, hp, hmem⟩ : ∃ p, t.kind = .punct p ∧ p ∈ [Punct.plus, .minus, .tilde] := by
    rcases hk with hk | hk | hk <;> exact ⟨_, hk, by simp⟩
  exact Option.isSome_iff_exists.1 ((punctTable_operators _ (h.mem_punctTable hp)).2 hmem)

/-! ### Runs without a panic -/

/-- `x` does not stop with a panic. -/
def NoPanic (x : Except Err α) : Prop := ∀ msg, x ≠ .error (.panic msg)

/-- `p` does not panic on an input whose tokens are all spelled. -/
def PanicFree (p : Parser α) : Prop :=
  ∀ input : List Token, (∀ t ∈ input, t.Spelled) → NoPanic (p input)

/-- A success is no panic. -/
theorem NoPanic.ok (a : α) : NoPanic (.ok a : Except Err α) := fun _ h => by cases h

/-- A sequence does not panic if its first step does not, nor the rest after any value the
first step gives. -/
theorem NoPanic.bind {x : Except Err α} {f : α → Except Err β} (hx : NoPanic x)
    (hf : ∀ a, x = .ok a → NoPanic (f a)) : NoPanic (x >>= f) := by
  intro msg h
  cases hx' : x with
  | error e => rw [hx'] at h; cases h; exact hx msg hx'
  | ok a => rw [hx', ok_bind] at h; exact hf a hx' msg h

/-- `map` panics only where its parser does. -/
theorem NoPanic.map {p : Parser α} {f : α → β} {input : List Token} (h : NoPanic (p input)) :
    NoPanic (FeParser.map p f input) := by
  intro msg hm
  unfold FeParser.map at hm
  split at hm
  · cases hm
  · rename_i e he
    cases hm
    exact h _ he

/-- The tokens after a sound parser are tokens of its input. -/
theorem SoundFor.spelled_rest {p : Parser α} {P : List Token → α → Prop} (hs : SoundFor p P)
    {input rest : List Token} {a : α} (h : p input = .ok (rest, a))
    (hin : ∀ t ∈ input, t.Spelled) : ∀ t ∈ rest, t.Spelled := by
  obtain ⟨pre, rfl, -⟩ := hs h
  exact fun t ht => hin t (List.mem_append_right _ ht)

/-- A token parser never panics: it reads a token or fails with `Verify` or `Eof`. -/
theorem panicFree_tokenWith (cond : Token → Bool) : PanicFree (tokenWith cond) := by
  rintro (_ | ⟨t, ts⟩) - msg h
  · cases h
  · rw [tokenWith_cons_eq] at h
    split at h <;> cases h

/-- `alt` of two parsers that do not panic does not panic. -/
theorem PanicFree.alt {p q : Parser α} (hp : PanicFree p) (hq : PanicFree q) :
    PanicFree (FeParser.alt p q) := by
  intro input hin msg h
  unfold FeParser.alt at h
  split at h
  · exact hq input hin msg h
  · exact hp input hin msg h

/-- `map` of a parser that does not panic does not panic. -/
theorem PanicFree.map {p : Parser α} (hp : PanicFree p) (f : α → β) :
    PanicFree (FeParser.map p f) :=
  fun input hin => (hp input hin).map

/-- A sequence of two parsers, the first of them sound, so that the second reads a suffix. -/
theorem PanicFree.pair {p : Parser α} {q : Parser β} {P : List Token → α → Prop}
    (hp : PanicFree p) (hs : SoundFor p P) (hq : PanicFree q) : PanicFree (FeParser.pair p q) := by
  intro input hin msg h
  unfold FeParser.pair at h
  rcases hpi : p input with e | ⟨rest, a⟩ <;> rw [hpi] at h
  · cases h
    exact hp input hin _ hpi
  · dsimp only at h
    rcases hqi : q rest with e | ⟨rest', b⟩ <;> rw [hqi] at h <;> cases h
    exact hq rest (hs.spelled_rest hpi hin) _ hqi

/-- The `many` loop over a sound item that does not panic does not panic, under any bound: every
iteration reads a suffix of spelled tokens. -/
theorem PanicFree.manyLoop {f : Parser α} {P : List Token → α → Prop} (hf : PanicFree f)
    (hs : SoundFor f P) (code : ErrorKind) : ∀ n, PanicFree (FeParser.manyLoop code f n)
  | 0 => fun _ _ _ h => by cases h
  | n + 1 => fun input hin msg h => by
    unfold FeParser.manyLoop at h
    rcases hfi : f input with ((_ | _ | _) | ⟨rest, o⟩) <;> rw [hfi] at h
    · cases h
    · cases h
      exact hf input hin _ hfi
    · cases h
    · dsimp only at h
      split_ifs at h
      · exact (PanicFree.manyLoop hf hs code n rest (hs.spelled_rest hfi hin)).map msg h
      · cases h

/-! ### The five levels -/

/-- Folding the operator chain does not panic when every operator token's text names an
operator. -/
theorem foldBinOps_noPanic (head : Spanned ConstExpr) {tail : List (Token × Spanned ConstExpr)}
    (h : ∀ x ∈ tail, ∃ o, Operator.tryFrom x.1.string = some o) :
    NoPanic (foldBinOps head tail) := by
  induction tail generalizing head with
  | nil => exact NoPanic.ok _
  | cons x xs ih =>
    obtain ⟨o, ho⟩ := h x (List.mem_cons_self _ _)
    obtain ⟨e, he⟩ : ∃ e, binOpStep head x = .ok e := ⟨_, binOpStep_eq_ok.2 ⟨o, ho, rfl⟩⟩
    simp only [foldBinOps, List.foldlM_cons, he, ok_bind]
    exact ih _ fun y hy => h y (List.mem_cons_of_mem _ hy)

/-- A left-associative level whose operator kinds spell operators. -/
theorem PanicFree.leftAssoc {operand : Parser (Spanned ConstExpr)}
    {item : Parser (Token × Spanned ConstExpr)} {R : List Token → Spanned ConstExpr → Prop}
    {K : TokenKind → Prop} (ho : PanicFree operand) (hos : SoundFor operand R)
    (hi : PanicFree item) (his : SoundFor item (OpItem K R))
    (hK : ∀ {t : Token}, t.Spelled → K t.kind → ∃ o, Operator.tryFrom t.string = some o) :
    PanicFree (FeParser.leftAssoc operand item) := by
  intro input hin
  refine (ho input hin).bind fun ⟨rest, head⟩ h₁ => ?_
  have hrest := hos.spelled_rest h₁ hin
  refine (hi.manyLoop his .many0 _ rest hrest).bind fun ⟨rest', tail⟩ h₂ => ?_
  obtain ⟨pre, rfl, hmany⟩ := many0_sound his h₂
  refine (foldBinOps_noPanic head fun x hx => ?_).bind fun _ _ => NoPanic.ok _
  obtain ⟨_, hseg, us, rfl, hk, -⟩ := hmany.forall x hx
  exact hK (hrest _ (List.mem_append_left _ (hseg.subset (List.mem_cons_self _ _)))) hk

/-- At every fuel, no level of the constant-expression parsers panics on spelled tokens. -/
theorem constParsers_panicFree (fuel : Nat) :
    PanicFree (constExpr fuel) ∧ PanicFree (constTerm fuel) ∧ PanicFree (constFactor fuel) ∧
      PanicFree (constPower fuel) ∧ PanicFree (constAtom fuel) ∧ PanicFree (constGroup fuel) := by
  induction fuel with
  | zero => refine ⟨?_, ?_, ?_, ?_, ?_, ?_⟩ <;> exact fun _ _ _ h => by cases h
  | succ g ih =>
    obtain ⟨hE, hT, hF, hP, hA, hG⟩ := ih
    obtain ⟨sE, sT, sF, -, sA, -⟩ := constParsers_sound g
    have htok : ∀ k, PanicFree (token k) := fun _ => panicFree_tokenWith _
    have hpair : ∀ {q : Parser (Spanned ConstExpr)} k, PanicFree q →
        PanicFree (pair (token k) q) := fun _ hq => (htok _).pair (tokenWith_sound _) hq
    refine ⟨?_, ?_, ?_, ?_, ?_, ?_⟩
    · -- `const_expr`: the text of each `+` or `-` names its operator
      rw [constExpr]
      exact hT.leftAssoc sT ((hpair _ hT).alt (hpair _ hT))
        (alt_sound (tokenPair_opItem (.inl rfl) sT) (tokenPair_opItem (.inr rfl) sT))
        fun ht hk => ht.operator (.inl hk)
    · -- `const_term`: and of each `*`, `/` or `%`
      rw [constTerm]
      exact hF.leftAssoc sF ((hpair _ hF).alt ((hpair _ hF).alt (hpair _ hF)))
        (alt_sound (tokenPair_opItem (.inl rfl) sF)
          (alt_sound (tokenPair_opItem (.inr (.inl rfl)) sF)
            (tokenPair_opItem (.inr (.inr rfl)) sF)))
        fun ht hk => ht.operator (.inr hk)
    · -- `const_factor`: the text of the unary operator names it
      rw [constFactor]
      refine PanicFree.alt (fun input hin => ?_) hP
      have hop : PanicFree (alt (token (.punct .plus))
          (alt (token (.punct .minus)) (token (.punct .tilde)))) :=
        (htok _).alt ((htok _).alt (htok _))
      have sop : SoundFor (alt (token (.punct .plus))
          (alt (token (.punct .minus)) (token (.punct .tilde))))
          fun pre t => pre = [t] ∧ IsUnaryOp t.kind :=
        alt_sound ((tokenWith_sound _).mono fun _ _ ⟨h₁, h₂⟩ => ⟨h₁, .inl (by simpa using h₂)⟩)
          (alt_sound ((tokenWith_sound _).mono
              fun _ _ ⟨h₁, h₂⟩ => ⟨h₁, .inr (.inl (by simpa using h₂))⟩)
            ((tokenWith_sound _).mono fun _ _ ⟨h₁, h₂⟩ => ⟨h₁, .inr (.inr (by simpa using h₂))⟩))
      refine (hop.pair sop hF input hin).bind fun ⟨rest, opTok, operand⟩ h => ?_
      obtain ⟨_, rfl, _, b, rfl, ⟨rfl, hk⟩, -⟩ := pair_sound sop sF h
      obtain ⟨u, hu⟩ := (hin opTok (List.mem_cons_self _ _)).unaryOp hk
      dsimp only
      rw [hu]
      exact NoPanic.ok _
    · -- `const_power`: an atom, `**` and a factor, or an atom
      rw [constPower]
      exact (((hA.pair sA ((htok _).pair (tokenWith_sound _) hF)).map _).map _).alt hA
    · -- `const_atom`: a group, a name or a number
      rw [constAtom]
      exact hG.alt (((panicFree_tokenWith _).map _).alt ((panicFree_tokenWith _).map _))
    · -- `const_group`: `(`, an expression, `)`
      rw [constGroup]
      intro input hin
      refine (htok _ input hin).bind fun ⟨rest, _⟩ h₁ => ?_
      have hrest := (tokenWith_sound _).spelled_rest h₁ hin
      refine (hE rest hrest).bind fun ⟨rest', _⟩ h₂ => ?_
      exact (htok _ rest' (sE.spelled_rest h₂ hrest)).bind fun _ _ => NoPanic.ok _

/-- On tokens whose operator kinds are spelled by their text, `const_expr` never panics. -/
theorem constExpr_panicFree (fuel : Nat) : PanicFree (constExpr fuel) :=
  (constParsers_panicFree fuel).1

/-- A `+` token whose text is not `+` makes `const_expr` panic. -/
example : constExpr 8 [⟨.num, "1", ⟨0, 1⟩⟩, ⟨.punct .plus, "x", ⟨2, 3⟩⟩, ⟨.num, "2", ⟨4, 5⟩⟩] =
    .error (.panic "Operator::try_from") :=
  rfl

end FeParser
