import FeParser.ConstGrammar
import FeParser.Soundness

/-!
# Soundness of the constant-expression parsers

At every fuel, a success of each constant-expression parser consumed a prefix of its input
that derives the returned expression at the parser's level, with every span the hull of
its tokens wherever those are ordered. The five parsers are proved together, by induction
on the fuel (`constParsers_sound`); the loop shared by `const_expr` and `const_term` once,
in `leftAssoc_sound`.

## Main results

* `constExpr_sound`: a success of `const_expr` consumed a prefix deriving its result.
-/

namespace FeParser

open Grammar

variable {α β : Type}

/-! ### Combinators -/

/-- `pair` of two sound parsers consumes a derivation of the first followed by one of the second. -/
theorem pair_sound {p : Parser α} {q : Parser β} {P : List Token → α → Prop}
    {Q : List Token → β → Prop} (hp : SoundFor p P) (hq : SoundFor q Q) :
    SoundFor (pair p q) fun pre x => ∃ a b, pre = a ++ b ∧ P a x.1 ∧ Q b x.2 := by
  rintro input rest ⟨x, y⟩ h
  obtain ⟨mid, h₁, h₂⟩ := pair_eq_ok.1 h
  obtain ⟨a, rfl, ha⟩ := hp h₁
  obtain ⟨b, rfl, hb⟩ := hq h₂
  exact ⟨a ++ b, by simp, a, b, rfl, ha, hb⟩

/-- A token of kind `k`, then what `q` parses. -/
theorem tokenPair_sound {k : TokenKind} {q : Parser β} {Q : List Token → β → Prop}
    (hq : SoundFor q Q) :
    SoundFor (pair (token k) q) fun pre x => ∃ us, pre = x.1 :: us ∧ x.1.kind = k ∧ Q us x.2 := by
  refine (pair_sound (tokenWith_sound _) hq).mono ?_
  rintro _ ⟨t, x⟩ ⟨_, b, rfl, ⟨rfl, hk⟩, hb⟩
  exact ⟨b, rfl, by simpa using hk, hb⟩

/-! ### The left-associative levels -/

/-- An item of a left-associative level: an operator token of a kind in `K`, then an
operand. -/
def OpItem (K : TokenKind → Prop) (R : List Token → Spanned ConstExpr → Prop)
    (pre : List Token) (x : Token × Spanned ConstExpr) : Prop :=
  ∃ us, pre = x.1 :: us ∧ K x.1.kind ∧ R us x.2

/-- An operator token of a kind in `K`, then an operand, is an operator item. -/
theorem tokenPair_opItem {K : TokenKind → Prop} {k : TokenKind} {q : Parser (Spanned ConstExpr)}
    {R : List Token → Spanned ConstExpr → Prop} (hk : K k) (hq : SoundFor q R) :
    SoundFor (pair (token k) q) (OpItem K R) :=
  (tokenPair_sound hq).mono fun _ _ ⟨us, h, hk', hr⟩ => ⟨us, h, hk' ▸ hk, hr⟩

section LeftAssoc

variable {Q R : List Token → Spanned ConstExpr → Prop} {K : TokenKind → Prop}

/-- The fold of a sound loop derives the left-nested tree. -/
theorem foldBinOps_sound
    (hstep : ∀ {ts us t l r o}, Q ts l → K (Token.kind t) → Operator.tryFrom t.string = some o →
      R us r → Q (ts ++ t :: us) ⟨.binOp l o r, Span.fromPair l.span r.span⟩)
    {tail : List (Token × Spanned ConstExpr)} :
    ∀ {head e : Spanned ConstExpr} {ts us : List Token}, Q ts head → Many (OpItem K R) us tail →
      foldBinOps head tail = .ok e → Q (ts ++ us) e := by
  induction tail with
  | nil =>
    intro head e ts us hq hm h
    cases hm
    cases h
    simpa using hq
  | cons x tail ih =>
    intro head e ts us hq hm h
    cases hm with
    | cons hx hxs =>
      obtain ⟨us, rfl, hk, hr⟩ := hx
      simp only [foldBinOps, List.foldlM_cons, bind_eq_ok] at h
      obtain ⟨e', he', h⟩ := h
      obtain ⟨o, ho, rfl⟩ := binOpStep_eq_ok.1 he'
      simpa using ih (hstep hq hk ho hr) hxs h

/-- The left-associative loop consumes the first operand and the items, and each step of its fold
builds the binary node the rule `Q` derives, given the step rule `hstep`. -/
theorem leftAssoc_sound {operand : Parser (Spanned ConstExpr)}
    {item : Parser (Token × Spanned ConstExpr)} (hop : SoundFor operand R)
    (hlift : ∀ {ts x}, R ts x → Q ts x) (hitem : SoundFor item (OpItem K R))
    (hstep : ∀ {ts us t l r o}, Q ts l → K (Token.kind t) → Operator.tryFrom t.string = some o →
      R us r → Q (ts ++ t :: us) ⟨.binOp l o r, Span.fromPair l.span r.span⟩) :
    SoundFor (leftAssoc operand item) Q := by
  intro input rest e h
  simp only [leftAssoc, bind_eq_ok, Prod.exists, pure, Except.pure, Except.ok.injEq,
    Prod.mk.injEq] at h
  obtain ⟨r₁, head, h₁, r₂, tail, h₂, e', hf, rfl, rfl⟩ := h
  obtain ⟨pre₁, rfl, hp₁⟩ := hop h₁
  obtain ⟨pre₂, rfl, hp₂⟩ := many0_sound hitem h₂
  exact ⟨pre₁ ++ pre₂, by simp, foldBinOps_sound hstep (hlift hp₁) hp₂ hf⟩

end LeftAssoc

/-- The span of a binary node: from its left operand to its right one. -/
theorem HullIfOrdered.binOp {ts us : List Token} {t : Token} {l r : Spanned ConstExpr}
    {lvl lvl' : Level} (hl : Const HullIfOrdered lvl ts l) (hr : Const HullIfOrdered lvl' us r) :
    HullIfOrdered (ts ++ t :: us) (Span.fromPair l.span r.span) := by
  simpa using hl.span.fromPair (m := [t]) hr.span hl.nonLayout_ne_nil hr.nonLayout_ne_nil

/-! ### The five levels -/

/-- At every fuel, each parser is sound for its level; `const_group` for the atom level. -/
theorem constParsers_sound (fuel : Nat) :
    SoundFor (constExpr fuel) (Const HullIfOrdered .expr) ∧
      SoundFor (constTerm fuel) (Const HullIfOrdered .term) ∧
      SoundFor (constFactor fuel) (Const HullIfOrdered .factor) ∧
      SoundFor (constPower fuel) (Const HullIfOrdered .power) ∧
      SoundFor (constAtom fuel) (Const HullIfOrdered .atom) ∧
      SoundFor (constGroup fuel) (Const HullIfOrdered .atom) := by
  induction fuel with
  | zero =>
    refine ⟨?_, ?_, ?_, ?_, ?_, ?_⟩ <;> intro _ _ _ h <;>
      simp [constExpr, constTerm, constFactor, constPower, constAtom, constGroup] at h
  | succ m ih =>
    obtain ⟨hE, hT, hF, hP, hA, hG⟩ := ih
    refine ⟨?_, ?_, ?_, ?_, ?_, ?_⟩
    · rw [constExpr]
      refine leftAssoc_sound hT .term
        (alt_sound (tokenPair_opItem ?_ hT) (tokenPair_opItem ?_ hT))
        fun hl hk ho hr => .sum hl hk ho hr (HullIfOrdered.binOp hl hr)
      exacts [.inl rfl, .inr rfl]
    · rw [constTerm]
      refine leftAssoc_sound hF .factor (alt_sound (tokenPair_opItem ?_ hF)
        (alt_sound (tokenPair_opItem ?_ hF) (tokenPair_opItem ?_ hF)))
        fun hl hk ho hr => .product hl hk ho hr (HullIfOrdered.binOp hl hr)
      exacts [.inl rfl, .inr (.inl rfl), .inr (.inr rfl)]
    · rw [constFactor]
      refine alt_sound ?_ (hP.mono fun _ _ => .power)
      have hop : SoundFor (alt (token (.punct .plus))
          (alt (token (.punct .minus)) (token (.punct .tilde))))
          fun pre t => pre = [t] ∧ IsUnaryOp t.kind :=
        alt_sound ((tokenWith_sound _).mono fun _ _ ⟨h₁, h₂⟩ => ⟨h₁, .inl (by simpa using h₂)⟩)
          (alt_sound ((tokenWith_sound _).mono fun _ _ ⟨h₁, h₂⟩ => ⟨h₁, .inr (.inl (by simpa using h₂))⟩)
            ((tokenWith_sound _).mono fun _ _ ⟨h₁, h₂⟩ => ⟨h₁, .inr (.inr (by simpa using h₂))⟩))
      intro input rest x h
      simp only [bind_eq_ok, Prod.exists, pure, Except.pure, Except.ok.injEq, Prod.mk.injEq,
        unwrap_eq_ok] at h
      obtain ⟨r, t, y, hpq, u, hu, rfl, rfl⟩ := h
      obtain ⟨_, rfl, _, b, rfl, ⟨rfl, hk⟩, hb⟩ := pair_sound hop hF hpq
      dsimp only at hk hb
      have ht : t.kind.isLayout = false := by
        rcases hk with h | h | h <;> simp [h, TokenKind.isLayout]
      have hs := (HullIfOrdered.token ht).fromPair (m := []) hb.span (nonLayout_cons_ne_nil ht [])
        hb.nonLayout_ne_nil
      exact ⟨t :: b, by simp, .unary hk hu hb (by simpa using hs)⟩
    · rw [constPower]
      refine alt_sound ?_ (hA.mono fun _ _ => .atom)
      intro input rest x h
      obtain ⟨⟨l, r⟩, hs, rfl⟩ := map_eq_ok.1 h
      obtain ⟨⟨l, t, r⟩, hpq, ⟨⟩⟩ := map_eq_ok.1 hs
      obtain ⟨_, rfl, a, _, rfl, hl, us, rfl, hk, hr⟩ := pair_sound hA (tokenPair_sound hF) hpq
      exact ⟨a ++ t :: us, by simp, .pow hl hk hr (HullIfOrdered.binOp hl hr)⟩
    · rw [constAtom]
      refine alt_sound hG (alt_sound ?_ ?_)
      · intro input rest x h
        obtain ⟨t, ht, rfl⟩ := map_eq_ok.1 h
        obtain ⟨rfl, hn⟩ := tokenWith_eq_ok.1 ht
        exact ⟨[t], rfl, .name hn (HullIfOrdered.token (isLayout_of_isName hn))⟩
      · intro input rest x h
        obtain ⟨t, ht, rfl⟩ := map_eq_ok.1 h
        obtain ⟨rfl, hn⟩ := tokenWith_eq_ok.1 ht
        replace hn : t.kind = .num := by simpa using hn
        exact ⟨[t], rfl, .num hn (HullIfOrdered.token (by simp [hn, TokenKind.isLayout]))⟩
    · rw [constGroup]
      intro input rest x h
      simp only [token, bind_eq_ok, Prod.exists, pure, Except.pure, Except.ok.injEq,
        Prod.mk.injEq, tokenWith_eq_ok, beq_iff_eq] at h
      obtain ⟨r₁, o, ⟨rfl, ho⟩, r₂, y, hy, r₃, c, ⟨rfl, hc⟩, rfl, rfl⟩ := h
      obtain ⟨pre, rfl, hpre⟩ := hE hy
      exact ⟨o :: (pre ++ [c]), by simp, .group ho hpre hc
        (HullIfOrdered.ends pre (by simp [ho, TokenKind.isLayout]) (by simp [hc, TokenKind.isLayout]))⟩

/-- Every success of `const_expr` consumed a prefix deriving the expression it returns,
whose spans are hulls wherever the tokens are ordered. -/
theorem constExpr_sound (fuel : Nat) : SoundFor (constExpr fuel) (Const HullIfOrdered .expr) :=
  (constParsers_sound fuel).1

end FeParser
