import FeParser.ConstGrammar

/-!
# Completeness of the constant-expression parsers

With enough fuel, `const_expr` reads every rendering of a constant expression in the grammar
of `FeParser.ConstGrammar` back as the same tree up to spans, and stops in front of whatever
follows it, so long as that cannot continue an expression.

The proof is by induction on the derivation. For a level without a loop the induction
carries that, from some fuel on, the level's parser reads the tokens and stops in front of
anything that may follow them (`Reads`). The two left-associative levels are derived
left-recursively while their parsers loop; there it carries how far the loop has run
(`ReadsSpine`): the operand parser has read the first operand, `many0` reads the other
items and goes on into what follows, and the fold of the items is the tree.

## Main results

* `constExpr_complete`: from some fuel on, `const_expr` reads every rendering of a tree back
  as that tree, up to spans.
-/

namespace FeParser

open Grammar

variable {β : Type}

/-! ### Follow sets -/

namespace Grammar

/-- What may follow an expression may follow a term. -/
theorem Follows.term {rest : List Token} (h : Follows .expr rest) : Follows .term rest :=
  fun t ht hc => h t ht (.inr hc)

/-- What may follow a term may follow a factor. -/
theorem Follows.factor {rest : List Token} (h : Follows .term rest) : Follows .factor rest :=
  fun t ht hc => h t ht (.inr hc)

/-- Tokens whose first token cannot continue a level may follow it. -/
theorem follows_cons {lvl : Level} {t : Token} (rest : List Token) (h : ¬ Continues lvl t.kind) :
    Follows lvl (t :: rest) := by
  intro u hu
  obtain rfl : t = u := by simpa using hu
  exact h

/-- A `+` or `-` cannot continue a term: the term ends in front of it. -/
theorem not_continues_term_of_sum {k : TokenKind} (hk : IsSumOp k) : ¬ Continues .term k := by
  rcases hk with rfl | rfl <;> simp [Continues, IsProductOp]

/-- A `*`, `/` or `%` cannot continue a factor. -/
theorem not_continues_factor_of_product {k : TokenKind} (hk : IsProductOp k) :
    ¬ Continues .factor k := by
  rcases hk with rfl | rfl | rfl <;> simp [Continues]

/-- A token that can start an atom: `(`, a name or a number. -/
def StartsAtom (k : TokenKind) : Prop := k = .punct .openParen ∨ k.isName = true ∨ k = .num

/-- A token that starts an atom is no unary operator, so `const_factor`'s unary alternative fails on
it. -/
theorem not_isUnaryOp_of_startsAtom {k : TokenKind} (hk : StartsAtom k) : ¬ IsUnaryOp k := by
  rcases hk with rfl | hk | rfl
  · simp [IsUnaryOp]
  · obtain ⟨s, rfl⟩ := TokenKind.isName_iff.1 hk
    simp [IsUnaryOp]
  · simp [IsUnaryOp]

/-- A power or an atom starts with a token that starts an atom. -/
theorem Const.startsAtom {p : List Token → Span → Prop} {lvl : Level} {ts : List Token}
    {x : Spanned ConstExpr} (h : Const p lvl ts x) (hl : lvl = .power ∨ lvl = .atom) :
    ∃ t us, ts = t :: us ∧ StartsAtom t.kind := by
  induction h with
  | sum | term | product | factor | unary | power => simp at hl
  | pow _ _ _ _ ih _ =>
    obtain ⟨t, us, rfl, ht⟩ := ih (.inr rfl)
    exact ⟨t, _, rfl, ht⟩
  | atom _ ih => exact ih (.inr rfl)
  | group ho => exact ⟨_, _, rfl, .inl ho⟩
  | name hn => exact ⟨_, _, rfl, .inr (.inl hn)⟩
  | num hn => exact ⟨_, _, rfl, .inr (.inr hn)⟩

end Grammar

/-! ### What the induction carries -/

/-- `P` holds of every fuel from some fuel on. -/
def Eventually (P : Nat → Prop) : Prop := ∃ n, ∀ m, n ≤ m → P m

/-- What holds from some fuel on, with a weaker property, still does. -/
theorem Eventually.mono {P Q : Nat → Prop} (h : Eventually P) (hPQ : ∀ m, P m → Q m) :
    Eventually Q :=
  let ⟨n, hn⟩ := h
  ⟨n, fun m hm => hPQ m (hn m hm)⟩

/-- A property that holds from some fuel on gives one for the next fuel, from one more on. -/
theorem Eventually.succ {P Q : Nat → Prop} (h : Eventually P) (hPQ : ∀ m, P m → Q (m + 1)) :
    Eventually Q := by
  obtain ⟨n, hn⟩ := h
  refine ⟨n + 1, fun m hm => ?_⟩
  obtain ⟨m, rfl⟩ : ∃ k, m = k + 1 := ⟨m - 1, by omega⟩
  exact hPQ m (hn m (by omega))

/-- Two properties that each hold from some fuel on hold together from the larger fuel on. -/
theorem Eventually.and {P Q : Nat → Prop} (hP : Eventually P) (hQ : Eventually Q) :
    Eventually fun m => P m ∧ Q m :=
  let ⟨n, hn⟩ := hP
  let ⟨k, hk⟩ := hQ
  ⟨max n k, fun m hm => ⟨hn m (Nat.max_le.1 hm).1, hk m (Nat.max_le.1 hm).2⟩⟩

/-- `f` reads `ts` as `x` up to spans and stops in front of anything that may follow an
expression of level `lvl`. -/
def Reads (f : Parser (Spanned ConstExpr)) (lvl : Level) (ts : List Token)
    (x : Spanned ConstExpr) : Prop :=
  ∀ rest, Follows lvl rest → ∃ y, f (ts ++ rest) = .ok (rest, y) ∧ y.node.erase = x.node.erase

/-- The loop of a left-associative level, whose operands have level `lvl`, run over `ts`:
`operand` reads the first operand, `many0 item` reads the other items and goes on into what
follows, and the fold of the items is `x` up to spans. -/
def ReadsSpine (operand : Parser (Spanned ConstExpr)) (item : Parser (Token × Spanned ConstExpr))
    (lvl : Level) (ts : List Token) (x : Spanned ConstExpr) : Prop :=
  ∀ rest, Follows lvl rest → ∃ us head items, operand (ts ++ rest) = .ok (us ++ rest, head) ∧
    many0 item (us ++ rest) = map (many0 item) (items ++ ·) rest ∧
    ∃ e, foldBinOps head items = .ok e ∧ e.node.erase = x.node.erase

section Spine

variable {operand : Parser (Spanned ConstExpr)} {item : Parser (Token × Spanned ConstExpr)}
  {lvl : Level} {ts : List Token}

/-- A single operand is a loop that has read nothing else. -/
theorem ReadsSpine.single {x : Spanned ConstExpr} (h : Reads operand lvl ts x) :
    ReadsSpine operand item lvl ts x := by
  intro rest hrest
  obtain ⟨y, hy, he⟩ := h rest hrest
  exact ⟨[], y, [], hy, (map_nil_append _ _).symm, y, foldBinOps_nil y, he⟩

/-- One more item: the loop reads it, and the fold makes it the right operand of the
tree so far. -/
theorem ReadsSpine.snoc {t : Token} {us : List Token} {l r : Spanned ConstExpr} {o : Operator}
    {s : Span} (hl : ReadsSpine operand item lvl ts l) (ht : ¬ Continues lvl t.kind)
    (ho : Operator.tryFrom t.string = some o)
    (hitem : ∀ rest, Follows lvl rest → ∃ r', item (t :: (us ++ rest)) = .ok (rest, (t, r')) ∧
      r'.node.erase = r.node.erase) :
    ReadsSpine operand item lvl (ts ++ t :: us) ⟨.binOp l o r, s⟩ := by
  intro rest hrest
  obtain ⟨r', hi, hr'⟩ := hitem rest hrest
  obtain ⟨vs, head, items, hop, hmany, e, hf, he⟩ := hl (t :: (us ++ rest)) (follows_cons _ ht)
  have hstep := many0_cons hi (by simp only [List.length_cons, List.length_append]; omega)
  refine ⟨vs ++ t :: us, head, items ++ [(t, r')], by simpa using hop, ?_, ?_⟩
  · rw [List.append_assoc, List.cons_append, hmany, map_map_of_eq hstep]
    congr 1
    funext os
    simp
  · refine ⟨⟨.binOp e o r', Span.fromPair e.span r'.span⟩, ?_, ConstExpr.erase_binOp_congr he hr'⟩
    rw [foldBinOps_append_single hf]
    exact binOpStep_eq_ok.2 ⟨o, ho, rfl⟩

/-- A loop that stops in front of what follows reads the whole level. -/
theorem ReadsSpine.reads {lvl' : Level} {x : Spanned ConstExpr}
    (h : ReadsSpine operand item lvl ts x)
    (hstop : ∀ rest, Follows lvl' rest → Follows lvl rest ∧ Fails (item rest)) :
    Reads (leftAssoc operand item) lvl' ts x := by
  intro rest hrest
  obtain ⟨hf, hfail⟩ := hstop rest hrest
  obtain ⟨us, head, items, hop, hmany, e, hfold, he⟩ := h rest hf
  have hm : many0 item (us ++ rest) = .ok (rest, items) := by
    rw [hmany, map, many0_of_fails hfail]
    simp
  exact ⟨e, by simp only [leftAssoc, hop, ok_bind, hm, hfold]; rfl, he⟩

end Spine

/-! ### Operator tokens -/

/-- An operator token of the kind, then an operand that the parser reads. -/
theorem tokenPair_of_kind {k : TokenKind} {q : Parser β} {t : Token} {input rest : List Token}
    {x : β} (ht : t.kind = k) (hq : q input = .ok (rest, x)) :
    pair (token k) q (t :: input) = .ok (rest, (t, x)) :=
  pair_eq_ok.2 ⟨input, tokenWith_cons (by simpa using ht), hq⟩

/-- An operator pair fails on a first token of another kind. -/
theorem tokenPair_fails {k : TokenKind} {q : Parser β} {t : Token} {input : List Token}
    (ht : t.kind ≠ k) : Fails (pair (token k) q (t :: input)) :=
  pair_fails.2 (.inl (token_fails (by simpa using ht)))

/-- The loop item of `const_expr`. -/
def sumItem (fuel : Nat) : Parser (Token × Spanned ConstExpr) :=
  alt (pair (token (.punct .plus)) (constTerm fuel)) (pair (token (.punct .minus)) (constTerm fuel))

/-- The loop item of `const_term`. -/
def productItem (fuel : Nat) : Parser (Token × Spanned ConstExpr) :=
  alt (pair (token (.punct .star)) (constFactor fuel))
    (alt (pair (token (.punct .slash)) (constFactor fuel))
      (pair (token (.punct .percent)) (constFactor fuel)))

/-- `const_expr` with one more unit of fuel is its left-associative loop over terms. -/
theorem constExpr_succ (fuel : Nat) :
    constExpr (fuel + 1) = leftAssoc (constTerm fuel) (sumItem fuel) := by
  rw [constExpr]; rfl

/-- `const_term` with one more unit of fuel is its left-associative loop over factors. -/
theorem constTerm_succ (fuel : Nat) :
    constTerm (fuel + 1) = leftAssoc (constFactor fuel) (productItem fuel) := by
  rw [constTerm]; rfl

/-- The loop item of `const_expr` reads a `+` or `-` and then a term. -/
theorem sumItem_ok {fuel : Nat} {t : Token} {input rest : List Token} {r : Spanned ConstExpr}
    (ht : IsSumOp t.kind) (hr : constTerm fuel input = .ok (rest, r)) :
    sumItem fuel (t :: input) = .ok (rest, (t, r)) := by
  rcases ht with ht | ht
  · exact alt_of_ok (tokenPair_of_kind ht hr)
  · rw [sumItem, alt_of_fails (tokenPair_fails (by simp [ht]))]
    exact tokenPair_of_kind ht hr

/-- The loop item of `const_term` reads a `*`, `/` or `%` and then a factor. -/
theorem productItem_ok {fuel : Nat} {t : Token} {input rest : List Token} {r : Spanned ConstExpr}
    (ht : IsProductOp t.kind) (hr : constFactor fuel input = .ok (rest, r)) :
    productItem fuel (t :: input) = .ok (rest, (t, r)) := by
  rcases ht with ht | ht | ht
  · exact alt_of_ok (tokenPair_of_kind ht hr)
  · rw [productItem, alt_of_fails (tokenPair_fails (by simp [ht]))]
    exact alt_of_ok (tokenPair_of_kind ht hr)
  · rw [productItem, alt_of_fails (tokenPair_fails (by simp [ht])),
      alt_of_fails (tokenPair_fails (by simp [ht]))]
    exact tokenPair_of_kind ht hr

/-- The loop item of `const_expr` fails in front of what may follow an expression. -/
theorem sumItem_fails {fuel : Nat} {rest : List Token} (h : Follows .expr rest) :
    Fails (sumItem fuel rest) :=
  alt_fails.2 ⟨pair_fails.2 (.inl (token_fails fun t ht hk => h t ht (.inl (.inl hk)))),
    pair_fails.2 (.inl (token_fails fun t ht hk => h t ht (.inl (.inr hk))))⟩

/-- The loop item of `const_term` fails in front of what may follow a term. -/
theorem productItem_fails {fuel : Nat} {rest : List Token} (h : Follows .term rest) :
    Fails (productItem fuel rest) :=
  alt_fails.2 ⟨pair_fails.2 (.inl (token_fails fun t ht hk => h t ht (.inl (.inl hk)))),
    alt_fails.2 ⟨pair_fails.2 (.inl (token_fails fun t ht hk => h t ht (.inl (.inr (.inl hk))))),
      pair_fails.2 (.inl (token_fails fun t ht hk => h t ht (.inl (.inr (.inr hk)))))⟩⟩

/-- The unary operator alternative reads a `+`, `-` or `~`. -/
theorem unaryTok_ok {t : Token} {input : List Token} (ht : IsUnaryOp t.kind) :
    alt (token (.punct .plus)) (alt (token (.punct .minus)) (token (.punct .tilde))) (t :: input) =
      .ok (input, t) := by
  rcases ht with ht | ht | ht
  · exact alt_of_ok (tokenWith_cons (by simp [ht]))
  · rw [alt_of_fails (token_fails (by simp [ht]))]
    exact alt_of_ok (tokenWith_cons (by simp [ht]))
  · rw [alt_of_fails (token_fails (by simp [ht])), alt_of_fails (token_fails (by simp [ht]))]
    exact tokenWith_cons (by simp [ht])

/-- The unary operator alternative fails on any other token. -/
theorem unaryTok_fails {t : Token} {input : List Token} (ht : ¬ IsUnaryOp t.kind) :
    Fails (alt (token (.punct .plus)) (alt (token (.punct .minus)) (token (.punct .tilde)))
      (t :: input)) := by
  simp only [IsUnaryOp, not_or] at ht
  exact alt_fails.2 ⟨token_fails (by simp [ht.1]),
    alt_fails.2 ⟨token_fails (by simp [ht.2.1]), token_fails (by simp [ht.2.2])⟩⟩

/-! ### Each level -/

section Levels

variable {fuel : Nat} {ts : List Token} {x : Spanned ConstExpr}

/-- A loop over factors that stops in front of what may follow a term reads the term. -/
theorem constTerm_reads (h : ReadsSpine (constFactor fuel) (productItem fuel) .factor ts x) :
    Reads (constTerm (fuel + 1)) .term ts x := by
  rw [constTerm_succ]
  exact h.reads fun _ hr => ⟨hr.factor, productItem_fails hr⟩

/-- A loop over terms that stops in front of what may follow an expression reads the expression. -/
theorem constExpr_reads (h : ReadsSpine (constTerm fuel) (sumItem fuel) .term ts x) :
    Reads (constExpr (fuel + 1)) .expr ts x := by
  rw [constExpr_succ]
  exact h.reads fun _ hr => ⟨hr.term, sumItem_fails hr⟩

/-- A unary operator then a factor is read as the unary node. -/
theorem constFactor_reads_unary {t : Token} {u : UnaryOp} {s : Span}
    (h : Reads (constFactor fuel) .factor ts x) (hk : IsUnaryOp t.kind)
    (hu : UnaryOp.tryFrom t.string = some u) :
    Reads (constFactor (fuel + 1)) .factor (t :: ts) ⟨.unaryOp u x, s⟩ := by
  intro rest hrest
  obtain ⟨y, hy, he⟩ := h rest hrest
  refine ⟨⟨.unaryOp u y, Span.fromPair t.span y.span⟩, ?_, ConstExpr.erase_unaryOp_congr he⟩
  rw [constFactor]
  refine alt_of_ok ?_
  simp only [List.cons_append, pair_eq_ok.2 ⟨_, unaryTok_ok hk, hy⟩, ok_bind, hu, unwrap]
  rfl

/-- A power that starts with an atom is read by `const_factor` through its second alternative. -/
theorem constFactor_reads_power (h : Reads (constPower fuel) .power ts x)
    (hs : ∃ t us, ts = t :: us ∧ StartsAtom t.kind) : Reads (constFactor (fuel + 1)) .factor ts x := by
  obtain ⟨t, us, rfl, ht⟩ := hs
  intro rest hrest
  obtain ⟨y, hy, he⟩ := h rest hrest
  refine ⟨y, ?_, he⟩
  rw [constFactor, alt_of_fails]
  · exact hy
  · exact bind_fails.2 (.inl (pair_fails.2 (.inl (unaryTok_fails (not_isUnaryOp_of_startsAtom ht)))))

/-- An atom, `**`, then a factor, is read as the power node. -/
theorem constPower_reads_pow {us : List Token} {t : Token} {l r : Spanned ConstExpr} {s : Span}
    (hl : Reads (constAtom fuel) .atom ts l) (hk : t.kind = .punct .starStar)
    (hr : Reads (constFactor fuel) .factor us r) :
    Reads (constPower (fuel + 1)) .power (ts ++ t :: us) ⟨.binOp l .pow r, s⟩ := by
  intro rest hrest
  obtain ⟨r', hr', her⟩ := hr rest hrest
  obtain ⟨l', hl', hel⟩ := hl (t :: (us ++ rest)) fun _ _ h => h
  refine ⟨⟨.binOp l' .pow r', Span.fromPair l'.span r'.span⟩, ?_, ConstExpr.erase_binOp_congr hel her⟩
  rw [List.append_assoc, List.cons_append, constPower]
  exact alt_of_ok (map_of_ok (map_of_ok (pair_eq_ok.2 ⟨_, hl', tokenPair_of_kind hk hr'⟩)))

/-- An atom that no `**` follows is read by `const_power` through its second alternative. -/
theorem constPower_reads_atom (h : Reads (constAtom fuel) .atom ts x) :
    Reads (constPower (fuel + 1)) .power ts x := by
  intro rest hrest
  obtain ⟨y, hy, he⟩ := h rest fun _ _ h => h
  refine ⟨y, ?_, he⟩
  rw [constPower, alt_of_fails]
  · exact hy
  · exact map_fails.2 (map_fails.2 (pair_fails.2 (.inr ⟨_, _, hy,
      pair_fails.2 (.inl (token_fails fun t ht hk => hrest t ht hk))⟩)))

/-- A parenthesised expression is read as the expression inside, with the span of the parentheses.
-/
theorem constGroup_reads {o c : Token} {s : Span} (h : Reads (constExpr fuel) .expr ts x)
    (ho : o.kind = .punct .openParen) (hc : c.kind = .punct .closeParen) :
    Reads (constGroup (fuel + 1)) .atom (o :: (ts ++ [c])) ⟨x.node, s⟩ := by
  intro rest _
  have hcf : Follows .expr (c :: rest) :=
    follows_cons _ (by simp [hc, Continues, IsSumOp, IsProductOp])
  obtain ⟨y, hy, he⟩ := h (c :: rest) hcf
  refine ⟨⟨y.node, Span.fromPair o.span c.span⟩, ?_, he⟩
  rw [show o :: (ts ++ [c]) ++ rest = o :: (ts ++ c :: rest) by simp, constGroup]
  simp only [token_cons ho, ok_bind, hy, token_cons hc]
  rfl

/-- A group is read by `const_atom` through its first alternative. -/
theorem constAtom_reads_group (h : Reads (constGroup fuel) .atom ts x) :
    Reads (constAtom (fuel + 1)) .atom ts x := by
  intro rest hrest
  obtain ⟨y, hy, he⟩ := h rest hrest
  exact ⟨y, by rw [constAtom]; exact alt_of_ok hy, he⟩

/-- `const_group` fails, without running out of fuel, on a token other than `(`. -/
theorem constGroup_fails {t : Token} {input : List Token} (ht : t.kind ≠ .punct .openParen) :
    Fails (constGroup (fuel + 1) (t :: input)) := by
  rw [constGroup]
  exact bind_fails.2 (.inl (token_fails (by simp [ht])))

/-- A name token is read by `const_atom` as a name node. -/
theorem constAtom_reads_name {t : Token} {s : Span} (ht : t.kind.isName = true) :
    Reads (constAtom (fuel + 2)) .atom [t] ⟨.name t.string, s⟩ := by
  intro rest _
  refine ⟨⟨.name t.string, t.span⟩, ?_, rfl⟩
  have hp : t.kind ≠ .punct .openParen := fun h => by simp [h, TokenKind.isName] at ht
  rw [constAtom, List.singleton_append, alt_of_fails (constGroup_fails hp)]
  exact alt_of_ok (map_of_ok (tokenWith_cons ht))

/-- A number token is read by `const_atom` as a number node. -/
theorem constAtom_reads_num {t : Token} {s : Span} (ht : t.kind = .num) :
    Reads (constAtom (fuel + 2)) .atom [t] ⟨.num t.string, s⟩ := by
  intro rest _
  refine ⟨⟨.num t.string, t.span⟩, ?_, rfl⟩
  rw [constAtom, List.singleton_append, alt_of_fails (constGroup_fails (by simp [ht])),
    alt_of_fails]
  · exact map_of_ok (tokenWith_cons (by simp [ht]))
  · exact map_fails.2 (tokenWith_fails.2 (by simp [ht, TokenKind.isName]))

end Levels

/-! ### Every derivation is read back -/

/-- What a derivation of each level gives, from some fuel on. -/
def Complete : Level → List Token → Spanned ConstExpr → Prop
  | .expr, ts, x => Eventually fun m => ReadsSpine (constTerm m) (sumItem m) .term ts x
  | .term, ts, x => Eventually fun m => ReadsSpine (constFactor m) (productItem m) .factor ts x
  | .factor, ts, x => Eventually fun m => Reads (constFactor m) .factor ts x
  | .power, ts, x => Eventually fun m => Reads (constPower m) .power ts x
  | .atom, ts, x => Eventually fun m => Reads (constAtom m) .atom ts x

/-- Every derivation, of any level, gives what `Complete` asks of that level: by induction on the
derivation, one case per rule. -/
theorem Grammar.Const.complete {p : List Token → Span → Prop} {lvl : Level} {ts : List Token}
    {x : Spanned ConstExpr} (h : Const p lvl ts x) : Complete lvl ts x := by
  induction h with
  | @sum ts us t l r o s _ hk ho _ _ ihl ihr =>
    have hr : Eventually fun m => Reads (constTerm m) .term us r :=
      Eventually.succ ihr fun _ h => constTerm_reads h
    exact Eventually.mono (Eventually.and ihl hr) fun _ ⟨hl, hr⟩ =>
      hl.snoc (not_continues_term_of_sum hk) ho fun rest hrest =>
        let ⟨r', hr', he⟩ := hr rest hrest
        ⟨r', sumItem_ok hk hr', he⟩
  | term _ ih => exact Eventually.succ ih fun _ h => .single (constTerm_reads h)
  | product _ hk ho _ _ ihl ihr =>
    exact Eventually.mono (Eventually.and ihl ihr) fun _ ⟨hl, hr⟩ =>
      hl.snoc (not_continues_factor_of_product hk) ho fun rest hrest =>
        let ⟨r', hr', he⟩ := hr rest hrest
        ⟨r', productItem_ok hk hr', he⟩
  | factor _ ih => exact Eventually.mono ih fun _ h => .single h
  | unary hk hu _ _ ih => exact Eventually.succ ih fun _ h => constFactor_reads_unary h hk hu
  | power hx ih =>
    exact Eventually.succ ih fun _ h => constFactor_reads_power h (hx.startsAtom (.inl rfl))
  | pow _ hk _ _ ihl ihr =>
    exact Eventually.succ (Eventually.and ihl ihr) fun _ ⟨hl, hr⟩ => constPower_reads_pow hl hk hr
  | atom _ ih => exact Eventually.succ ih fun _ h => constPower_reads_atom h
  | @group o c ts x s ho _ hc _ ih =>
    have he : Eventually fun m => Reads (constExpr m) .expr ts x :=
      Eventually.succ ih fun _ h => constExpr_reads h
    have hg : Eventually fun m => Reads (constGroup m) .atom (o :: (ts ++ [c])) ⟨x.node, s⟩ :=
      Eventually.succ he fun _ h => constGroup_reads h ho hc
    exact Eventually.succ hg fun _ h => constAtom_reads_group h
  | name hn => exact ⟨2, fun m hm => by
      obtain ⟨m, rfl⟩ : ∃ k, m = k + 2 := ⟨m - 2, by omega⟩
      exact constAtom_reads_name hn⟩
  | num hn => exact ⟨2, fun m hm => by
      obtain ⟨m, rfl⟩ : ∃ k, m = k + 2 := ⟨m - 2, by omega⟩
      exact constAtom_reads_num hn⟩

/-- From some fuel on, `const_expr` reads every rendering `toks` of a tree `e` back as `e`
up to spans, and stops in front of `rest` when its first token cannot continue an
expression. -/
theorem constExpr_complete {toks rest : List Token} {e : Spanned ConstExpr}
    (h : Const Unconstrained .expr toks e) (hrest : Follows .expr rest) :
    ∃ n, ∀ m, n ≤ m → ∃ e', constExpr m (toks ++ rest) = .ok (rest, e') ∧
      e'.node.erase = e.node.erase := by
  have hc : Eventually fun m => Reads (constExpr m) .expr toks e :=
    Eventually.succ h.complete fun _ h => constExpr_reads h
  obtain ⟨n, hn⟩ := hc
  exact ⟨n, fun m hm => hn m hm rest hrest⟩

/-- The tokens of `a + b`. -/
def sumTokens : List Token :=
  [⟨.name "a", "a", ⟨0, 1⟩⟩, ⟨.punct .plus, "+", ⟨2, 3⟩⟩, ⟨.name "b", "b", ⟨4, 5⟩⟩]

/-- `a + b` derives `Add(a, b)`, and `const_expr` reads it so at the end of the input. -/
theorem constExpr_complete_add :
    Const Unconstrained .expr sumTokens
        ⟨.binOp ⟨.name "a", Span.zero⟩ .add ⟨.name "b", Span.zero⟩, Span.zero⟩ ∧
      Follows .expr [] ∧
      ∃ n, ∀ m, n ≤ m → ∃ e', constExpr m (sumTokens ++ []) = .ok ([], e') ∧
        e'.node.erase = (ConstExpr.binOp ⟨.name "a", Span.zero⟩ .add ⟨.name "b", Span.zero⟩).erase := by
  have h : Const Unconstrained .expr sumTokens
      ⟨.binOp ⟨.name "a", Span.zero⟩ .add ⟨.name "b", Span.zero⟩, Span.zero⟩ :=
    @Const.sum Unconstrained [⟨.name "a", "a", ⟨0, 1⟩⟩] [⟨.name "b", "b", ⟨4, 5⟩⟩]
      ⟨.punct .plus, "+", ⟨2, 3⟩⟩ _ _ .add Span.zero (.term (.factor (.power (.atom
        (.name rfl trivial))))) (.inl rfl) rfl (.factor (.power (.atom (.name rfl trivial))))
      trivial
  have hf : Follows .expr [] := by simp [Follows]
  exact ⟨h, hf, constExpr_complete h hf⟩

end FeParser
