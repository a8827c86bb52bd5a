import FeParser.ConstCompleteness
import FeParser.ConstSoundness

/-!
# Termination of the parsers

Rust puts no bound on the recursion of `const_expr`. Each of its cycles reads a token before
it comes back: `const_expr → const_term → const_factor → const_power → const_atom →
const_group → const_expr` reads `(`, and `const_factor → const_factor` reads a unary
operator. So six nested calls read at least one token, and six units of fuel per token, and
six more, are never spent (`constParsers_agree`); above that bound the result of the
fuelled model does not depend on the fuel.

The `many0` and `many1` loops stop with an `Error` where nom's no-progress guard fires: where
an iteration consumes nothing. Every parser those loops iterate consumes a token whenever it
succeeds (`Consumes`), so the guard never fires (`manyLoop_not_fails`): a `many0` loop never
fails, and a `many1` loop fails only where its first item does.

## Main results

* `parsers_terminate`: enough fuel for `const_expr`, and consumption by every iterated
  parser, with what it gives the loops.
-/

namespace FeParser

open Grammar

variable {α β : Type}

/-! ### Parsers that consume -/

/-- `p` reads at least one token whenever it succeeds. -/
def Consumes (p : Parser α) : Prop :=
  ∀ ⦃input rest : List Token⦄ ⦃x : α⦄, p input = .ok (rest, x) → rest.length < input.length

/-- A sound parser returns a suffix of its input. -/
theorem SoundFor.length_le {p : Parser α} {P : List Token → α → Prop} (h : SoundFor p P) :
    ∀ ⦃input rest : List Token⦄ ⦃x : α⦄, p input = .ok (rest, x) → rest.length ≤ input.length := by
  intro input rest x hp
  obtain ⟨pre, rfl, -⟩ := h hp
  simp

/-- A sound parser whose derivations are never empty consumes. -/
theorem SoundFor.consumes {p : Parser α} {P : List Token → α → Prop} (h : SoundFor p P)
    (hne : ∀ pre x, P pre x → pre ≠ []) : Consumes p := fun _ _ _ hp => by
  obtain ⟨pre, rfl, hpre⟩ := h hp
  have := List.length_pos.2 (hne pre _ hpre)
  simp only [List.length_append]
  omega

/-- With an item that consumes, the `many` loop never fails: its only `Error` is the
no-progress guard's. -/
theorem manyLoop_not_fails {code : ErrorKind} {f : Parser α} (hf : Consumes f) :
    ∀ (n : Nat) (input : List Token), ¬ Fails (manyLoop code f n input)
  | 0, _, ⟨_, h⟩ => by cases h
  | n + 1, input, hfail => by
    obtain ⟨e, he⟩ := hfail
    rcases hfi : f input with ((_ | _ | _) | ⟨rest, o⟩) <;> simp only [manyLoop, hfi] at he
    · cases he
    · cases he
    · cases he
    · rw [if_pos (hf hfi)] at he
      exact manyLoop_not_fails hf n rest (map_fails.1 ⟨e, he⟩)

/-- `many0` over an item that consumes never fails. -/
theorem many0_not_fails {f : Parser α} (hf : Consumes f) (input : List Token) :
    ¬ Fails (many0 f input) :=
  manyLoop_not_fails hf _ input

/-- `many1` over an item that consumes fails only where its first item does. -/
theorem many1_fails_of_consumes {f : Parser α} (hf : Consumes f) {input : List Token}
    (h : Fails (many1 f input)) : Fails (f input) := by
  obtain ⟨e, he⟩ := h
  rcases hfi : f input with e' | ⟨rest, o⟩ <;> simp only [many1, hfi] at he
  · cases he
    exact ⟨e, rfl⟩
  · exact absurd (map_fails.1 ⟨e, he⟩) (manyLoop_not_fails hf _ _)

/-! ### Fuel -/

section Fuel

/-- Two runs give the same result, and neither stopped on spent fuel. -/
def FuelAgree (x y : Except Err α) : Prop := x = y ∧ x ≠ .error .outOfFuel

/-- `p` and `q` agree, with no fuel spent, on every input of at most `n` tokens. -/
def AgreeUpTo (n : Nat) (p q : Parser α) : Prop :=
  ∀ input : List Token, input.length ≤ n → FuelAgree (p input) (q input)

/-- Two sequences agree, with no fuel spent, when their first steps do and the rest do after every
value. -/
theorem FuelAgree.bind {x y : Except Err α} {f g : α → Except Err β} (h : FuelAgree x y)
    (hfg : ∀ a, x = .ok a → FuelAgree (f a) (g a)) : FuelAgree (x >>= f) (y >>= g) := by
  obtain ⟨rfl, hx⟩ := h
  cases x with
  | error e => exact ⟨rfl, fun h => hx (by cases h; rfl)⟩
  | ok a => exact hfg a rfl

variable {n : Nat}

/-- Agreement on inputs of at most `n` tokens gives agreement on shorter ones. -/
theorem AgreeUpTo.mono {m : Nat} {p q : Parser α} (h : AgreeUpTo n p q) (hm : m ≤ n) :
    AgreeUpTo m p q :=
  fun input hi => h input (hi.trans hm)

/-- A token parser agrees with itself and spends no fuel. -/
theorem agreeUpTo_tokenWith (cond : Token → Bool) : AgreeUpTo n (tokenWith cond) (tokenWith cond) := by
  intro input _
  refine ⟨rfl, ?_⟩
  cases input with
  | nil => simp [tokenWith, verify, oneToken]
  | cons t ts => rw [tokenWith_cons_eq]; split <;> simp

/-- `alt` of agreeing parsers agree. -/
theorem AgreeUpTo.alt {p p' q q' : Parser α} (hp : AgreeUpTo n p p') (hq : AgreeUpTo n q q') :
    AgreeUpTo n (FeParser.alt p q) (FeParser.alt p' q') := fun input hi => by
  obtain ⟨hpe, hpo⟩ := hp input hi
  unfold FeParser.alt
  rw [← hpe]
  split
  · exact hq input hi
  · exact ⟨rfl, hpo⟩

/-- `map` of agreeing parsers agree. -/
theorem AgreeUpTo.map {p p' : Parser α} (hp : AgreeUpTo n p p') (f : α → β) :
    AgreeUpTo n (FeParser.map p f) (FeParser.map p' f) := fun input hi => by
  obtain ⟨hpe, hpo⟩ := hp input hi
  unfold FeParser.map
  rw [← hpe]
  split
  · exact ⟨rfl, by simp⟩
  · rename_i e he
    exact ⟨rfl, by rw [he] at hpo; simpa using hpo⟩

/-- A sequence agrees where its first parser does and its second does after it. -/
theorem AgreeUpTo.pair {p p' : Parser α} {q q' : Parser β} (hp : AgreeUpTo n p p')
    (hq : ∀ input rest a, input.length ≤ n → p input = .ok (rest, a) → FuelAgree (q rest) (q' rest)) :
    AgreeUpTo n (FeParser.pair p q) (FeParser.pair p' q') := fun input hi => by
  obtain ⟨hpe, hpo⟩ := hp input hi
  unfold FeParser.pair
  rw [← hpe]
  rcases hpi : p input with e | ⟨rest, a⟩
  · rw [hpi] at hpo
    exact ⟨rfl, fun h => hpo (by cases h; rfl)⟩
  · obtain ⟨hqe, hqo⟩ := hq input rest a hi hpi
    dsimp only
    rw [← hqe]
    rcases hqi : q rest with e | ⟨rest', b⟩
    · rw [hqi] at hqo
      exact ⟨rfl, fun h => hqo (by cases h; rfl)⟩
    · exact ⟨rfl, by simp⟩

/-- A sequence that starts with one token needs its second parser only on shorter inputs. -/
theorem AgreeUpTo.step {p : Parser α} {q q' : Parser β} (hp : AgreeUpTo n p p)
    (hstep : ∀ ⦃input rest a⦄, p input = .ok (rest, a) → input.length = rest.length + 1)
    (hq : 0 < n → AgreeUpTo (n - 1) q q') : AgreeUpTo n (FeParser.pair p q) (FeParser.pair p q') :=
  hp.pair fun input rest _ hi h => by
    have := hstep h
    exact hq (by omega) rest (by omega)

/-- A token before a parser. -/
theorem token_step' {k : TokenKind} ⦃input rest : List Token⦄ ⦃t : Token⦄
    (h : token k input = .ok (rest, t)) : input.length = rest.length + 1 := by
  obtain ⟨rfl, -⟩ := tokenWith_eq_ok.1 h
  rfl

/-- An operator token, then an operand that agrees on inputs as long. -/
theorem AgreeUpTo.tokenPair {q q' : Parser β} (h : AgreeUpTo n q q') (k : TokenKind) :
    AgreeUpTo n (FeParser.pair (token k) q) (FeParser.pair (token k) q') :=
  (agreeUpTo_tokenWith _).step token_step' fun _ => h.mono (Nat.sub_le n 1)

/-- `many0` of agreeing items agree: every iteration runs on a suffix of the input. -/
theorem AgreeUpTo.many0 {f f' : Parser α} (hf : AgreeUpTo n f f') :
    AgreeUpTo n (FeParser.many0 f) (FeParser.many0 f') := by
  suffices h : ∀ (k : Nat) (code : ErrorKind) (input : List Token), input.length ≤ n →
      FuelAgree (manyLoop code f k input) (manyLoop code f' k input) from
    fun input hi => h _ _ input hi
  intro k
  induction k with
  | zero => exact fun _ _ _ => ⟨rfl, by simp [manyLoop]⟩
  | succ k ih =>
    intro code input hi
    obtain ⟨hfe, hfo⟩ := hf input hi
    unfold manyLoop
    rw [← hfe]
    rcases hfi : f input with ((_ | _ | _) | ⟨rest, o⟩)
    · exact ⟨rfl, by simp⟩
    · exact ⟨rfl, by simp⟩
    · rw [hfi] at hfo
      exact absurd rfl hfo
    · dsimp only
      split
      · obtain ⟨hle, hlo⟩ := ih code rest (by omega)
        unfold FeParser.map
        refine ⟨by rw [hle], ?_⟩
        split
        · simp
        · rename_i e he
          rw [he] at hlo
          simpa using hlo
      · exact ⟨rfl, by simp⟩

/-- An `unwrap` only panics. -/
theorem unwrap_bind_ne_outOfFuel {msg : String} {o : Option α} {f : α → Except Err β}
    (hf : ∀ a, f a ≠ .error .outOfFuel) : unwrap msg o >>= f ≠ .error .outOfFuel := by
  cases o with
  | none => simp [unwrap, bind, Except.bind]
  | some a => exact hf a

/-- Folding the operator chain only panics. -/
theorem foldBinOps_ne_outOfFuel (head : Spanned ConstExpr) (tail : List (Token × Spanned ConstExpr)) :
    foldBinOps head tail ≠ .error .outOfFuel := by
  induction tail generalizing head with
  | nil => simp [foldBinOps, pure, Except.pure]
  | cons x xs ih =>
    simp only [foldBinOps, List.foldlM_cons, binOpStep]
    cases Operator.tryFrom x.1.string with
    | none => simp [unwrap, bind, Except.bind]
    | some o => exact ih _

/-- The left-associative loops of agreeing operands and items agree. -/
theorem AgreeUpTo.leftAssoc {operand operand' : Parser (Spanned ConstExpr)}
    {item item' : Parser (Token × Spanned ConstExpr)} (ho : AgreeUpTo n operand operand')
    (hs : ∀ ⦃input rest a⦄, operand input = .ok (rest, a) → rest.length ≤ input.length)
    (hi : AgreeUpTo n item item') :
    AgreeUpTo n (FeParser.leftAssoc operand item) (FeParser.leftAssoc operand' item') :=
  fun input hn => (ho input hn).bind fun ⟨rest, head⟩ h =>
    (hi.many0 rest ((hs h).trans hn)).bind fun ⟨_, tail⟩ _ =>
      FuelAgree.bind ⟨rfl, foldBinOps_ne_outOfFuel head tail⟩ fun _ _ => ⟨rfl, by simp [pure, Except.pure]⟩

/-- One token of several kinds. -/
theorem alt_step {p q : Parser α}
    (hp : ∀ ⦃input rest a⦄, p input = .ok (rest, a) → input.length = rest.length + 1)
    (hq : ∀ ⦃input rest a⦄, q input = .ok (rest, a) → input.length = rest.length + 1) :
    ∀ ⦃input rest a⦄, FeParser.alt p q input = .ok (rest, a) → input.length = rest.length + 1 := by
  intro input rest a h
  rcases alt_eq_ok.1 h with h | ⟨-, h⟩
  exacts [hp h, hq h]

/-- Six units of fuel per token, and six more, are never spent, and above that the levels
do not depend on the fuel: each level at `fuel` agrees with itself at `fuel + 1` on every
input within its bound. -/
theorem constParsers_agree (fuel : Nat) :
    ∀ n, (6 * n + 6 ≤ fuel → AgreeUpTo n (constExpr fuel) (constExpr (fuel + 1))) ∧
      (6 * n + 5 ≤ fuel → AgreeUpTo n (constTerm fuel) (constTerm (fuel + 1))) ∧
      (6 * n + 4 ≤ fuel → AgreeUpTo n (constFactor fuel) (constFactor (fuel + 1))) ∧
      (6 * n + 3 ≤ fuel → AgreeUpTo n (constPower fuel) (constPower (fuel + 1))) ∧
      (6 * n + 2 ≤ fuel → AgreeUpTo n (constAtom fuel) (constAtom (fuel + 1))) ∧
      (6 * n + 1 ≤ fuel → AgreeUpTo n (constGroup fuel) (constGroup (fuel + 1))) := by
  induction fuel with
  | zero => intro n; refine ⟨?_, ?_, ?_, ?_, ?_, ?_⟩ <;> intro h <;> omega
  | succ g ih =>
    intro n
    obtain ⟨sE, sT, sF, -, sA, -⟩ := constParsers_sound g
    have hop : ∀ {m : Nat} (k : TokenKind), AgreeUpTo m (token k) (token k) :=
      fun _ => agreeUpTo_tokenWith _
    refine ⟨fun h => ?_, fun h => ?_, fun h => ?_, fun h => ?_, fun h => ?_, fun h => ?_⟩
    · -- `const_expr`: a term, then `(+|-) term` pairs
      have hT := (ih n).2.1 (by omega)
      rw [constExpr_succ, constExpr_succ]
      exact hT.leftAssoc sT.length_le ((hT.tokenPair _).alt (hT.tokenPair _))
    · -- `const_term`: a factor, then `(*|/|%) factor` pairs
      have hF := (ih n).2.2.1 (by omega)
      rw [constTerm_succ, constTerm_succ]
      exact hF.leftAssoc sF.length_le ((hF.tokenPair _).alt ((hF.tokenPair _).alt (hF.tokenPair _)))
    · -- `const_factor`: a unary operator and a factor, or a power
      have hP := (ih n).2.2.2.1 (by omega)
      rw [constFactor, constFactor]
      refine AgreeUpTo.alt (fun input hi => ?_) hP
      refine ((((hop _).alt ((hop _).alt (hop _))).step
        (alt_step token_step' (alt_step token_step' token_step'))
        fun hn => (ih (n - 1)).2.2.1 (by omega)) input hi).bind fun _ _ =>
          ⟨rfl, unwrap_bind_ne_outOfFuel fun _ => by simp [pure, Except.pure]⟩
    · -- `const_power`: an atom, `**` and a factor, or an atom
      have hA := (ih n).2.2.2.2.1 (by omega)
      rw [constPower, constPower]
      exact (((hA.pair fun input rest _ hi h =>
        ((hop _).step token_step' fun hn => (ih (n - 1)).2.2.1 (by omega)) rest
          ((sA.length_le h).trans hi)).map _).map _).alt hA
    · -- `const_atom`: a group, a name or a number
      have hG := (ih n).2.2.2.2.2 (by omega)
      rw [constAtom, constAtom]
      exact hG.alt ((agreeUpTo_tokenWith _ |>.map _).alt (agreeUpTo_tokenWith _ |>.map _))
    · -- `const_group`: `(`, an expression, `)`
      rw [constGroup, constGroup]
      intro input hi
      refine (hop _ input hi).bind fun ⟨rest, _⟩ h => ?_
      have hlen := token_step' h
      refine ((ih (n - 1)).1 (by omega) rest (by omega)).bind fun ⟨rest', _⟩ _ =>
        (hop _ rest' (le_refl _)).bind fun _ _ => ⟨rfl, by simp [pure, Except.pure]⟩

/-- `const_expr` on `ts` with six units of fuel per token and six more: the fuel is never
spent, and more fuel gives the same result. -/
theorem constExpr_fuel_enough {ts : List Token} {fuel : Nat} (h : 6 * ts.length + 6 ≤ fuel) :
    constExpr fuel ts ≠ .error .outOfFuel ∧
      constExpr fuel ts = constExpr (6 * ts.length + 6) ts := by
  obtain ⟨j, rfl⟩ := Nat.exists_eq_add_of_le h
  induction j with
  | zero => exact ⟨((constParsers_agree _ ts.length).1 le_rfl ts le_rfl).2, rfl⟩
  | succ j ih =>
    have hstep := (constParsers_agree (6 * ts.length + 6 + j) ts.length).1 (by omega) ts le_rfl
    rw [← Nat.add_assoc, ← hstep.1]
    exact ih (by omega)

end Fuel

/-! ### The iterated parsers -/

section Iterated

/-- `alt` of two parsers that consume consumes. -/
theorem Consumes.alt {p q : Parser α} (hp : Consumes p) (hq : Consumes q) :
    Consumes (FeParser.alt p q) := fun _ _ _ h => by
  rcases alt_eq_ok.1 h with h | ⟨-, h⟩
  exacts [hp h, hq h]

/-- A sequence consumes where its first parser does and its second returns a suffix. -/
theorem Consumes.pair {p : Parser α} {q : Parser β} (hp : Consumes p)
    (hq : ∀ ⦃input rest b⦄, q input = .ok (rest, b) → rest.length ≤ input.length) :
    Consumes (FeParser.pair p q) := fun _ _ x h => by
  obtain ⟨mid, h₁, h₂⟩ := pair_eq_ok.1 h
  exact lt_of_le_of_lt (hq h₂) (hp h₁)

/-- `token(kind)` consumes its token. -/
theorem consumes_token (k : TokenKind) : Consumes (token k) := fun _ _ _ h => by
  rw [token_step' h]
  exact Nat.lt_succ_self _

/-- The loop item of `const_expr` consumes its operator and more. -/
theorem consumes_sumItem (fuel : Nat) : Consumes (sumItem fuel) :=
  have hT := (constParsers_sound fuel).2.1.length_le
  ((consumes_token _).pair hT).alt ((consumes_token _).pair hT)

/-- The loop item of `const_term` consumes its operator and more. -/
theorem consumes_productItem (fuel : Nat) : Consumes (productItem fuel) :=
  have hF := (constParsers_sound fuel).2.2.1.length_le
  ((consumes_token _).pair hF).alt (((consumes_token _).pair hF).alt ((consumes_token _).pair hF))

/-- A separator token, then a sound parser. -/
theorem consumes_preceded {q : Parser α} {Q : List Token → α → Prop} (k : TokenKind)
    (hq : SoundFor q Q) : Consumes (preceded (token k) q) := fun _ _ _ h => by
  obtain ⟨x, hx, rfl⟩ := map_eq_ok.1 h
  exact (consumes_token k).pair hq.length_le hx

end Iterated

/-! ### Termination -/

/-- `const_expr` terminates on every token slice: with six units of fuel per token and six
more the model's fuel is never spent, and more fuel changes nothing, since each cycle of its
recursion reads a token before it comes back. Every parser that `many0` or `many1` iterates
consumes a token whenever it succeeds: the `(operator, operand)` pairs at every fuel,
`module_stmt`, `contract_stmt`, `event_field`, `("," name)` in both import lists, `("."
NAME)` and `"." | "..."`; and with such an item the no-progress guard never fires, so a
`many0` loop never fails and a `many1` loop fails only where its first item does. -/
theorem parsers_terminate :
    (∀ ts fuel, 6 * ts.length + 6 ≤ fuel →
      constExpr fuel ts ≠ .error .outOfFuel ∧
        constExpr fuel ts = constExpr (6 * ts.length + 6) ts) ∧
    (∀ fuel, Consumes (sumItem fuel) ∧ Consumes (productItem fuel)) ∧
    Consumes moduleStmt ∧ Consumes contractStmt ∧ Consumes eventField ∧
    Consumes (preceded (token (.punct .comma)) fromImportName) ∧
    Consumes (preceded (token (.punct .comma)) simpleImportName) ∧
    Consumes (preceded (token (.punct .dot)) nameToken) ∧
    Consumes (alt (token (.punct .dot)) (token (.punct .ellipsis))) ∧
    (∀ {α : Type} {f : Parser α}, Consumes f →
      ∀ input, ¬ Fails (many0 f input) ∧ (Fails (many1 f input) → Fails (f input))) :=
  ⟨fun _ _ h => constExpr_fuel_enough h,
    fun fuel => ⟨consumes_sumItem fuel, consumes_productItem fuel⟩,
    moduleStmt_sound.consumes fun _ _ h => by
      cases h with
      | «import» h => cases h <;> simp
      | contract h => cases h; simp,
    eventDef_sound.consumes fun _ _ h => by cases h; simp,
    eventField_sound.consumes fun _ _ h => by cases h; simp,
    consumes_preceded _ fromImportName_sound, consumes_preceded _ simpleImportName_sound,
    consumes_preceded _ (tokenWith_sound _), (consumes_token _).alt (consumes_token _),
    fun hf input => ⟨many0_not_fails hf input, many1_fails_of_consumes hf⟩⟩

end FeParser
