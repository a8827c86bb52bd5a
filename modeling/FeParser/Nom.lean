import FeParser.Token

/-!
# Parser combinators

The parsers of `parsers.rs` are built from nom's combinators over token slices. This module
models the ones they use: a parser takes the remaining tokens and returns the tokens left
after it together with its output, or an `Err`.

nom's `Err` has three variants. `Incomplete` belongs to streaming input and never arises
on a token slice. `Error` is the recoverable failure that `alt`, `opt` and `many0` catch and
backtrack over. `Failure` is never raised by these parsers; its place is taken by the two
ways a run of the model stops that no combinator catches: a Rust `panic` (an `unwrap` of
`None` or `Err`) and `outOfFuel`, the budget of the fuelled constant-expression parser
(`FeParser.ConstExpr`). The error value is nom's default `(I, ErrorKind)`: the input the
failing parser was given and the kind of check that failed. nom's `alt` reports the error of
its last alternative (`(I, ErrorKind)` ignores `append`), which is what `alt` does here.

`many0` and `many1` stop with an error when an iteration consumes nothing (nom's test
`i1 == i`). Every parser here returns a suffix of its input, and on suffixes that test is
`¬ i1.length < i.length` (a suffix of the same length is the list itself), which is how the
loop is written; the length of the input bounds the number of iterations, so `manyLoop` is
structurally recursive on that bound.

## Main results

* one characterisation of success per combinator (`token_eq_ok`, `alt_eq_ok`,
  `opt_eq_ok`, `pair_eq_ok`, …), so that later proofs never unfold a combinator;
* `many0_eq`, the unfolding of the `many0` loop by one iteration.
-/

namespace FeParser

/-- nom's `ErrorKind`, for the checks these parsers make. -/
inductive ErrorKind where
  | eof
  | verify
  | many0
  | many1
deriving DecidableEq, Repr

/-- nom's default error `(I, ErrorKind)`: where the failing parser stood, and why. -/
structure ParseError where
  input : List Token
  code : ErrorKind
deriving DecidableEq, Repr

/-- How a parser stops without a result. -/
inductive Err where
  | error (e : ParseError)
  | panic (msg : String)
  | outOfFuel
deriving DecidableEq, Repr

/-- A parser over token slices: nom's `IResult` is the `Except` it returns. -/
abbrev Parser (α : Type) := List Token → Except Err (List Token × α)

variable {α β γ : Type}

/-- A parser `Fails` on an input when it stops with a recoverable `Error`. -/
def Fails (r : Except Err (List Token × α)) : Prop := ∃ e, r = .error (.error e)

/-! ### Success of a sequence -/

/-- A sequence fails with a recoverable error exactly when its first step does, or the first step
succeeds and the rest does. -/
theorem bind_fails {x : Except Err α} {f : α → Except Err β} :
    (∃ e, x >>= f = .error (.error e)) ↔
      (∃ e, x = .error (.error e)) ∨ ∃ a, x = .ok a ∧ ∃ e, f a = .error (.error e) := by
  cases x <;> simp [bind, Except.bind]

/-! ### Single tokens -/

/-- `one_token`: the next token, or an `Eof` error on an empty slice. -/
def oneToken : Parser Token
  | [] => .error (.error ⟨[], .eof⟩)
  | t :: ts => .ok (ts, t)

/-- nom's `verify`: run `p` and keep its result only if `cond` holds of it. -/
def verify (p : Parser α) (cond : α → Bool) : Parser α := fun input =>
  match p input with
  | .ok (rest, o) => if cond o then .ok (rest, o) else .error (.error ⟨input, .verify⟩)
  | .error e => .error e

/-- A single token satisfying `cond`: every token parser below is one of these. -/
def tokenWith (cond : Token → Bool) : Parser Token := verify oneToken cond

/-- `token(kind)`. -/
def token (kind : TokenKind) : Parser Token := tokenWith (·.kind == kind)

/-- `name_token`. -/
def nameToken : Parser Token := tokenWith (·.kind.isName)

/-- `name_string(string)`: a name token whose symbol is `string`, a contextual keyword. -/
def nameString (string : String) : Parser Token := tokenWith (·.kind == .name string)

/-- `num_token`. -/
def numToken : Parser Token := tokenWith (·.kind == .num)

/-- `indent_token`. -/
def indentToken : Parser Token := token .indent

/-- `dedent_token`. -/
def dedentToken : Parser Token := token .dedent

/-- `newline_token`. -/
def newlineToken : Parser Token := token .newline

/-- `endmarker_token`. -/
def endmarkerToken : Parser Token := token .endMarker

/-- `one_token` with a check reads the first token if it passes the check, and fails with `Verify`
at that token otherwise. -/
theorem tokenWith_cons_eq {cond : Token → Bool} {t : Token} {ts : List Token} :
    tokenWith cond (t :: ts) =
      if cond t then .ok (ts, t) else .error (.error ⟨t :: ts, .verify⟩) := rfl

/-- A token parser succeeds exactly by reading a first token that passes its check. -/
theorem tokenWith_eq_ok {cond : Token → Bool} {input rest : List Token} {t : Token} :
    tokenWith cond input = .ok (rest, t) ↔ input = t :: rest ∧ cond t = true := by
  cases input with
  | nil => simp [tokenWith, verify, oneToken]
  | cons u us =>
    rw [tokenWith_cons_eq]
    by_cases h : cond u = true
    · simp only [h, ite_true, Except.ok.injEq, Prod.mk.injEq, List.cons.injEq]
      constructor
      · rintro ⟨rfl, rfl⟩; exact ⟨⟨rfl, rfl⟩, h⟩
      · rintro ⟨⟨rfl, rfl⟩, -⟩; exact ⟨rfl, rfl⟩
    · rw [if_neg h]
      simp only [reduceCtorEq, false_iff, not_and, List.cons.injEq]
      rintro ⟨rfl, rfl⟩
      exact h

/-- A token parser fails exactly where the first token, if any, does not pass its check. -/
theorem tokenWith_fails {cond : Token → Bool} {input : List Token} :
    Fails (tokenWith cond input) ↔ ∀ t ∈ input.head?, cond t = false := by
  cases input with
  | nil => simp [Fails, tokenWith, verify, oneToken]
  | cons u us => by_cases h : cond u <;> simp [Fails, tokenWith_cons_eq, h]

/-- A first token that passes the check is read. -/
theorem tokenWith_cons {cond : Token → Bool} {t : Token} {ts : List Token}
    (h : cond t = true) : tokenWith cond (t :: ts) = .ok (ts, t) :=
  tokenWith_eq_ok.2 ⟨rfl, h⟩

/-- `token(kind)` reads a first token of that kind. -/
theorem token_cons {kind : TokenKind} {t : Token} {ts : List Token} (h : t.kind = kind) :
    token kind (t :: ts) = .ok (ts, t) :=
  tokenWith_cons (by simpa using h)

/-- `name_token` reads a first token that is a name. -/
theorem nameToken_cons {t : Token} {ts : List Token} (h : t.kind.isName = true) :
    nameToken (t :: ts) = .ok (ts, t) :=
  tokenWith_cons h

/-- `name_string(string)` reads a first name token with that text. -/
theorem nameString_cons {string : String} {t : Token} {ts : List Token}
    (h : t.kind = .name string) : nameString string (t :: ts) = .ok (ts, t) :=
  tokenWith_cons (by simpa using h)

/-- `token(kind)` fails where the first token, if any, is of another kind. -/
theorem token_fails {kind : TokenKind} {input : List Token}
    (h : ∀ t ∈ input.head?, t.kind ≠ kind) : Fails (token kind input) :=
  tokenWith_fails.2 fun t ht => by simpa using h t ht

/-! ### Choice and repetition -/

/-- nom's `alt((p, q))`: `q` on the same input when `p` fails with an `Error`. A longer
`alt` is a right-nested one; with `(I, ErrorKind)` errors the two agree. -/
def alt (p q : Parser α) : Parser α := fun input =>
  match p input with
  | .error (.error _) => q input
  | r => r

/-- nom's `opt`. -/
def opt (p : Parser α) : Parser (Option α) := fun input =>
  match p input with
  | .ok (rest, o) => .ok (rest, some o)
  | .error (.error _) => .ok (input, none)
  | .error e => .error e

/-- nom's `map`. -/
def map (p : Parser α) (f : α → β) : Parser β := fun input =>
  match p input with
  | .ok (rest, o) => .ok (rest, f o)
  | .error e => .error e

/-- nom's `pair`. -/
def pair (p : Parser α) (q : Parser β) : Parser (α × β) := fun input =>
  match p input with
  | .ok (rest, a) =>
    match q rest with
    | .ok (rest', b) => .ok (rest', (a, b))
    | .error e => .error e
  | .error e => .error e

/-- nom's `preceded`. -/
def preceded (p : Parser α) (q : Parser β) : Parser β := map (pair p q) Prod.snd

/-- nom's `terminated`. -/
def terminated (p : Parser α) (q : Parser β) : Parser α := map (pair p q) Prod.fst

/-- nom's `separated_pair`. -/
def separatedPair (p : Parser α) (sep : Parser β) (q : Parser γ) : Parser (α × γ) :=
  map (pair p (pair sep q)) fun (a, _, c) => (a, c)

/-- The loop of nom's `many0` and `many1`: apply `f` until it fails with an `Error`,
collecting its outputs; stop with `code` when an iteration consumes nothing. The bound is
never reached from `many0`, which starts it at the input's length plus one. -/
def manyLoop (code : ErrorKind) (f : Parser α) : Nat → Parser (List α)
  | 0 => fun input => .ok (input, [])
  | n + 1 => fun input =>
    match f input with
    | .error (.error _) => .ok (input, [])
    | .error e => .error e
    | .ok (rest, o) =>
      if rest.length < input.length then
        map (manyLoop code f n) (o :: ·) rest
      else .error (.error ⟨input, code⟩)

/-- nom's `many0`. -/
def many0 (f : Parser α) : Parser (List α) := fun input =>
  manyLoop .many0 f (input.length + 1) input

/-- nom's `many1`: its output is never empty, which the type records. -/
def many1 (f : Parser α) : Parser {l : List α // l ≠ []} := fun input =>
  match f input with
  | .ok (rest, o) =>
    map (manyLoop .many1 f (rest.length + 1)) (fun os => ⟨o :: os, List.cons_ne_nil _ _⟩) rest
  | .error e => .error e

/-! ### Characterisations -/

/-- `alt` succeeds with the first alternative's result, or, where the first fails, with the
second's. -/
theorem alt_eq_ok {p q : Parser α} {input : List Token} {r : List Token × α} :
    alt p q input = .ok r ↔ p input = .ok r ∨ Fails (p input) ∧ q input = .ok r := by
  unfold alt Fails
  split <;> simp_all

/-- Where the first alternative fails, `alt` is the second. -/
theorem alt_of_fails {p q : Parser α} {input : List Token} (h : Fails (p input)) :
    alt p q input = q input := by
  obtain ⟨e, he⟩ := h
  simp [alt, he]

/-- Where the first alternative succeeds, `alt` returns its result. -/
theorem alt_of_ok {p q : Parser α} {input : List Token} {r : List Token × α}
    (h : p input = .ok r) : alt p q input = .ok r := by
  simp [alt, h]

/-- `alt` fails exactly where both alternatives do. -/
theorem alt_fails {p q : Parser α} {input : List Token} :
    Fails (alt p q input) ↔ Fails (p input) ∧ Fails (q input) := by
  unfold alt Fails
  split <;> simp_all

/-- `map` succeeds exactly where its parser does, with the function applied to the output. -/
theorem map_eq_ok {p : Parser α} {f : α → β} {input rest : List Token} {b : β} :
    map p f input = .ok (rest, b) ↔ ∃ a, p input = .ok (rest, a) ∧ f a = b := by
  unfold map
  split
  · simp only [Except.ok.injEq, Prod.mk.injEq, *]
    constructor
    · rintro ⟨rfl, rfl⟩; exact ⟨_, ⟨rfl, rfl⟩, rfl⟩
    · rintro ⟨a, ⟨rfl, rfl⟩, rfl⟩; exact ⟨rfl, rfl⟩
  · simp_all

/-- `map` fails exactly where its parser does. -/
theorem map_fails {p : Parser α} {f : α → β} {input : List Token} :
    Fails (map p f input) ↔ Fails (p input) := by
  unfold map Fails
  split <;> simp_all

/-- A success of the parser is a success of `map`, with the function applied. -/
theorem map_of_ok {p : Parser α} {f : α → β} {input rest : List Token} {a : α}
    (h : p input = .ok (rest, a)) : map p f input = .ok (rest, f a) := by
  simp [map, h]

/-- `pair` succeeds exactly where the first parser succeeds and the second succeeds on what it
leaves. -/
theorem pair_eq_ok {p : Parser α} {q : Parser β} {input rest : List Token} {a : α} {b : β} :
    pair p q input = .ok (rest, (a, b)) ↔
      ∃ mid, p input = .ok (mid, a) ∧ q mid = .ok (rest, b) := by
  unfold pair
  rcases hp : p input with e | ⟨mid, a'⟩
  · simp
  · rcases hq : q mid with e | ⟨rest', b'⟩ <;> simp [hq]
    aesop

/-- `pair` fails exactly where the first parser fails, or the first succeeds and the second fails on
what it leaves. -/
theorem pair_fails {p : Parser α} {q : Parser β} {input : List Token} :
    Fails (pair p q input) ↔
      Fails (p input) ∨ ∃ mid a, p input = .ok (mid, a) ∧ Fails (q mid) := by
  unfold pair Fails
  rcases p input with e | ⟨mid, a⟩
  · simp
  · rcases hq : q mid with e | ⟨rest, b⟩ <;> simp [hq]

/-- `opt` returns the parser's output where the parser succeeds, and `None` with the input untouched
where it fails. -/
theorem opt_eq_ok {p : Parser α} {input rest : List Token} {o : Option α} :
    opt p input = .ok (rest, o) ↔
      (∃ a, p input = .ok (rest, a) ∧ o = some a) ∨ Fails (p input) ∧ rest = input ∧ o = none := by
  unfold opt Fails
  rcases hp : p input with (e | _ | _) | ⟨mid, a⟩ <;> simp
  · aesop
  · aesop

/-- Where the parser fails, `opt` returns `None` and consumes nothing. -/
theorem opt_of_fails {p : Parser α} {input : List Token} (h : Fails (p input)) :
    opt p input = .ok (input, none) := by
  obtain ⟨e, he⟩ := h
  simp [opt, he]

/-- Where the parser succeeds, `opt` returns its output. -/
theorem opt_of_ok {p : Parser α} {input rest : List Token} {a : α}
    (h : p input = .ok (rest, a)) : opt p input = .ok (rest, some a) := by
  simp [opt, h]

/-! ### The `many` loop -/

/-- The loop gives the same result under any two bounds above the input's length. -/
theorem manyLoop_congr {code : ErrorKind} {f : Parser α} :
    ∀ {n m : Nat} {input : List Token}, input.length < n → input.length < m →
      manyLoop code f n input = manyLoop code f m input := by
  intro n
  induction n with
  | zero => intro m input h; omega
  | succ n ih =>
    intro m input hn hm
    obtain ⟨m, rfl⟩ : ∃ m', m = m' + 1 := ⟨m - 1, by omega⟩
    simp only [manyLoop]
    split
    all_goals try rfl
    split
    · rename_i rest o _ hlt
      simp only [map, ih (m := m) (show rest.length < n by omega) (by omega)]
    · rfl

/-- One iteration of the loop, with the bound hidden. -/
theorem manyLoop_eq (code : ErrorKind) (f : Parser α) (input : List Token) :
    manyLoop code f (input.length + 1) input =
      match f input with
      | .error (.error _) => .ok (input, [])
      | .error e => .error e
      | .ok (rest, o) =>
        if rest.length < input.length then
          map (manyLoop code f (rest.length + 1)) (o :: ·) rest
        else .error (.error ⟨input, code⟩) := by
  rw [manyLoop]
  dsimp only
  split
  all_goals try rfl
  split
  · rename_i rest o _ hlt
    simp only [map, manyLoop_congr hlt (show rest.length < rest.length + 1 by omega)]
  · rfl

/-- Mapping twice is mapping by the composite, on the input where the first map was taken. -/
theorem map_map_of_eq {p : Parser α} {f g : α → α} {x y : List Token}
    (h : p x = map p f y) : map p g x = map p (g ∘ f) y := by
  rcases hy : p y with e | ⟨r, o⟩ <;> simp [map, h, hy]

/-- Prepending the empty list to the output changes nothing. -/
theorem map_nil_append (p : Parser (List α)) (input : List Token) :
    map p ([] ++ ·) input = p input := by
  simp only [map, List.nil_append]
  split <;> simp_all

/-- `many0` unfolded by one iteration: stop where `f` fails, fail where `f` consumes nothing, and
otherwise go on with the output consed on. -/
theorem many0_eq (f : Parser α) (input : List Token) :
    many0 f input =
      match f input with
      | .error (.error _) => .ok (input, [])
      | .error e => .error e
      | .ok (rest, o) =>
        if rest.length < input.length then map (many0 f) (o :: ·) rest
        else .error (.error ⟨input, .many0⟩) :=
  manyLoop_eq .many0 f input

/-- An iteration that consumes something, then the rest of the loop. -/
theorem many0_cons {f : Parser α} {input rest : List Token} {x : α}
    (h : f input = .ok (rest, x)) (hlt : rest.length < input.length) :
    many0 f input = map (many0 f) (x :: ·) rest := by
  rw [many0_eq, h]
  exact if_pos hlt

/-- The loop stops, consuming nothing, where `f` fails. -/
theorem many0_of_fails {f : Parser α} {input : List Token} (h : Fails (f input)) :
    many0 f input = .ok (input, []) := by
  obtain ⟨e, he⟩ := h
  rw [many0_eq, he]

end FeParser
