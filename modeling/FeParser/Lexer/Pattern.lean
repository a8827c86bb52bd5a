import FeParser.Lexer.Text

/-!
# The lexer's patterns

Modelled from the spec: `tokenizer/regex.rs` is not part of the sources at hand. The spec
describes the pseudo-token pattern as one anchored alternation of a whitespace prefix, a
numeric literal, a string literal (prefix letters from `bBrRuUfF`, then `"""`, `'''`, `"` or
`'`), an identifier, a line terminator, a comment, a multi-character operator and a single
character operator or punctuation. Its table is that of Python's `tokenize` module, and so
are the alternatives below, in its order:

```
PseudoToken  = Whitespace ( PseudoExtras | Number | Funny | ContStr | Name )
PseudoExtras = \\\r?\n | \z | Comment | Triple
```

Each pattern is a function returning the number of characters it matches at the start of a
text, or `none`; an alternation takes its first alternative that matches, as Rust's `regex`
does. Where a pattern could backtrack into a shorter match, the characters that follow the
shorter match rule the continuation out, so the greedy match is the match.

Outside ASCII, `\w` (the identifier pattern) is modelled by the letters of the Latin-1
Supplement, Latin Extended, Greek, Cyrillic and CJK blocks.

## Main definitions

* `pseudoToken`: `pseudo_token_re.captures(&line[line_pos..])`, the byte offsets in the slice
  where the captured token starts and ends.
* `Closing.find`: the search of a closing-delimiter pattern from a byte offset.
* `IsTripleQuoted`, `IsSingleQuoted`: membership in `get_triple_quote_set()` and
  `get_single_quote_set()`.
-/

namespace FeParser

namespace Pattern

/-! ### Character classes -/

/-- `[ \f\t]`. -/
def isWhitespace (c : Char) : Bool := c = ' ' || c = '\x0c' || c = '\t'

/-- Modelled from the spec: `\w`. -/
def isWordChar (c : Char) : Bool :=
  c.isAlphanum || c = '_' ||
    (0xC0 ≤ c.toNat && c.toNat ≤ 0x2AF && c.toNat != 0xD7 && c.toNat != 0xF7) ||
    (0x370 ≤ c.toNat && c.toNat ≤ 0x52F) || (0x4E00 ≤ c.toNat && c.toNat ≤ 0x9FFF)

/-! ### Numbers -/

/-- `(?:_?[class])*`: characters of a class, single underscores between them. -/
def underscored (p : Char → Bool) : List Char → Nat
  | '_' :: c :: cs => if p c then 2 + underscored p cs else 0
  | c :: cs => if p c then 1 + underscored p cs else 0
  | [] => 0

/-- `[class](?:_?[class])*`. -/
def digitsOf (p : Char → Bool) : List Char → Option Nat
  | c :: cs => if p c then some (1 + underscored p cs) else none
  | [] => none

/-- `[0-9](?:_?[0-9])*`. -/
def digitPart (cs : List Char) : Option Nat := digitsOf Char.isDigit cs

/-- `[eE][-+]?[0-9](?:_?[0-9])*`. -/
def exponent : List Char → Option Nat
  | e :: s :: cs =>
    if e = 'e' || e = 'E' then
      if s = '-' || s = '+' then (digitPart cs).map (· + 2) else (digitPart (s :: cs)).map (· + 1)
    else none
  | _ => none

/-- `(?:[0-9](?:_?[0-9])*\.(?:[0-9](?:_?[0-9])*)? | \.[0-9](?:_?[0-9])*)` then an optional
exponent. -/
def pointFloat (cs : List Char) : Option Nat :=
  let base : Option Nat :=
    match digitPart cs with
    | some n =>
      if (cs.drop n).head? = some '.' then some (n + 1 + ((digitPart (cs.drop (n + 1))).getD 0))
      else none
    | none => if cs.head? = some '.' then (digitPart cs.tail).map (· + 1) else none
  base.map fun n => n + ((exponent (cs.drop n)).getD 0)

/-- `[0-9](?:_?[0-9])*` then an exponent. -/
def expFloat (cs : List Char) : Option Nat :=
  (digitPart cs).bind fun n => (exponent (cs.drop n)).map (n + ·)

/-- `Floatnumber = Pointfloat | Expfloat`. -/
def floatNumber (cs : List Char) : Option Nat := pointFloat cs <|> expFloat cs

/-- A match followed by `[jJ]`. -/
def imaginary (m : Option Nat) (cs : List Char) : Option Nat :=
  m.bind fun n => if (cs.drop n).head? ∈ [some 'j', some 'J'] then some (n + 1) else none

/-- `0[xX](?:_?[0-9a-fA-F])+`, `0[bB](?:_?[01])+` and `0[oO](?:_?[0-7])+`: a radix marker
and at least one digit. -/
def radixNumber (markers : List Char) (p : Char → Bool) : List Char → Option Nat
  | '0' :: m :: cs =>
    if m ∈ markers then
      let n := underscored p cs
      if n = 0 then none else some (2 + n)
    else none
  | _ => none

/-- `0(?:_?0)* | [1-9](?:_?[0-9])*`. -/
def decNumber : List Char → Option Nat
  | '0' :: cs => some (1 + underscored (· = '0') cs)
  | c :: cs => if c.isDigit then some (1 + underscored Char.isDigit cs) else none
  | [] => none

/-- `Intnumber = Hexnumber | Binnumber | Octnumber | Decnumber`. -/
def intNumber (cs : List Char) : Option Nat :=
  radixNumber ['x', 'X'] (fun c => c.isDigit || ('a' ≤ c && c ≤ 'f') || ('A' ≤ c && c ≤ 'F')) cs <|>
    radixNumber ['b', 'B'] (fun c => c = '0' || c = '1') cs <|>
    radixNumber ['o', 'O'] (fun c => '0' ≤ c && c ≤ '7') cs <|> decNumber cs

/-- `Number = Imagnumber | Floatnumber | Intnumber`. -/
def number (cs : List Char) : Option Nat :=
  imaginary (digitPart cs) cs <|> imaginary (floatNumber cs) cs <|> floatNumber cs <|>
    intNumber cs

/-! ### Operators -/

/-- `Operator = \*\*=? | >>=? | <<=? | != | //=? | -> | [+\-*/%&@|^=<>]=? | ~`. -/
def operator : List Char → Option Nat
  | '*' :: '*' :: cs => some (if cs.head? = some '=' then 3 else 2)
  | '>' :: '>' :: cs => some (if cs.head? = some '=' then 3 else 2)
  | '<' :: '<' :: cs => some (if cs.head? = some '=' then 3 else 2)
  | '!' :: '=' :: _ => some 2
  | '/' :: '/' :: cs => some (if cs.head? = some '=' then 3 else 2)
  | '-' :: '>' :: _ => some 2
  | c :: cs =>
    if c ∈ ['+', '-', '*', '/', '%', '&', '@', '|', '^', '=', '<', '>'] then
      some (if cs.head? = some '=' then 2 else 1)
    else if c = '~' then some 1
    else none
  | [] => none

/-- `Bracket = [][(){}]`. -/
def bracket : List Char → Option Nat
  | c :: _ => if c ∈ ['(', ')', '[', ']', '\x7b', '\x7d'] then some 1 else none
  | [] => none

/-- `Special = \r?\n | \.\.\. | [:;.,@]`. -/
def special : List Char → Option Nat
  | '\r' :: '\n' :: _ => some 2
  | '\n' :: _ => some 1
  | '.' :: '.' :: '.' :: _ => some 3
  | c :: _ => if c ∈ [':', ';', '.', ',', '@'] then some 1 else none
  | [] => none

/-- `Funny = Operator | Bracket | Special`. -/
def funny (cs : List Char) : Option Nat := operator cs <|> bracket cs <|> special cs

/-! ### Strings -/

/-- A string prefix: one of `b`, `r`, `u`, `f`, `br`, `rb`, `fr`, `rf`, in either case. -/
def IsStringPrefix (cs : List Char) : Bool :=
  (cs.map Char.toLower) ∈ [[], ['b'], ['r'], ['u'], ['f'], ['b', 'r'], ['r', 'b'], ['f', 'r'],
    ['r', 'f']]

/-- The length of the string prefix in front of a quote, and the quote. -/
def stringOpening (cs : List Char) : Option (Nat × Char) :=
  [0, 1, 2].findSome? fun p =>
    match cs.drop p with
    | q :: _ => if (q = '\'' || q = '"') && IsStringPrefix (cs.take p) then some (p, q) else none
    | [] => none

/-- `Triple = StringPrefix ''' | StringPrefix """`. -/
def triple (cs : List Char) : Option Nat :=
  (stringOpening cs).bind fun (p, q) =>
    if (cs.drop p).take 3 = [q, q, q] then some (p + 3) else none

/-- The rest of a single-quoted string after its opening quote `q`, up to its closing quote
or a backslash-newline: `[^\n q\\]*(?:\\.[^\n q\\]*)*(q|\\\r?\n)`. -/
def contStrBody (q : Char) : List Char → Option Nat
  | [] => none
  | c :: cs =>
    if c = q then some 1
    else if c = '\n' then none
    else if c = '\\' then
      match cs with
      | '\n' :: _ => some 2
      | '\r' :: '\n' :: _ => some 3
      | _ :: ds => (contStrBody q ds).map (· + 2)
      | [] => none
    else (contStrBody q cs).map (· + 1)

/-- `ContStr`: a single-quoted string, closed or continued by a backslash-newline. -/
def contStr (cs : List Char) : Option Nat :=
  (stringOpening cs).bind fun (p, q) => (contStrBody q (cs.drop (p + 1))).map (p + 1 + ·)

/-! ### The pseudo-token -/

/-- `Comment = #[^\r\n]*`. -/
def comment : List Char → Option Nat
  | '#' :: cs => some (1 + (cs.takeWhile fun c => c != '\r' && c != '\n').length)
  | _ => none

/-- `PseudoExtras = \\\r?\n | \z | Comment | Triple`. -/
def pseudoExtras : List Char → Option Nat
  | '\\' :: '\n' :: _ => some 2
  | '\\' :: '\r' :: '\n' :: _ => some 3
  | [] => some 0
  | cs => comment cs <|> triple cs

/-- `Name = \w+`. -/
def name (cs : List Char) : Option Nat :=
  match (cs.takeWhile isWordChar).length with
  | 0 => none
  | n => some n

/-- The captured token at the start of a text, as a number of characters. -/
def token (cs : List Char) : Option Nat :=
  pseudoExtras cs <|> number cs <|> funny cs <|> contStr cs <|> name cs

/-- `pseudo_token_re.captures(text)`: the byte offsets of the start and the end of the captured
token, after the whitespace prefix. -/
def pseudoToken (cs : List Char) : Option (Nat × Nat) :=
  let ws := cs.takeWhile isWhitespace
  let rest := cs.dropWhile isWhitespace
  (token rest).map fun n => (utf8Len ws, utf8Len ws + utf8Len (rest.take n))

/-- The end-of-text alternative matches the empty text. -/
@[simp] theorem pseudoToken_nil : pseudoToken [] = some (0, 0) := rfl

/-- A match is a whitespace prefix and then the captured token, both read off the text. -/
theorem pseudoToken_eq_some {cs : List Char} {a b : Nat} (h : pseudoToken cs = some (a, b)) :
    ∃ ws rest n, cs = ws ++ rest ∧ (∀ c ∈ ws, isWhitespace c) ∧ token rest = some n ∧
      a = utf8Len ws ∧ b = utf8Len ws + utf8Len (rest.take n) := by
  simp only [pseudoToken, Option.map_eq_some', Prod.mk.injEq] at h
  obtain ⟨n, hn, rfl, rfl⟩ := h
  exact ⟨_, _, n, (List.takeWhile_append_dropWhile _ _).symm, fun _ => List.mem_takeWhile_imp, hn,
    rfl, rfl⟩

/-- No string opens with a backslash: a prefix is letters, and the quote comes after it. -/
theorem stringOpening_backslash (cs : List Char) : stringOpening ('\\' :: cs) = none := by
  match cs with
  | [] => rfl
  | [_] => simp [stringOpening, List.findSome?, IsStringPrefix]
  | _ :: _ :: _ => simp [stringOpening, List.findSome?, IsStringPrefix]

/-- The only tokens that start with a backslash are the line continuations `\\\n` and
`\\\r\n`. -/
theorem token_backslash {cs : List Char} {n : Nat} (h : token ('\\' :: cs) = some n) :
    ('\\' :: cs).take n = ['\\', '\n'] ∨ ('\\' :: cs).take n = ['\\', '\r', '\n'] := by
  have hso := stringOpening_backslash cs
  have hrest : (number ('\\' :: cs) <|> funny ('\\' :: cs) <|> contStr ('\\' :: cs) <|>
      name ('\\' :: cs)) = none := by
    -- every alternative but the string fails on the backslash alone
    rw [show contStr ('\\' :: cs) = none by simp [contStr, hso]]
    rfl
  rw [token, hrest, Option.orElse_none] at h
  unfold pseudoExtras at h
  split at h
  · cases h; simp_all
  · cases h; simp_all
  · simp_all
  · simp [comment, triple, hso] at h

/-! ### Every match reads a character -/

/-- A match of a pattern, if any, reads at least one character. -/
def PosMatch (o : Option Nat) : Prop := ∀ n, o = some n → 0 < n

/-- The first of two alternatives that matches reads a character when each of them does. -/
theorem PosMatch.orElse {a b : Option Nat} (ha : PosMatch a) (hb : PosMatch b) :
    PosMatch (a <|> b) := by
  cases a with
  | none => exact hb
  | some m => exact ha

/-- A match whose length is positive whatever it found reads a character. -/
theorem posMatch_map {α : Type} {o : Option α} {f : α → Nat} (hf : ∀ a, 0 < f a) :
    PosMatch (o.map f) := by
  intro n h
  obtain ⟨a, -, rfl⟩ := Option.map_eq_some'.1 h
  exact hf a

/-- A run of digits, when there is one, has at least one digit. -/
theorem posMatch_digitsOf (p : Char → Bool) : ∀ cs, PosMatch (digitsOf p cs)
  | [] => fun _ h => by cases h
  | c :: cs => by
    intro n h
    simp only [digitsOf] at h
    split at h <;> cases h
    omega

/-- A `Pointfloat` match reads at least the point. -/
theorem posMatch_pointFloat (cs : List Char) : PosMatch (pointFloat cs) := by
  intro n h
  simp only [pointFloat, Option.map_eq_some'] at h
  obtain ⟨m, hm, rfl⟩ := h
  suffices 0 < m by omega
  split at hm
  · split_ifs at hm
    cases hm
    omega
  · split_ifs at hm
    exact posMatch_map (fun _ => by omega) m hm

/-- An `Expfloat` match reads at least its digits and exponent. -/
theorem posMatch_expFloat (cs : List Char) : PosMatch (expFloat cs) := by
  intro n h
  obtain ⟨m, hm, h⟩ := Option.bind_eq_some.1 h
  obtain ⟨k, -, rfl⟩ := Option.map_eq_some'.1 h
  have := posMatch_digitsOf _ cs m hm
  omega

/-- An `Imagnumber` match reads at least the `j` or `J` after its number. -/
theorem posMatch_imaginary (m : Option Nat) (cs : List Char) : PosMatch (imaginary m cs) := by
  intro n h
  obtain ⟨k, -, h⟩ := Option.bind_eq_some.1 h
  split_ifs at h
  cases h
  omega

/-- A `Hexnumber`, `Binnumber` or `Octnumber` match reads at least its `0` and marker. -/
theorem posMatch_radixNumber (markers : List Char) (p : Char → Bool) :
    ∀ cs, PosMatch (radixNumber markers p cs) := by
  intro cs n h
  unfold radixNumber at h
  split at h
  · dsimp only at h
    split_ifs at h
    cases h
    omega
  · cases h

/-- A `Decnumber` match reads at least one digit. -/
theorem posMatch_decNumber : ∀ cs, PosMatch (decNumber cs) := by
  intro cs n h
  unfold decNumber at h
  split at h
  · cases h; omega
  · split_ifs at h; cases h; omega
  · cases h

/-- A `Number` match reads at least one character, whichever of its alternatives matches. -/
theorem posMatch_number (cs : List Char) : PosMatch (number cs) :=
  (posMatch_imaginary _ _).orElse <| (posMatch_imaginary _ _).orElse <|
    ((posMatch_pointFloat cs).orElse (posMatch_expFloat cs)).orElse <|
      (posMatch_radixNumber _ _ cs).orElse <| (posMatch_radixNumber _ _ cs).orElse <|
        (posMatch_radixNumber _ _ cs).orElse (posMatch_decNumber cs)

/-- An operator match reads at least one character. -/
theorem posMatch_operator (cs : List Char) : PosMatch (operator cs) := by
  intro n h
  unfold operator at h
  split at h <;> (try split_ifs at h) <;> cases h <;> omega

/-- A `Funny` match (operator, bracket or special character) reads at least one character. -/
theorem posMatch_funny (cs : List Char) : PosMatch (funny cs) := by
  refine (posMatch_operator cs).orElse (PosMatch.orElse ?_ ?_)
  · intro n h
    unfold bracket at h
    split at h
    · split_ifs at h
      cases h
      omega
    · cases h
  · intro n h
    unfold special at h
    split at h <;> (try split_ifs at h) <;> cases h <;> omega

/-- A `ContStr` match reads at least the opening quote. -/
theorem posMatch_contStr (cs : List Char) : PosMatch (contStr cs) := by
  intro n h
  obtain ⟨⟨p, q⟩, -, h⟩ := Option.bind_eq_some.1 h
  exact posMatch_map (fun _ => by omega) n h

/-- A `Name` match reads at least one word character. -/
theorem posMatch_name (cs : List Char) : PosMatch (name cs) := by
  intro n h
  unfold name at h
  split at h
  · cases h
  · rename_i hne
    cases h
    exact Nat.pos_of_ne_zero hne

/-- A `PseudoExtras` match on a nonempty text reads at least one character: a continuation, a
comment or a triple quote; the end-of-text alternative cannot match there. -/
theorem posMatch_pseudoExtras (c : Char) (cs : List Char) : PosMatch (pseudoExtras (c :: cs)) := by
  intro n h
  unfold pseudoExtras at h
  split at h
  · cases h; omega
  · cases h; omega
  · rename_i heq; cases heq
  · refine PosMatch.orElse ?_ ?_ n h
    · intro m hm
      unfold comment at hm
      split at hm <;> cases hm
      omega
    · intro m hm
      obtain ⟨⟨p, q⟩, -, hm⟩ := Option.bind_eq_some.1 hm
      dsimp only at hm
      split_ifs at hm
      cases hm
      omega

/-- On a nonempty text the captured token reads at least one character. -/
theorem posMatch_token (c : Char) (cs : List Char) : PosMatch (token (c :: cs)) :=
  (posMatch_pseudoExtras c cs).orElse <| (posMatch_number _).orElse <| (posMatch_funny _).orElse <|
    (posMatch_contStr _).orElse (posMatch_name _)

/-! ### Closing delimiters -/

/-- The four closing-delimiter patterns `Single`, `Double`, `Single3` and `Double3`. -/
inductive Closing where
  | single
  | double
  | single3
  | double3
deriving DecidableEq, Repr

/-- The quote a closing pattern ends with. -/
def Closing.quote : Closing → Char
  | .single | .single3 => '\''
  | .double | .double3 => '"'

/-- `Single = [^'\\]*(?:\\.[^'\\]*)*'` and its three siblings, matched at the start of a text:
the length up to and including the first closing quote (or three) not escaped. -/
def Closing.matchAt (c : Closing) : List Char → Option Nat
  | [] => none
  | d :: ds =>
    if d = c.quote then
      match c with
      | .single | .double => some 1
      | .single3 | .double3 =>
        if ds.take 2 = [c.quote, c.quote] then some 3 else (c.matchAt ds).map (· + 1)
    else if d = '\\' then
      match ds with
      | '\n' :: _ => none
      | _ :: es => (c.matchAt es).map (· + 2)
      | [] => none
    else (c.matchAt ds).map (· + 1)

/-- `re.find_at(line, start)`: the byte offset where the leftmost match starting at or after
byte `start` ends. -/
def Closing.find (c : Closing) (line : List Char) (start : Nat) : Option Nat :=
  go line 0
where
  go : List Char → Nat → Option Nat
    | [], _ => none
    | d :: ds, off =>
      if start ≤ off then
        match c.matchAt (d :: ds) with
        | some n => some (off + utf8Len ((d :: ds).take n))
        | none => go ds (off + d.utf8Size)
      else go ds (off + d.utf8Size)

/-- The search from offset `off` over `ds` ends no earlier than `start` and no later than the end of
`ds`. -/
theorem Closing.find_go_bounds (c : Closing) (start : Nat) :
    ∀ {ds : List Char} {off e : Nat}, find.go c start ds off = some e →
      start ≤ e ∧ e ≤ off + utf8Len ds
  | [], _, _, h => by simp [find.go] at h
  | d :: ds, off, e, h => by
    simp only [find.go] at h
    split_ifs at h with hs
    · split at h
      · cases h
        have := utf8Len_take_le (d :: ds) ‹_›
        omega
      · have := find_go_bounds c start h
        simp only [utf8Len_cons]
        omega
    · have := find_go_bounds c start h
      simp only [utf8Len_cons]
      omega

/-- A closing delimiter is found at or after the offset the search starts from, within the
line. -/
theorem Closing.find_bounds {c : Closing} {line : List Char} {start e : Nat}
    (h : c.find line start = some e) : start ≤ e ∧ e ≤ utf8Len line := by
  simpa using Closing.find_go_bounds c start h

/-- `get_contstr_end_re(token)`: the closing pattern of an opening quote. -/
def closingOf (token : List Char) : Closing :=
  let stripped := lstripSlice token ['b', 'B', 'r', 'R', 'u', 'U', 'f', 'F']
  if stripped.take 3 = ['"', '"', '"'] then .double3
  else if stripped.take 3 = ['\'', '\'', '\''] then .single3
  else if stripped.take 1 = ['"'] then .double
  else .single

/-- `get_triple_quote_set().contains(token)`. -/
def IsTripleQuoted (token : List Char) : Bool :=
  token.length ≥ 3 && IsStringPrefix (token.dropLast.dropLast.dropLast) &&
    (token.reverse.take 3 = ['"', '"', '"'] || token.reverse.take 3 = ['\'', '\'', '\''])

/-- `get_single_quote_set().contains(s)`. -/
def IsSingleQuoted (s : List Char) : Bool :=
  match s.reverse with
  | q :: pre => (q = '\'' || q = '"') && IsStringPrefix pre.reverse
  | [] => false

end Pattern

end FeParser
