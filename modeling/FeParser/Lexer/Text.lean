import FeParser.Token

/-!
# Source text

`tokenize` reads its input as a Rust `&str`: UTF-8 bytes indexed by byte offset, which may
be sliced only at character boundaries (`&s[i..]` anywhere else panics). Here a text is the
list of its characters, and a byte offset is the sum of the UTF-8 widths of the characters
before it (`utf8Len`). `sliceFrom` and `takeBytes` are the two halves of Rust's slicing,
panics included.

`string_utils.rs` is not part of the sources at hand: `linesWithEndings`, `lstripSlice` and
`rstripSlice` are modelled from the spec.

## Main definitions

* `LexStop`: how a run of `tokenize` stops without tokens: its `TokenizeError`, a panic, or
  the model's bound on a loop spent.
* `sliceFrom`, `takeBytes`, `slice`: `&s[i..]`, `&s[..n]` and `&s[i..j]`.
* `linesWithEndings`: the lines of the source, each with its terminator and its offsets.
-/

namespace FeParser

/-- `TokenizeError { msg, offset }`. -/
structure TokenizeError where
  msg : String
  offset : Nat
deriving DecidableEq, Repr

/-- How a run of `tokenize` ends other than with its tokens: the `Err` it returns, a Rust
panic (a slice off a character boundary, a failed `unwrap`, an overflow), or a loop of the
model that ran out of its bound. -/
inductive LexStop where
  | error (e : TokenizeError)
  | panic (msg : String)
  | outOfFuel
deriving DecidableEq, Repr

/-! ### Byte offsets -/

/-- The number of bytes of a text. -/
def utf8Len : List Char → Nat
  | [] => 0
  | c :: cs => c.utf8Size + utf8Len cs

/-- The empty text has no bytes. -/
@[simp] theorem utf8Len_nil : utf8Len [] = 0 := rfl

/-- A character adds its own UTF-8 width to the length of the text after it. -/
@[simp] theorem utf8Len_cons (c : Char) (cs : List Char) :
    utf8Len (c :: cs) = c.utf8Size + utf8Len cs := rfl

/-- Byte length adds up over concatenation, so offsets into `a ++ b` past `a` are offsets into `b`
moved by the length of `a`. -/
@[simp] theorem utf8Len_append (a b : List Char) : utf8Len (a ++ b) = utf8Len a + utf8Len b := by
  induction a with
  | nil => simp
  | cons c a ih => simp [ih, Nat.add_assoc]

/-- Only the empty text has no bytes: every character takes at least one. -/
theorem utf8Len_eq_zero {l : List Char} : utf8Len l = 0 ↔ l = [] := by
  cases l with
  | nil => simp
  | cons c l => simp only [utf8Len_cons, List.cons_ne_nil, iff_false]; have := Char.utf8Size_pos c; omega

/-- `&s[pos..]`: the text from byte `pos` on. -/
def sliceFrom : List Char → Nat → Except LexStop (List Char)
  | cs, 0 => .ok cs
  | [], _ + 1 => .error (.panic "byte index out of bounds")
  | c :: cs, pos + 1 =>
    if c.utf8Size ≤ pos + 1 then sliceFrom cs (pos + 1 - c.utf8Size)
    else .error (.panic "byte index is not a char boundary")

/-- `&s[..n]`: the first `n` bytes of a text. -/
def takeBytes : List Char → Nat → Except LexStop (List Char)
  | _, 0 => .ok []
  | [], _ + 1 => .error (.panic "byte index out of bounds")
  | c :: cs, n + 1 =>
    if c.utf8Size ≤ n + 1 then (c :: ·) <$> takeBytes cs (n + 1 - c.utf8Size)
    else .error (.panic "byte index is not a char boundary")

/-- `&s[start..stop]`. -/
def slice (cs : List Char) (start stop : Nat) : Except LexStop (List Char) := do
  let rest ← sliceFrom cs start
  takeBytes rest (stop - start)

/-- `&s[pos..]` at the byte length of a prefix is the rest of the text: the end of a prefix is
always a character boundary. -/
@[simp] theorem sliceFrom_append_utf8Len (a b : List Char) : sliceFrom (a ++ b) (utf8Len a) = .ok b := by
  induction a with
  | nil => cases b <;> rfl
  | cons c a ih =>
    have hc := Char.utf8Size_pos c
    obtain ⟨k, hk⟩ : ∃ k, c.utf8Size + utf8Len a = k + 1 := ⟨_, (Nat.succ_pred_eq_of_pos (by omega)).symm⟩
    simp only [List.cons_append, utf8Len_cons, hk, sliceFrom, show c.utf8Size ≤ k + 1 by omega,
      if_true, show k + 1 - c.utf8Size = utf8Len a by omega, ih]

/-- What a successful `&s[pos..]` leaves: the text after its first `pos` bytes, at a
character boundary. -/
theorem sliceFrom_eq_ok {cs r : List Char} {n : Nat} (h : sliceFrom cs n = .ok r) :
    ∃ p, cs = p ++ r ∧ utf8Len p = n := by
  induction cs generalizing n with
  | nil =>
    cases n with
    | zero => cases h; exact ⟨[], rfl, rfl⟩
    | succ n => cases h
  | cons c cs ih =>
    cases n with
    | zero => cases h; exact ⟨[], rfl, rfl⟩
    | succ n =>
      simp only [sliceFrom] at h
      split at h
      · obtain ⟨p, rfl, hp⟩ := ih h
        exact ⟨c :: p, rfl, by simp only [utf8Len_cons]; omega⟩
      · cases h

/-- `&s[..n]` at the byte length of a prefix is that prefix. -/
@[simp] theorem takeBytes_append_utf8Len (a b : List Char) : takeBytes (a ++ b) (utf8Len a) = .ok a := by
  induction a with
  | nil => cases b <;> rfl
  | cons c a ih =>
    have hc := Char.utf8Size_pos c
    obtain ⟨k, hk⟩ : ∃ k, c.utf8Size + utf8Len a = k + 1 := ⟨_, (Nat.succ_pred_eq_of_pos (by omega)).symm⟩
    simp only [List.cons_append, utf8Len_cons, hk, takeBytes, show c.utf8Size ≤ k + 1 by omega,
      if_true, show k + 1 - c.utf8Size = utf8Len a by omega, ih]
    rfl

/-- The slice between the byte offsets of a piece of a text is that piece. -/
theorem slice_append (p t r : List Char) :
    slice (p ++ t ++ r) (utf8Len p) (utf8Len p + utf8Len t) = .ok t := by
  simp [slice, List.append_assoc]

/-- A nonempty `&s[start..stop]` starts with the character at `start`. -/
theorem slice_head {cs tok r : List Char} {start stop : Nat} (hlt : start < stop)
    (hs : slice cs start stop = .ok tok) (hr : sliceFrom cs start = .ok r) : tok.head? = r.head? := by
  obtain ⟨k, hk⟩ : ∃ k, stop - start = k + 1 := ⟨stop - start - 1, by omega⟩
  rw [slice, hr, ok_bind, hk] at hs
  cases r with
  | nil => cases hs
  | cons c r =>
    simp only [takeBytes] at hs
    split at hs
    · cases h : takeBytes r (k + 1 - c.utf8Size) <;> rw [h] at hs <;> cases hs
      rfl
    · cases hs

/-- What a successful `&s[..n]` returns: the first `n` bytes, up to a character boundary. -/
theorem takeBytes_eq_ok {cs t : List Char} {n : Nat} (h : takeBytes cs n = .ok t) :
    ∃ r, cs = t ++ r ∧ utf8Len t = n := by
  induction cs generalizing n t with
  | nil =>
    cases n with
    | zero => cases h; exact ⟨[], rfl, rfl⟩
    | succ n => cases h
  | cons c cs ih =>
    cases n with
    | zero => cases h; exact ⟨c :: cs, rfl, rfl⟩
    | succ n =>
      simp only [takeBytes] at h
      split at h
      · cases ht : takeBytes cs (n + 1 - c.utf8Size) with
        | error e => rw [ht] at h; cases h
        | ok t' =>
          rw [ht] at h
          cases h
          obtain ⟨r, rfl, hr⟩ := ih ht
          exact ⟨r, rfl, by simp only [utf8Len_cons]; omega⟩
      · cases h

/-- What a successful `&s[start..stop]` returns: the bytes from `start` to `stop`, between two
character boundaries. -/
theorem slice_eq_ok {cs t : List Char} {start stop : Nat} (h : slice cs start stop = .ok t) :
    ∃ p r, cs = p ++ t ++ r ∧ utf8Len p = start ∧ utf8Len t = stop - start := by
  obtain ⟨rest, hrest, htake⟩ := bind_eq_ok.1 h
  obtain ⟨p, rfl, hp⟩ := sliceFrom_eq_ok hrest
  obtain ⟨r, rfl, hr⟩ := takeBytes_eq_ok htake
  exact ⟨p, r, (List.append_assoc _ _ _).symm, hp, hr⟩

/-- A prefix of a text has no more bytes than the text. -/
theorem utf8Len_take_le (l : List Char) (n : Nat) : utf8Len (l.take n) ≤ utf8Len l := by
  conv_rhs => rw [← List.take_append_drop n l, utf8Len_append]
  omega

/-! ### Lines -/

/-- The lines of a text, each ending after its `'\n'`; the last may have none. -/
def splitLines : List Char → List (List Char)
  | [] => []
  | c :: cs =>
    if c = '\n' then [c] :: splitLines cs
    else match splitLines cs with
      | [] => [[c]]
      | l :: ls => (c :: l) :: ls

/-- The lines of a text as `splitLines` cuts them: each ends with its only `'\n'`, but the
last, which may have none. -/
inductive Lines : List (List Char) → Prop
  | nil : Lines []
  | last {l : List Char} : l ≠ [] → '\n' ∉ l → Lines [l]
  | cons {body : List Char} {ls : List (List Char)} :
      '\n' ∉ body → Lines ls → Lines ((body ++ ['\n']) :: ls)

/-- `splitLines` cuts every text into lines in the sense of `Lines`. -/
theorem splitLines_lines (cs : List Char) : Lines (splitLines cs) := by
  induction cs with
  | nil => exact .nil
  | cons c cs ih =>
    rw [splitLines]
    split_ifs with hc
    · subst hc
      exact @Lines.cons [] _ (List.not_mem_nil _) ih
    · split
      · exact .last (List.cons_ne_nil _ _) (by simpa using Ne.symm hc)
      · rename_i l ls heq
        rw [heq] at ih
        cases ih with
        | last _ hn => exact .last (List.cons_ne_nil _ _) (by simp [hn, Ne.symm hc])
        | cons hb hls => exact @Lines.cons (c :: _) _ (by simp [hb, Ne.symm hc]) hls

/-- A line that ends with its only `'\n'` has nothing after a `'\n'`. -/
theorem eq_nil_of_newline {body P Q : List Char} (hb : '\n' ∉ body)
    (h : body ++ ['\n'] = P ++ '\n' :: Q) : Q = [] := by
  rcases List.eq_nil_or_concat' Q with hQ | ⟨Q', x, rfl⟩
  · exact hQ
  · have := congrArg List.dropLast h
    rw [List.dropLast_concat, ← List.cons_append, ← List.append_assoc, List.dropLast_concat] at this
    exact absurd (this ▸ by simp) hb

/-- `splitLines` loses nothing: its lines put back together are the text. -/
@[simp] theorem flatten_splitLines (cs : List Char) : (splitLines cs).flatten = cs := by
  induction cs with
  | nil => rfl
  | cons c cs ih =>
    rw [splitLines]
    split_ifs
    · simp [ih, *]
    · split <;> simp_all

/-- Each line with the byte offsets of its start and its end, counted from `start`. -/
def withOffsets : Nat → List (List Char) → List (List Char × Nat × Nat)
  | _, [] => []
  | start, l :: ls => (l, start, start + utf8Len l) :: withOffsets (start + utf8Len l) ls

/-- Modelled from the spec: `lines_with_endings(source)`, the lines of the source with their
terminators, each as `(line_text, line_start_offset, line_end_offset)`. -/
def linesWithEndings (input : List Char) : List (List Char × Nat × Nat) :=
  withOffsets 0 (splitLines input)

/-- The lines of a text that ends with a line terminator: each ends with one, and the text
splits before whatever follows it. -/
theorem splitLines_append {p : List Char} (r : List Char) (hp : p = [] ∨ p.getLast? = some '\n') :
    splitLines (p ++ r) = splitLines p ++ splitLines r ∧
      ∀ l ∈ splitLines p, l.getLast? = some '\n' := by
  induction p with
  | nil => simp [splitLines]
  | cons c cs ih =>
    have hlast : cs.getLast?.getD c = '\n' := by
      simpa [List.getLast?_cons] using hp
    have hcs : cs = [] ∨ cs.getLast? = some '\n' := by
      cases hl : cs.getLast? with
      | none => exact .inl (List.getLast?_eq_none_iff.1 hl)
      | some x => rw [hl] at hlast; exact .inr (congrArg some hlast)
    obtain ⟨happ, hlines⟩ := ih hcs
    by_cases hc : c = '\n'
    · rw [List.cons_append, splitLines, splitLines, if_pos hc, if_pos hc, happ]
      exact ⟨rfl, List.forall_mem_cons.2 ⟨by simp [hc], hlines⟩⟩
    · -- `c` starts the first line of `cs`, which is not empty
      have hne : cs ≠ [] := by
        rintro rfl
        exact hc (by simpa using hlast)
      obtain ⟨l, ls, hls⟩ : ∃ l ls, splitLines cs = l :: ls := by
        cases h : splitLines cs with
        | nil => exact absurd (by rw [← flatten_splitLines cs, h]; rfl) hne
        | cons l ls => exact ⟨l, ls, rfl⟩
      rw [List.cons_append, splitLines, splitLines, if_neg hc, if_neg hc, happ, hls]
      rw [hls] at hlines
      refine ⟨rfl, List.forall_mem_cons.2 ⟨?_, fun x hx => hlines x (List.mem_cons_of_mem _ hx)⟩⟩
      simp [List.getLast?_cons, hlines l (List.mem_cons_self _ _)]

/-- A line with its only terminator at its end is one line. -/
theorem splitLines_line {body : List Char} (hb : '\n' ∉ body) :
    splitLines (body ++ ['\n']) = [body ++ ['\n']] := by
  induction body with
  | nil => rfl
  | cons x body ih =>
    rw [List.mem_cons, not_or] at hb
    rw [List.cons_append, splitLines, if_neg (Ne.symm hb.1), ih hb.2]

/-- The offsets of the lines of `A ++ B` are those of `A`, then those of `B` counted from the end of
`A`. -/
theorem withOffsets_append (n : Nat) (A B : List (List Char)) :
    withOffsets n (A ++ B) = withOffsets n A ++ withOffsets (n + utf8Len A.flatten) B := by
  induction A generalizing n with
  | nil => rfl
  | cons l A ih => simp [withOffsets, ih, Nat.add_assoc]

/-- A line in the list with offsets is one of the lines, and its start is no earlier than where the
count began. -/
theorem mem_withOffsets {n : Nat} {L : List (List Char)} {x : List Char × Nat × Nat}
    (h : x ∈ withOffsets n L) : x.1 ∈ L ∧ n ≤ x.2.1 := by
  induction L generalizing n with
  | nil => cases h
  | cons l L ih =>
    rcases List.mem_cons.1 h with rfl | h
    · exact ⟨List.mem_cons_self _ _, le_rfl⟩
    · obtain ⟨h₁, h₂⟩ := ih h
      exact ⟨List.mem_cons_of_mem _ h₁, by omega⟩

/-! ### Stripping -/

/-- Modelled from the spec: `rstrip_slice(s, chars)`, `s` without its trailing characters
from `chars`. -/
def rstripSlice (s : List Char) (chars : List Char) : List Char :=
  (s.reverse.dropWhile (· ∈ chars)).reverse

/-- Modelled from the spec: `lstrip_slice(s, chars)`, `s` without its leading characters
from `chars`. -/
def lstripSlice (s : List Char) (chars : List Char) : List Char :=
  s.dropWhile (· ∈ chars)

/-- `rstrip_slice` keeps a prefix of its text. -/
theorem rstripSlice_prefix (s cs : List Char) : ∃ t, s = rstripSlice s cs ++ t :=
  ⟨(s.reverse.takeWhile (· ∈ cs)).reverse, by
    rw [rstripSlice, ← List.reverse_append, List.takeWhile_append_dropWhile, List.reverse_reverse]⟩

/-- The text between two byte offsets of the source, as the spec recovers a token's string by
slicing the source with its span: the characters that start inside the range. -/
def sourceText (input : List Char) (start stop : Nat) : String :=
  ⟨go input 0⟩
where
  go : List Char → Nat → List Char
    | [], _ => []
    | c :: cs, off => if start ≤ off ∧ off < stop then c :: go cs (off + c.utf8Size)
      else go cs (off + c.utf8Size)

namespace sourceText

variable {start stop : Nat}

/-- Characters that start before `start` are left out. -/
theorem go_append_of_le {A : List Char} (r : List Char) {off : Nat} (h : off + utf8Len A ≤ start) :
    go start stop (A ++ r) off = go start stop r (off + utf8Len A) := by
  induction A generalizing off with
  | nil => rfl
  | cons c A ih =>
    have hc := Char.utf8Size_pos c
    simp only [utf8Len_cons] at h
    rw [List.cons_append, go, if_neg (by omega), ih (by omega), utf8Len_cons, Nat.add_assoc]

/-- Characters that start between `start` and `stop` are kept. -/
theorem go_append_of_mem {t : List Char} (r : List Char) {off : Nat} (h₁ : start ≤ off)
    (h₂ : off + utf8Len t ≤ stop) : go start stop (t ++ r) off = t ++ go start stop r (off + utf8Len t) := by
  induction t generalizing off with
  | nil => rfl
  | cons c t ih =>
    have hc := Char.utf8Size_pos c
    simp only [utf8Len_cons] at h₂
    rw [List.cons_append, go, if_pos ⟨h₁, by omega⟩, ih (by omega) (by omega), utf8Len_cons,
      Nat.add_assoc, List.cons_append]

/-- Nothing that starts from `stop` on is kept. -/
theorem go_of_le (r : List Char) {off : Nat} (h : stop ≤ off) : go start stop r off = [] := by
  induction r generalizing off with
  | nil => rfl
  | cons c r ih => rw [go, if_neg (by omega), ih (by omega)]

/-- The characters read from a concatenation are those read from each part, the second counted from
the end of the first. -/
theorem go_append (A B : List Char) (off : Nat) :
    go start stop (A ++ B) off = go start stop A off ++ go start stop B (off + utf8Len A) := by
  induction A generalizing off with
  | nil => rfl
  | cons c A ih =>
    rw [List.cons_append, go, go, ih, utf8Len_cons, Nat.add_assoc]
    split_ifs <;> rfl

/-- Offsets `d` bytes further on, in text `d` bytes further on, read the same characters. -/
theorem go_shift (d : Nat) (r : List Char) (off : Nat) :
    go (start + d) (stop + d) r (off + d) = go start stop r off := by
  induction r generalizing off with
  | nil => rfl
  | cons c r ih =>
    rw [go, go, Nat.add_right_comm, ih]
    simp only [Nat.add_le_add_iff_right, Nat.add_lt_add_iff_right]

end sourceText

/-- A range that ends within a prefix of the source reads only the prefix. -/
theorem sourceText_append_of_le {p : List Char} (r : List Char) {start stop : Nat}
    (h : stop ≤ utf8Len p) : sourceText (p ++ r) start stop = sourceText p start stop := by
  rw [sourceText, sourceText, sourceText.go_append,
    @sourceText.go_of_le start stop r (0 + utf8Len p) (by omega), List.append_nil]

/-- A range from `p` on reads the same after `b` is inserted after `p`, moved by its length. -/
theorem sourceText_insert {p : List Char} (b q : List Char) {start stop : Nat}
    (h : utf8Len p ≤ start) :
    sourceText (p ++ b ++ q) (start + utf8Len b) (stop + utf8Len b) =
      sourceText (p ++ q) start stop := by
  rw [sourceText, sourceText, List.append_assoc, sourceText.go_append_of_le _ (by omega),
    sourceText.go_append_of_le _ (by omega), sourceText.go_append_of_le _ (by omega),
    Nat.zero_add, sourceText.go_shift]

/-- The offsets of a piece of the source give the piece back. -/
theorem sourceText_append (A t B : List Char) :
    sourceText (A ++ t ++ B) (utf8Len A) (utf8Len A + utf8Len t) = ⟨t⟩ := by
  rw [sourceText, List.append_assoc, sourceText.go_append_of_le _ (by omega), Nat.zero_add,
    sourceText.go_append_of_mem _ le_rfl le_rfl, sourceText.go_of_le _ le_rfl, List.append_nil]

/-- The source under the span of a slice of a line is the slice. -/
theorem sourceText_of_slice {A line B tok : List Char} {start stop : Nat} (hle : start ≤ stop)
    (h : slice line start stop = .ok tok) :
    sourceText (A ++ line ++ B) (utf8Len A + start) (utf8Len A + stop) = ⟨tok⟩ := by
  obtain ⟨P, D, rfl, rfl, hlen⟩ := slice_eq_ok h
  have := sourceText_append (A ++ P) tok (D ++ B)
  simpa only [List.append_assoc, utf8Len_append, Nat.add_assoc, hlen, Nat.add_sub_cancel' hle]
    using this

end FeParser
