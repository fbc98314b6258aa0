import Mathlib.Tactic.Common
import Monolith.Json.Reader
import Monolith.Json.Writer

/-! # Tokens of written documents

Each value is written so that its own tokens can be cut off what follows it. For a number this
takes some care: what follows must not go on with it.
-/

namespace Monolith.Json

variable {c : Char} {tokens : List Token} {rest : List Char}

namespace Token

/-- The text is cut into the tokens, whatever bound on their number is given that suffices. -/
def Scans (cs : List Char) (tokens : List Token) : Prop :=
  ∀ bound, cs.length ≤ bound → scan bound cs = some tokens

section

variable {cs : List Char} {token : Token}

theorem Scans.nil : Scans [] [] := by
  intro bound _
  cases bound <;> rfl

theorem Scans.blank (h : Scans cs tokens) (hc : isBlank c = true) : Scans (c :: cs) tokens := by
  intro bound hbound
  cases bound with
  | zero => simp at hbound
  | succ bound =>
      rw [scan, if_pos hc]
      exact h bound (by simpa using hbound)

/-- Blanks make no tokens. -/
theorem Scans.blanks {blanks : List Char} (h : Scans cs tokens)
    (hblanks : ∀ c ∈ blanks, isBlank c = true) : Scans (blanks ++ cs) tokens := by
  induction blanks with
  | nil => exact h
  | cons c blanks ih =>
      obtain ⟨hc, hblanks⟩ := List.forall_mem_cons.mp hblanks
      exact (ih hblanks).blank hc

/-- A first token can be cut off if what is left is shorter. -/
theorem Scans.cons (h : Scans rest tokens) (hc : isBlank c = false)
    (hfirst : first? (c :: cs) = some (token, rest)) (hrest : rest.length ≤ cs.length) :
    Scans (c :: cs) (token :: tokens) := by
  intro bound hbound
  cases bound with
  | zero => simp at hbound
  | succ bound =>
      rw [List.length_cons] at hbound
      simp [scan, hc, hfirst, h bound (by omega)]

end

/-! ## Numbers -/

/-- A number before this text has neither more digits nor a fraction nor an exponent. -/
def EndsNumber (rest : List Char) : Prop :=
  ∀ c ∈ rest.head?, c.isDigit = false ∧ c ≠ '.' ∧ c ≠ 'e' ∧ c ≠ 'E'

theorem head_toDigits {n : Nat} (h : 0 < n) :
    ∃ c cs, Nat.toDigits 10 n = c :: cs ∧ c ≠ '0' := by
  induction n using Nat.strongRecOn with
  | _ n ih =>
      rw [Nat.toDigits_eq_if (by decide)]
      split
      next hlt => exact ⟨_, _, rfl, by simpa using Nat.ne_of_gt h⟩
      next hlt =>
        obtain ⟨c, cs, hdigits, hc⟩ := ih (n / 10) (by omega) (by omega)
        exact ⟨c, cs ++ [(n % 10).digitChar], by rw [hdigits]; rfl, hc⟩

/-- The digits of a number have its value. -/
theorem decimalValue_toDigits (n : Nat) : decimalValue (Nat.toDigits 10 n) = n := by
  have hvalue := @Nat.ofDigitChars_ten_toDigits n
  rw [Nat.ofDigitChars_eq_foldl] at hvalue
  simpa only [decimalValue, Nat.mul_comm] using hvalue

section

variable {n : Nat}

/-- The digits of a number are read up to what does not go on with it. -/
theorem integerPart?_toDigits (h : EndsNumber rest) :
    integerPart? (Nat.toDigits 10 n ++ rest) = some (n, rest) := by
  have hdigits : ∀ c ∈ Nat.toDigits 10 n, c.isDigit = true :=
    fun c hc => Nat.isDigit_of_mem_toDigits (by decide) (by decide) hc
  have hrest : rest.takeWhile Char.isDigit = [] ∧ rest.dropWhile Char.isDigit = rest := by
    cases rest with
    | nil => exact ⟨rfl, rfl⟩
    | cons c rest => simp [(h c rfl).1]
  rw [integerPart?, List.takeWhile_append_of_pos hdigits, List.dropWhile_append_of_pos hdigits,
    hrest.1, hrest.2, List.append_nil]
  split
  next hnil => exact absurd hnil Nat.toDigits_ne_nil
  next d ds hzero =>
    -- only zero is written with a zero in front
    rcases Nat.eq_zero_or_pos n with rfl | hpos
    · simp [Nat.toDigits_zero] at hzero
    · obtain ⟨c, cs, hhead, hc⟩ := head_toDigits hpos
      rw [hhead] at hzero
      exact absurd (List.cons.inj hzero).1 hc
  next => rw [decimalValue_toDigits]

theorem skipExponent?_of_endsNumber (h : EndsNumber rest) :
    skipExponent? rest = some (false, rest) := by
  unfold skipExponent?
  split
  next => exact absurd rfl (h 'e' rfl).2.2.1
  next => exact absurd rfl (h 'E' rfl).2.2.2
  next => rfl

/-- So is a number with its sign, unless it is a negative zero. -/
theorem unsigned?_toDigits (negative : Bool) (h : EndsNumber rest)
    (hzero : negative = true → n ≠ 0) :
    unsigned? negative (Nat.toDigits 10 n ++ rest) =
      some (.int (if negative then -(n : Int) else n), rest) := by
  have hfraction : skipFraction? rest = some (false, rest) := by
    unfold skipFraction?
    split
    next => exact absurd rfl (h '.' rfl).2.1
    next => rfl
  simp only [unsigned?, integerPart?_toDigits h, hfraction, skipExponent?_of_endsNumber h,
    Option.bind_eq_bind, Option.bind_some]
  cases negative with
  | false => simp
  | true => simp [hzero rfl]

theorem isBlank_of_digit (hc : c.isDigit = true) : isBlank c = false := by
  rw [Bool.eq_false_iff]
  intro hblank
  simp only [isBlank, Bool.or_eq_true, beq_iff_eq] at hblank
  rcases hblank with ((rfl | rfl) | rfl) | rfl <;> simp at hc

theorem number?_of_digit {cs : List Char} (hc : c.isDigit = true) :
    number? (c :: cs) = unsigned? false (c :: cs) := by
  unfold number?
  split
  next heq =>
    obtain ⟨rfl, _⟩ := List.cons.inj heq
    simp at hc
  next => rfl

theorem first?_of_digit {cs : List Char} (hc : c.isDigit = true) :
    first? (c :: cs) = number? (c :: cs) := by
  unfold first?
  split
  -- all other tokens begin with a character that is no digit
  all_goals first
    | rfl
    | rename_i heq
      obtain ⟨rfl, _⟩ := List.cons.inj heq
      simp at hc

theorem scans_toDigits (hscans : Scans rest tokens) (hrest : EndsNumber rest) :
    Scans (Nat.toDigits 10 n ++ rest) (.int n :: tokens) := by
  have hdigits : ∀ c ∈ Nat.toDigits 10 n, c.isDigit = true :=
    fun c hc => Nat.isDigit_of_mem_toDigits (by decide) (by decide) hc
  have hvalue := unsigned?_toDigits (n := n) false hrest (by simp)
  cases hn : Nat.toDigits 10 n with
  | nil => exact absurd hn Nat.toDigits_ne_nil
  | cons c cs =>
      rw [hn] at hdigits hvalue
      have hc := hdigits c List.mem_cons_self
      refine hscans.cons ?_ ?_ ?_
      · exact isBlank_of_digit hc
      · exact ((first?_of_digit hc).trans (number?_of_digit hc)).trans hvalue
      · simp

/-- An integer is one token if no digit follows it. -/
theorem scans_int (hscans : Scans rest tokens) (hrest : EndsNumber rest) (i : Int) :
    Scans ((toString i).toList ++ rest) (.int i :: tokens) := by
  cases i with
  | ofNat n =>
      have htext : (toString (Int.ofNat n)).toList = Nat.toDigits 10 n := Nat.toList_repr
      rw [htext]
      exact scans_toDigits hscans hrest
  | negSucc n =>
      have htext : (toString (Int.negSucc n)).toList = '-' :: Nat.toDigits 10 (n + 1) := by
        change ("-" ++ (n + 1).repr).toList = _
        rw [String.toList_append, Nat.toList_repr]
        rfl
      rw [htext]
      refine hscans.cons (by decide) ?_ (by simp)
      exact unsigned?_toDigits true hrest (by simp)

end

/-- The text that stands for all other numbers. -/
theorem scans_real (hscans : Scans rest tokens) (hrest : EndsNumber rest) :
    Scans ('0' :: '.' :: '0' :: rest) (.real :: tokens) := by
  refine hscans.cons (by decide) ?_ (Nat.le_add_right rest.length 2)
  have hdigits : skipDigits? ('0' :: rest) = some rest := by
    cases rest with
    | nil => rfl
    | cons c rest => simp [skipDigits?, (hrest c rfl).1]
  have hexponent := skipExponent?_of_endsNumber hrest
  have hinteger : integerPart? ('0' :: '.' :: '0' :: rest) = some (0, '.' :: '0' :: rest) := by
    simp [integerPart?, decimalValue]
  rw [first?_of_digit (by decide), number?_of_digit (by decide)]
  simp [unsigned?, hinteger, skipFraction?, hdigits, hexponent]

/-! ## String literals -/

def Piece.Denotes (piece : Piece) (c : Char) : Prop :=
  ∀ others, characters? (piece :: others) = (characters? others).map (c :: ·)

theorem denotes_char (c : Char) : (Piece.char c).Denotes c := by
  intro others
  rfl

/-- A unit that is no half of a pair stands for itself. -/
theorem denotes_unit (h : c.toNat < 0xD800) : (Piece.unit c.toNat).Denotes c := by
  have hhigh : isHighSurrogate c.toNat = false := by
    simp only [isHighSurrogate, Bool.and_eq_false_iff, decide_eq_false_iff_not]
    omega
  have hlow : isLowSurrogate c.toNat = false := by
    simp only [isLowSurrogate, Bool.and_eq_false_iff, decide_eq_false_iff_not]
    omega
  intro others
  -- the piece that follows is looked at to find the other half of a pair
  cases others with
  | nil => simp [characters?, hhigh, hlow]
  | cons next others =>
      cases next with
      | char => simp [characters?, hhigh, hlow]
      | unit => simp [characters?, hhigh, hlow]

/-- A hexadecimal digit is read back. -/
theorem hexDigit?_hexDigit : ∀ value < 16, hexDigit? (hexDigit value) = some value := by
  decide

theorem hexUnit?_hexDigit {code : Nat} (h : code < 0x20) :
    hexUnit? '0' '0' (hexDigit (code / 16)) (hexDigit (code % 16)) = some code := by
  have hzero : hexDigit? '0' = some 0 := by decide
  simp only [hexUnit?, hzero, hexDigit?_hexDigit (code / 16) (by omega),
    hexDigit?_hexDigit (code % 16) (by omega), Option.bind_eq_bind, Option.bind_some,
    Option.pure_def, Option.some.injEq]
  omega

/-- Every character is written as one piece that stands for it. -/
theorem pieces_escape (c : Char) {tail : List Char} {parts : List Piece}
    (h : pieces rest = some (parts, tail)) :
    ∃ piece, piece.Denotes c ∧ pieces (escape c ++ rest) = some (piece :: parts, tail) := by
  by_cases hshort : c ∈ ['"', '\\', '\x08', '\t', '\n', '\x0c', '\r']
  · refine ⟨_, denotes_char c, ?_⟩
    simp only [List.mem_cons, List.not_mem_nil, or_false] at hshort
    rcases hshort with rfl | rfl | rfl | rfl | rfl | rfl | rfl <;>
      simp [escape, pieces, escaped?, h]
  · simp only [List.mem_cons, List.not_mem_nil, or_false, not_or] at hshort
    -- the other control characters are written with their code
    by_cases hlow : c.toNat < 0x20
    · refine ⟨_, denotes_unit (c := c) (by omega), ?_⟩
      simp [escape, hshort, hlow, pieces, hexUnit?_hexDigit hlow, h]
    · refine ⟨_, denotes_char c, ?_⟩
      simp [escape, hshort, hlow, pieces, h]

/-- Each character is escaped so that it is read back as itself. -/
theorem pieces_quote (text rest : List Char) :
    ∃ parts, characters? parts = some text ∧
      pieces (text.flatMap escape ++ '"' :: rest) = some (parts, rest) := by
  induction text with
  | nil => exact ⟨[], rfl, rfl⟩
  | cons c text ih =>
      obtain ⟨parts, hparts, hpieces⟩ := ih
      obtain ⟨piece, hpiece, hescape⟩ := pieces_escape c hpieces
      refine ⟨piece :: parts, ?_, ?_⟩
      · rw [hpiece, hparts]
        rfl
      · rw [List.flatMap_cons, List.append_assoc]
        exact hescape

/-- A quoted text is one token. -/
theorem scans_quote (h : Scans rest tokens) (text : Option String) :
    Scans ((quote text).toList ++ rest) (.str text :: tokens) := by
  cases text with
  | none =>
      -- one half of a pair without the other
      have hunit : hexUnit? 'd' '8' '0' '0' = some 0xD800 := by decide
      have hpieces : pieces ('\\' :: 'u' :: 'd' :: '8' :: '0' :: '0' :: '"' :: rest) =
          some ([.unit 0xD800], rest) := by
        simp [pieces, hunit]
      have hquote : (quote none).toList ++ rest =
          '"' :: '\\' :: 'u' :: 'd' :: '8' :: '0' :: '0' :: '"' :: rest := by
        simp [quote]
      rw [hquote]
      refine h.cons (by decide) ?_ (by simp only [List.length_cons]; omega)
      simp [first?, literal?, hpieces, characters?, isHighSurrogate]
  | some text =>
      obtain ⟨parts, hparts, hpieces⟩ := pieces_quote text.toList rest
      have hquote : (quote (some text)).toList ++ rest =
          '"' :: (text.toList.flatMap escape ++ '"' :: rest) := by
        simp [quote]
      rw [hquote]
      refine h.cons (by decide) ?_ ?_
      · simp [first?, literal?, hpieces, hparts]
      · rw [List.length_append, List.length_cons]
        omega

end Token

end Monolith.Json
