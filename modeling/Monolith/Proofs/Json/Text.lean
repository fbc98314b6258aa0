import Monolith.Proofs.Json.Tokens

/-! # Text of written documents

A document is written so that its tokens come out again when the text is cut, and a document is
read from its own tokens. So reading gives back every document that was written, with blanks or
without.
-/

namespace Monolith.Json

mutual

def tokens : Json → List Token
  | .null => [.null]
  | .bool value => [.bool value]
  | .int value => [.int value]
  | .real => [.real]
  | .str text => [.str text]
  | .arr items => .beginArray :: (itemTokens items ++ [.endArray])
  | .obj members => .beginObject :: (memberTokens members ++ [.endObject])

def itemTokens : List Json → List Token
  | [] => []
  | [item] => item.tokens
  | item :: rest => item.tokens ++ .comma :: itemTokens rest

def memberTokens : List (Option String × Json) → List Token
  | [] => []
  | [(key, value)] => .str key :: .colon :: value.tokens
  | (key, value) :: rest => .str key :: .colon :: (value.tokens ++ .comma :: memberTokens rest)

end

/-- What the style adds is blanks, and the colon. -/
structure Style.Plain (style : Style) : Prop where
  line : ∀ depth, ∀ c ∈ (style.line depth).toList, Token.isBlank c = true
  colon : ∃ blanks, style.colon.toList = ':' :: blanks ∧ ∀ c ∈ blanks, Token.isBlank c = true

theorem Style.plain_compact : Style.compact.Plain where
  line := by simp [compact]
  colon := ⟨[], rfl, by simp⟩

theorem Style.plain_pretty : Style.pretty.Plain where
  line := by
    intro depth c hc
    simp only [pretty, String.toList_append, String.toList_ofList, List.mem_append] at hc
    rcases hc with hc | hc
    · obtain rfl := List.mem_singleton.mp hc
      decide
    · obtain rfl := List.eq_of_mem_replicate hc
      decide
  colon := ⟨[' '], rfl, List.forall_mem_singleton.mpr (by decide)⟩

namespace Token

theorem endsNumber_nil : EndsNumber [] := by
  intro c hc
  cases hc

theorem endsNumber_cons {c : Char} (rest : List Char)
    (h : c.isDigit = false ∧ c ≠ '.' ∧ c ≠ 'e' ∧ c ≠ 'E') : EndsNumber (c :: rest) := by
  intro other hother
  obtain rfl := Option.some.inj hother
  exact h

theorem endsNumber_blanks {blanks rest : List Char} (hblanks : ∀ c ∈ blanks, isBlank c = true)
    (h : EndsNumber rest) : EndsNumber (blanks ++ rest) := by
  cases blanks with
  | nil => exact h
  | cons c blanks =>
      have hc := hblanks c List.mem_cons_self
      simp only [isBlank, Bool.or_eq_true, beq_iff_eq] at hc
      rcases hc with ((rfl | rfl) | rfl) | rfl <;> exact endsNumber_cons _ (by decide)

/-- A punctuation mark is a token. -/
theorem Scans.mark {c : Char} {rest : List Char} {token : Token} {tokens : List Token}
    (h : Scans rest tokens) (hc : isBlank c = false)
    (hfirst : ∀ rest, first? (c :: rest) = some (token, rest)) :
    Scans (c :: rest) (token :: tokens) :=
  h.cons hc (hfirst rest) (Nat.le_refl _)

end Token

open Token

variable {style : Style} (hstyle : style.Plain)
include hstyle

theorem scans_colon {rest : List Char} {ts : List Token} (h : Scans rest ts) :
    Scans (style.colon.toList ++ rest) (.colon :: ts) := by
  obtain ⟨blanks, hcolon, hblanks⟩ := hstyle.colon
  rw [hcolon]
  exact (h.blanks hblanks).mark (by decide) fun _ => rfl

mutual

/-- The text of a document is cut into its tokens. -/
theorem scans_write (depth : Nat) {rest : List Char} {ts : List Token} (h : Scans rest ts)
    (hrest : EndsNumber rest) :
    (document : Json) → Scans ((document.write style depth).toList ++ rest) (document.tokens ++ ts)
  | .null => by
      have hword : Scans ('n' :: 'u' :: 'l' :: 'l' :: rest) (.null :: ts) :=
        h.cons (by decide) rfl (Nat.le_add_right rest.length 3)
      simpa [write, tokens] using hword
  | .bool true => by
      have hword : Scans ('t' :: 'r' :: 'u' :: 'e' :: rest) (.bool true :: ts) :=
        h.cons (by decide) rfl (Nat.le_add_right rest.length 3)
      simpa [write, tokens] using hword
  | .bool false => by
      have hword : Scans ('f' :: 'a' :: 'l' :: 's' :: 'e' :: rest) (.bool false :: ts) :=
        h.cons (by decide) rfl (Nat.le_add_right rest.length 4)
      simpa [write, tokens] using hword
  | .int value => by
      rw [write, tokens]
      exact scans_int h hrest value
  | .real => by simpa [write, tokens] using scans_real h hrest
  | .str text => by
      rw [write, tokens]
      exact scans_quote h text
  | .arr [] => by
      have hmarks : Scans ('[' :: ']' :: rest) (.beginArray :: .endArray :: ts) :=
        (h.mark (by decide) fun _ => rfl).mark (by decide) fun _ => rfl
      simpa [write, tokens, itemTokens] using hmarks
  | .arr (item :: items) => by
      -- what follows the last item is blanks and the bracket, which no number goes on with
      have hline := hstyle.line depth
      have hend : Scans (']' :: rest) (.endArray :: ts) := h.mark (by decide) fun _ => rfl
      have hitems := scans_writeItems (depth + 1) (hend.blanks hline)
        (endsNumber_blanks hline (endsNumber_cons rest (by decide))) (item :: items)
      have hmarks : Scans ('[' :: _) (.beginArray :: _) := hitems.mark (by decide) fun _ => rfl
      simpa [write, tokens] using hmarks
  | .obj [] => by
      have hmarks : Scans ('\x7b' :: '\x7d' :: rest) (.beginObject :: .endObject :: ts) :=
        (h.mark (by decide) fun _ => rfl).mark (by decide) fun _ => rfl
      simpa [write, tokens, memberTokens] using hmarks
  | .obj (member :: members) => by
      have hline := hstyle.line depth
      have hend : Scans ('\x7d' :: rest) (.endObject :: ts) := h.mark (by decide) fun _ => rfl
      have hmembers := scans_writeMembers (depth + 1) (hend.blanks hline)
        (endsNumber_blanks hline (endsNumber_cons rest (by decide))) (member :: members)
      have hmarks : Scans ('\x7b' :: _) (.beginObject :: _) :=
        hmembers.mark (by decide) fun _ => rfl
      simpa [write, tokens] using hmarks

theorem scans_writeItems (depth : Nat) {rest : List Char} {ts : List Token} (h : Scans rest ts)
    (hrest : EndsNumber rest) :
    (items : List Json) →
      Scans ((writeItems style depth items).toList ++ rest) (itemTokens items ++ ts)
  | [] => by simpa [writeItems, itemTokens] using h
  | [item] => by
      have hitem := (scans_write depth h hrest item).blanks (hstyle.line depth)
      simpa [writeItems, itemTokens] using hitem
  | item :: next :: items => by
      have hcomma : Scans (',' :: _) (.comma :: _) :=
        (scans_writeItems depth h hrest (next :: items)).mark (by decide) fun _ => rfl
      have hitem := (scans_write depth hcomma (endsNumber_cons _ (by decide)) item).blanks
        (hstyle.line depth)
      simpa [writeItems, itemTokens] using hitem

theorem scans_writeMembers (depth : Nat) {rest : List Char} {ts : List Token} (h : Scans rest ts)
    (hrest : EndsNumber rest) :
    (members : List (Option String × Json)) →
      Scans ((writeMembers style depth members).toList ++ rest) (memberTokens members ++ ts)
  | [] => by simpa [writeMembers, memberTokens] using h
  | [(key, value)] => by
      have hvalue := scans_colon hstyle (scans_write depth h hrest value)
      have hkey := (scans_quote hvalue key).blanks (hstyle.line depth)
      simpa [writeMembers, memberTokens] using hkey
  | (key, value) :: next :: members => by
      have hcomma : Scans (',' :: _) (.comma :: _) :=
        (scans_writeMembers depth h hrest (next :: members)).mark (by decide) fun _ => rfl
      have hvalue := scans_colon hstyle
        (scans_write depth hcomma (endsNumber_cons _ (by decide)) value)
      have hkey := (scans_quote hvalue key).blanks (hstyle.line depth)
      simpa [writeMembers, memberTokens] using hkey

end

theorem tokens?_write (depth : Nat) (document : Json) :
    tokens? (document.write style depth) = some document.tokens := by
  have hscans := scans_write hstyle depth Scans.nil endsNumber_nil document
  rw [List.append_nil, List.append_nil] at hscans
  exact hscans _ (Nat.le_refl _)

omit hstyle

/-! ## Reading back -/

theorem exists_itemTokens_eq (item : Json) (items : List Json) :
    ∃ more, itemTokens (item :: items) = item.tokens ++ more := by
  cases items with
  | nil => exact ⟨[], by simp [itemTokens]⟩
  | cons next items => exact ⟨.comma :: itemTokens (next :: items), by simp [itemTokens]⟩

theorem exists_memberTokens_eq (key : Option String) (value : Json)
    (members : List (Option String × Json)) :
    ∃ more, memberTokens ((key, value) :: members) = .str key :: more := by
  cases members with
  | nil => exact ⟨.colon :: value.tokens, by simp [memberTokens]⟩
  | cons next members =>
      exact ⟨.colon :: (value.tokens ++ .comma :: memberTokens (next :: members)),
        by simp [memberTokens]⟩

namespace Progress

/-- No value starts with the bracket that ends an array. -/
theorem run?_itemOrEnd (item : Json) (stack : List Frame) (ts : List Token) :
    run? (.itemOrEnd stack) (item.tokens ++ ts) =
      run? (.nextValue (.items [] :: stack)) (item.tokens ++ ts) := by
  cases item <;> rfl

mutual

/-- Reading the tokens of a document completes it. -/
theorem run?_tokens (stack : List Frame) (ts : List Token) :
    (document : Json) →
      run? (.nextValue stack) (document.tokens ++ ts) = run? (.complete document stack) ts
  | .null => rfl
  | .bool _ => rfl
  | .int _ => rfl
  | .real => rfl
  | .str _ => rfl
  | .arr [] => rfl
  | .arr (item :: items) => by
      have hitems := run?_itemTokens [] stack ts (item :: items) (List.cons_ne_nil _ _)
      -- after the bracket the array may end, but its first item cannot be taken for the end
      obtain ⟨more, hmore⟩ := exists_itemTokens_eq item items
      rw [hmore, List.append_assoc, ← run?_itemOrEnd] at hitems
      simpa [tokens, run?, step?, begin?, hmore] using hitems
  | .obj [] => rfl
  | .obj ((key, value) :: members) => by
      have hmembers :=
        run?_memberTokens [] stack ts ((key, value) :: members) (List.cons_ne_nil _ _)
      obtain ⟨more, hmore⟩ := exists_memberTokens_eq key value members
      simpa [tokens, run?, step?, begin?, hmore] using hmembers

theorem run?_itemTokens (done : List Json) (stack : List Frame) (ts : List Token) :
    (items : List Json) → items ≠ [] →
      run? (.nextValue (.items done :: stack)) (itemTokens items ++ .endArray :: ts) =
        run? (.complete (.arr (done.reverse ++ items)) stack) ts
  | [], hne => absurd rfl hne
  | [item], _ => by
      rw [itemTokens, run?_tokens]
      simp [run?, step?]
  | item :: next :: items, _ => by
      have hitems := run?_itemTokens (item :: done) stack ts (next :: items) (List.cons_ne_nil _ _)
      simp only [itemTokens, List.append_assoc, run?_tokens]
      simpa [run?, step?] using hitems

theorem run?_memberTokens (done : List (Option String × Json)) (stack : List Frame)
    (ts : List Token) :
    (members : List (Option String × Json)) → members ≠ [] →
      run? (.nextKey done stack) (memberTokens members ++ .endObject :: ts) =
        run? (.complete (.obj (done.reverse ++ members)) stack) ts
  | [], hne => absurd rfl hne
  | [(key, value)], _ => by
      simp [memberTokens, run?, step?, run?_tokens]
  | (key, value) :: next :: members, _ => by
      have hmembers :=
        run?_memberTokens ((key, value) :: done) stack ts (next :: members) (List.cons_ne_nil _ _)
      simpa [memberTokens, run?, step?, run?_tokens] using hmembers

end

end Progress

/-- What is written in a style that adds only blanks is read back. -/
theorem read?_write (hstyle : style.Plain) (depth : Nat) (document : Json) :
    read? (document.write style depth) = some document := by
  have hrun := Progress.run?_tokens [] [] document
  rw [List.append_nil] at hrun
  rw [read?, tokens?_write hstyle, Option.bind_some, hrun]
  rfl

end Monolith.Json
