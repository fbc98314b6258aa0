import Mathlib.Tactic.Common
import Monolith.Ty.Text

/-! # Texts that end by themselves

A value is written so that its text can be told from what follows it: if the texts of two values
begin one text, the values are the same, and so is what follows them. Only numbers need some care,
since a digit behind a number would go on with it. Lists are separated by commas and end with a
blank, with which no member begins.
-/

namespace Monolith

/-- A number before this text ends there. -/
def NoDigit (rest : List Char) : Prop := ∀ c ∈ rest.head?, c.isDigit = false

@[simp]
theorem noDigit_nil : NoDigit [] := by simp [NoDigit]

@[simp]
theorem noDigit_cons {c : Char} {rest : List Char} :
    NoDigit (c :: rest) ↔ c.isDigit = false := by
  simp [NoDigit]

/-- The value is known, and so is what follows, from a text that its text begins. -/
def Delimited {α : Type} (print : α → String) (a : α) : Prop :=
  ∀ ⦃b : α⦄ ⦃r s : List Char⦄, NoDigit r → NoDigit s →
    (print a).toList ++ r = (print b).toList ++ s → a = b ∧ r = s

/-- Values with one text are the same. -/
theorem Delimited.eq_of_text_eq {α : Type} {print : α → String} {a b : α}
    (h : Delimited print a) (heq : print a = print b) : a = b :=
  (h noDigit_nil noDigit_nil (by rw [heq])).1

/-- What follows is known as soon as the value is. -/
theorem Delimited.of_eq {α : Type} {print : α → String} {a : α}
    (h : ∀ ⦃b : α⦄ ⦃r s : List Char⦄, NoDigit r → NoDigit s →
      (print a).toList ++ r = (print b).toList ++ s → a = b) : Delimited print a := by
  intro b r s hr hs heq
  obtain rfl := h hr hs heq
  exact ⟨rfl, List.append_cancel_left heq⟩

/-! ## Numbers -/

theorem takeWhile_toDigits_append (n : Nat) {rest : List Char} (h : NoDigit rest) :
    (Nat.toDigits 10 n ++ rest).takeWhile Char.isDigit = Nat.toDigits 10 n := by
  have hrest : rest.takeWhile Char.isDigit = [] := by
    cases rest with
    | nil => rfl
    | cons c rest => simp [noDigit_cons.mp h]
  have hdigits : ∀ c ∈ Nat.toDigits 10 n, c.isDigit = true :=
    fun c hc => Nat.isDigit_of_mem_toDigits (by decide) (by decide) hc
  rw [List.takeWhile_append_of_pos hdigits, hrest, List.append_nil]

/-- A number ends where no digit follows. -/
theorem delimited_nat (n : Nat) : Delimited (fun n : Nat => toString n) n := by
  refine .of_eq fun k r s hr hs h => ?_
  replace h : Nat.toDigits 10 n ++ r = Nat.toDigits 10 k ++ s := by
    rwa [← Nat.toList_repr, ← Nat.toList_repr]
  have hdigits : Nat.toDigits 10 n = Nat.toDigits 10 k := by
    rw [← takeWhile_toDigits_append n hr, h, takeWhile_toDigits_append k hs]
  have hvalue := @Nat.ofDigitChars_ten_toDigits n
  rwa [hdigits, Nat.ofDigitChars_ten_toDigits, eq_comm] at hvalue

theorem toList_negSucc (n : Nat) :
    (toString (Int.negSucc n)).toList = '-' :: (toString (n + 1)).toList :=
  @String.toList_append "-" (toString (n + 1))

/-- A number begins with a sign or a digit. -/
theorem exists_head_int (i : Int) :
    ∃ c rest, (toString i).toList = c :: rest ∧ (c = '-' ∧ i < 0 ∨ c.isDigit = true) := by
  cases i with
  | ofNat n =>
      have htext : (toString (Int.ofNat n)).toList = Nat.toDigits 10 n := Nat.toList_repr
      cases hdigits : Nat.toDigits 10 n with
      | nil => exact absurd hdigits Nat.toDigits_ne_nil
      | cons c rest =>
          have hc : c ∈ Nat.toDigits 10 n := hdigits ▸ List.mem_cons_self
          exact ⟨c, rest, htext.trans hdigits,
            .inr (Nat.isDigit_of_mem_toDigits (by decide) (by decide) hc)⟩
  | negSucc n => exact ⟨'-', (toString (n + 1)).toList, toList_negSucc n, .inl ⟨rfl, by omega⟩⟩

/-- So does a number with a sign. -/
theorem delimited_int (i : Int) : Delimited (fun i : Int => toString i) i := by
  -- a number that begins with its sign is none that begins with a digit
  have hsign : ∀ (n k : Nat) (r s : List Char),
      (toString (Int.ofNat n)).toList ++ r ≠ (toString (Int.negSucc k)).toList ++ s := by
    intro n k r s h
    obtain ⟨c, rest, hhead, hc⟩ := exists_head_int (Int.ofNat n)
    rw [hhead, toList_negSucc] at h
    obtain rfl := (List.cons.inj h).1
    rcases hc with ⟨_, hneg⟩ | hdigit
    · exact absurd hneg (Int.not_lt.mpr (Int.natCast_nonneg n))
    · exact absurd hdigit (by decide)
  refine .of_eq fun j r s hr hs h => ?_
  cases i with
  | ofNat n =>
      cases j with
      | ofNat k => exact congrArg Int.ofNat (delimited_nat n hr hs h).1
      | negSucc k => exact absurd h (hsign n k r s)
  | negSucc n =>
      cases j with
      | ofNat k => exact absurd h.symm (hsign k n s r)
      | negSucc k =>
          simp only [toList_negSucc, List.cons_append, List.cons.injEq, true_and] at h
          exact congrArg Int.negSucc (Nat.succ.inj (delimited_nat (n + 1) hr hs h).1)

/-! ## Lists -/

section

variable {α : Type} {print : α → String} {printAll : List α → String}

def textBehind (printAll : List α → String) : List α → List Char
  | [] => []
  | a :: as => ',' :: ' ' :: (printAll (a :: as)).toList

/-- The second function writes lists of what the first writes, separated by commas. No member
begins with a blank. -/
structure Separates (print : α → String) (printAll : List α → String) : Prop where
  nil : printAll [] = ""
  cons (a : α) (as : List α) :
    (printAll (a :: as)).toList = (print a).toList ++ textBehind printAll as
  head (a : α) : ∃ c rest, (print a).toList = c :: rest ∧ c ≠ ' '

theorem noDigit_textBehind (as : List α) (rest : List Char) :
    NoDigit (textBehind printAll as ++ ' ' :: rest) := by
  cases as <;> simp [textBehind]

namespace Separates

variable (hprint : Separates print printAll)

include hprint

theorem nil_ne_cons (a : α) (as : List α) (r s : List Char) :
    ' ' :: r ≠ (printAll (a :: as)).toList ++ s := by
  obtain ⟨c, rest, hhead, hc⟩ := hprint.head a
  rw [hprint.cons, hhead]
  exact fun h => hc (List.cons.inj h).1.symm

/-- If the members are known by their texts, so is a list that is followed by a blank. -/
theorem eq_of_append {as bs : List α} {r s : List Char} (has : ∀ a ∈ as, Delimited print a)
    (h : (printAll as).toList ++ ' ' :: r = (printAll bs).toList ++ ' ' :: s) : as = bs := by
  induction as generalizing bs with
  | nil =>
      cases bs with
      | nil => rfl
      | cons b bs =>
          rw [hprint.nil] at h
          exact absurd h (hprint.nil_ne_cons b bs r _)
  | cons a as ih =>
      cases bs with
      | nil =>
          rw [hprint.nil] at h
          exact absurd h.symm (hprint.nil_ne_cons a as s _)
      | cons b bs =>
          obtain ⟨ha, has⟩ := List.forall_mem_cons.mp has
          rw [hprint.cons, hprint.cons, List.append_assoc, List.append_assoc] at h
          obtain ⟨rfl, hbehind⟩ := ha (noDigit_textBehind as r) (noDigit_textBehind bs s) h
          -- a comma follows if there are more members, else a blank
          cases as with
          | nil =>
              cases bs with
              | nil => rfl
              | cons b bs => simp [textBehind] at hbehind
          | cons a' as =>
              cases bs with
              | nil => simp [textBehind] at hbehind
              | cons b bs =>
                  simp only [textBehind, List.cons_append, List.cons.injEq, true_and] at hbehind
                  rw [ih has hbehind]

end Separates

end

/-! ## Types -/

namespace Ty

/-- The text of a type begins with neither a blank nor a percent sign. -/
theorem exists_head (t : Ty) : ∃ c rest, t.text.toList = c :: rest ∧ c ≠ ' ' ∧ c ≠ '%' := by
  cases t with
  | struct fields packed => cases packed <;> simp [text]
  | _ => simp [text]

/-- Types are separated by commas. -/
theorem separates_listText : Separates text listText where
  nil := by simp [listText]
  cons t ts := by cases ts <;> simp [listText, textBehind]
  head t := by
    obtain ⟨c, rest, hhead, hc, _⟩ := t.exists_head
    exact ⟨c, rest, hhead, hc⟩

theorem toList_text_array (element : Ty) (len : UInt64) :
    (Ty.array element len).text.toList = '[' ::
      ((toString len.toNat).toList ++ ' ' :: 'x' :: ' ' :: (element.text.toList ++ [']'])) := by
  simp [text]

mutual

/-- The text of a type is told from what follows it. -/
theorem delimited_text : (t : Ty) → Delimited text t
  | .void => by
      refine .of_eq fun u r s hr hs h => ?_
      cases u with
      | void => rfl
      | struct fields packed => cases packed <;> simp [text] at h
      | _ => simp [text] at h
  | .ptr => by
      refine .of_eq fun u r s hr hs h => ?_
      cases u with
      | ptr => rfl
      | struct fields packed => cases packed <;> simp [text] at h
      | _ => simp [text] at h
  | .int bits => by
      refine .of_eq fun u r s hr hs h => ?_
      cases u with
      | int other =>
          simp only [text, String.toList_append, List.append_assoc] at h
          have hbits := (delimited_nat bits.toNat hr hs (List.append_cancel_left h)).1
          rw [UInt32.toNat_inj.mp hbits]
      | struct fields packed => cases packed <;> simp [text] at h
      | _ => simp [text] at h
  | .array element len => by
      refine .of_eq fun u r s hr hs h => ?_
      cases u with
      | array other count =>
          simp only [toList_text_array, List.cons_append, List.append_assoc, List.cons.injEq,
            true_and] at h
          obtain ⟨hlen, hrest⟩ := delimited_nat len.toNat (by simp) (by simp) h
          simp only [List.cons.injEq, true_and] at hrest
          have helement := (delimited_text element (by simp) (by simp) hrest).1
          rw [UInt64.toNat_inj.mp hlen, helement]
      | struct fields packed => cases packed <;> simp [text] at h
      | _ => simp [text] at h
  | .struct fields false => by
      refine .of_eq fun u r s hr hs h => ?_
      cases u with
      | struct others packed =>
          cases packed with
          | false =>
              simp only [text, String.toList_append, List.append_assoc] at h
              rw [separates_listText.eq_of_append (delimited_texts fields)
                (List.append_cancel_left h)]
          | true => simp [text] at h
      | _ => simp [text] at h
  | .struct fields true => by
      refine .of_eq fun u r s hr hs h => ?_
      cases u with
      | struct others packed =>
          cases packed with
          | false => simp [text] at h
          | true =>
              simp only [text, String.toList_append, List.append_assoc] at h
              rw [separates_listText.eq_of_append (delimited_texts fields)
                (List.append_cancel_left h)]
      | _ => simp [text] at h

theorem delimited_texts : (ts : List Ty) → ∀ t ∈ ts, Delimited text t
  | [] => by simp
  | t :: ts => List.forall_mem_cons.mpr ⟨delimited_text t, delimited_texts ts⟩

end

end Ty

end Monolith
