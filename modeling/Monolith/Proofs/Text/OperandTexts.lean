import Monolith.Operand
import Monolith.Proofs.Text.DelimitedTexts

/-! # Texts of operands

The text of a constant begins with its type. The characters behind the type tell which kind of
constant it is, and what is written from there on tells the rest of it, up to its end. So constants
can be nested without any marks, and operands with the same text are the same.
-/

namespace Monolith

variable {r s : List Char}

namespace Constant

/-! ## Bytes -/

theorem upperHexDigit_inj {a b : Nat} (ha : a < 16) (hb : b < 16)
    (h : upperHexDigit a = upperHexDigit b) : a = b := by
  have hall : ∀ a < 16, ∀ b < 16, upperHexDigit a = upperHexDigit b → a = b := by decide
  exact hall a ha b hb h

/-- A byte is written as a character of its own, or behind a backslash. -/
theorem byteChars_cases (byte : UInt8) :
    (∃ c, byteChars byte = [c] ∧ c ≠ '"' ∧ c ≠ '\\' ∧ c.toNat = byte.toNat) ∨
      byteChars byte =
        ['\\', upperHexDigit (byte.toNat / 16), upperHexDigit (byte.toNat % 16)] := by
  unfold byteChars
  dsimp only
  split
  next h =>
    have hvalid : byte.toNat.isValidChar := .inl (by omega)
    have hchar : Char.ofNat byte.toNat = Char.ofNatAux byte.toNat hvalid := dif_pos hvalid
    have hvalue : (Char.ofNat byte.toNat).toNat = byte.toNat := by
      rw [hchar]
      rfl
    refine .inl ⟨_, rfl, ?_, ?_, hvalue⟩
    · exact fun heq => h.2.2.1 (by rw [← hvalue, heq])
    · exact fun heq => h.2.2.2 (by rw [← hvalue, heq])
  next => exact .inr rfl

theorem byteChars_append_inj {a b : UInt8} (h : byteChars a ++ r = byteChars b ++ s) :
    a = b ∧ r = s := by
  rcases byteChars_cases a with ⟨c, ha, _, hc, hca⟩ | ha <;>
    rcases byteChars_cases b with ⟨d, hb, _, hd, hdb⟩ | hb <;> rw [ha, hb] at h
  · obtain ⟨rfl, hrest⟩ := List.cons.inj h
    exact ⟨UInt8.toNat_inj.mp (hca.symm.trans hdb), hrest⟩
  · exact absurd (List.cons.inj h).1 hc
  · exact absurd (List.cons.inj h).1.symm hd
  · simp only [List.cons_append, List.nil_append, List.cons.injEq, true_and] at h
    have ha := a.toNat_lt
    have hb := b.toNat_lt
    have hhigh := upperHexDigit_inj (by omega) (by omega) h.1
    have hlow := upperHexDigit_inj (by omega) (by omega) h.2.1
    exact ⟨UInt8.toNat_inj.mp (by omega), h.2.2⟩

/-- No byte is written with a quote, so a quote ends them. -/
theorem eq_of_flatMap_byteChars {as bs : List UInt8}
    (h : as.flatMap byteChars ++ '"' :: r = bs.flatMap byteChars ++ '"' :: s) : as = bs := by
  have hquote : ∀ (b : UInt8) (bs : List UInt8) (r s : List Char),
      '"' :: r ≠ (b :: bs).flatMap byteChars ++ s := by
    intro b bs r s heq
    rw [List.flatMap_cons] at heq
    rcases byteChars_cases b with ⟨c, hb, hc, _⟩ | hb <;> rw [hb] at heq
    · exact hc (List.cons.inj heq).1.symm
    · simp at heq
  induction as generalizing bs with
  | nil =>
      cases bs with
      | nil => rfl
      | cons b bs => exact absurd h (hquote b bs r _)
  | cons a as ih =>
      cases bs with
      | nil => exact absurd h.symm (hquote a as s _)
      | cons b bs =>
          simp only [List.flatMap_cons, List.append_assoc] at h
          obtain ⟨rfl, hrest⟩ := byteChars_append_inj h
          rw [ih hrest]

/-! ## Indices -/

theorem noDigit_indicesText (indices : List Int64) (rest : List Char) :
    NoDigit ((indicesText indices).toList ++ ')' :: rest) := by
  cases indices <;> simp [indicesText]

theorem eq_of_indicesText {is js : List Int64} {r s : List Char}
    (h : (indicesText is).toList ++ ')' :: r = (indicesText js).toList ++ ')' :: s) : is = js := by
  induction is generalizing js with
  | nil =>
      cases js with
      | nil => rfl
      | cons j js => simp [indicesText] at h
  | cons i is ih =>
      cases js with
      | nil => simp [indicesText] at h
      | cons j js =>
          simp only [indicesText, String.toList_append, List.append_assoc] at h
          obtain ⟨hindex, hrest⟩ := delimited_int i.toInt (noDigit_indicesText is r)
            (noDigit_indicesText js s) (List.append_cancel_left h)
          rw [Int64.toInt_inj.mp hindex, ih hrest]

/-! ## Headings -/

/-- What stands before bytes: the type that as many bytes have. -/
def bytesHeading (count : Nat) : String := "[" ++ toString count ++ " x i8]"

/-- What the text begins with. -/
def heading : Constant → String
  | .bytes data => bytesHeading data.length
  | c => c.ty.text

theorem toList_bytesHeading (count : Nat) :
    (bytesHeading count).toList = '[' :: ((toString count).toList ++
      ' ' :: 'x' :: ' ' :: ((Ty.int 8).text.toList ++ [']'])) := by
  have hbyte : (Ty.int 8).text.toList = ['i', '8'] := by decide
  simp [bytesHeading, hbyte]

/-- Only the type of the bytes is written like their heading. -/
theorem eq_bytesHeading {t : Ty} {count : Nat}
    (h : t.text.toList ++ ' ' :: r = (bytesHeading count).toList ++ ' ' :: s) :
    t.text = bytesHeading count := by
  cases t with
  | array element len =>
      simp only [Ty.toList_text_array, toList_bytesHeading, List.cons_append, List.append_assoc,
        List.cons.injEq, true_and] at h
      obtain ⟨rfl, hrest⟩ := delimited_nat len.toNat (by simp) (by simp) h
      simp only [List.cons.injEq, true_and] at hrest
      obtain ⟨rfl, _⟩ := Ty.delimited_text element (by simp) (by simp) hrest
      exact String.toList_inj.mp (by rw [Ty.toList_text_array, toList_bytesHeading])
  | struct fields packed => cases packed <;> simp [Ty.text, toList_bytesHeading] at h
  | _ => simp [Ty.text, toList_bytesHeading] at h

theorem heading_eq_or (c : Constant) :
    c.heading = c.ty.text ∨ ∃ data, c = .bytes data ∧ c.heading = bytesHeading data.length := by
  cases c with
  | bytes data => exact .inr ⟨data, rfl, rfl⟩
  | _ => exact .inl rfl

/-- Constants with one text begin with the same type. -/
theorem heading_eq_of_append {c d : Constant}
    (h : c.heading.toList ++ ' ' :: r = d.heading.toList ++ ' ' :: s) : c.heading = d.heading := by
  rcases c.heading_eq_or with hc | ⟨data, _, hc⟩ <;>
    rcases d.heading_eq_or with hd | ⟨more, _, hd⟩ <;> rw [hc, hd] at h ⊢
  · rw [(Ty.delimited_text c.ty (by simp) (by simp) h).1]
  · exact eq_bytesHeading h
  · exact (eq_bytesHeading h.symm).symm
  · simp only [toList_bytesHeading, List.cons_append, List.append_assoc, List.cons.injEq,
      true_and] at h
    rw [(delimited_nat data.length (by simp) (by simp) h).1]

/-! ## Kinds -/

inductive Kind where
  | number
  | null
  | undef
  | poison
  | bytes
  | elements
  | global
  | function
  | address
  | cast (op : CastOp)

def kind : Constant → Kind
  | .int .. => .number
  | .null => .null
  | .undef _ => .undef
  | .poison _ => .poison
  | .bytes _ => .bytes
  | .aggregate .. => .elements
  | .global _ => .global
  | .function _ => .function
  | .elementPtr .. => .address
  | .cast op .. => .cast op

/-- The kind of constant that is written behind its heading: one or two characters tell it. -/
def Kind.ofChars : List Char → Kind
  | 'n' :: _ => .null
  | 'u' :: _ => .undef
  | 'p' :: 'o' :: _ => .poison
  | 'c' :: _ => .bytes
  | '[' :: _ => .elements
  | '\x7b' :: _ => .elements
  | '@' :: 'g' :: _ => .global
  | '@' :: 'f' :: _ => .function
  | 'g' :: _ => .address
  | 't' :: _ => .cast .trunc
  | 'z' :: _ => .cast .zext
  | 's' :: _ => .cast .sext
  | 'p' :: 't' :: _ => .cast .ptrToInt
  | 'i' :: _ => .cast .intToPtr
  | 'b' :: _ => .cast .bitcast
  | _ => .number

theorem Kind.ofChars_int (i : Int) (rest : List Char) :
    ofChars ((toString i).toList ++ rest) = .number := by
  obtain ⟨c, tail, hhead, hc⟩ := exists_head_int i
  have hsigned : (c == '-' || c.isDigit) = true := by
    rcases hc with ⟨rfl, _⟩ | hc
    · rfl
    · rw [hc, Bool.or_true]
  rw [hhead]
  unfold ofChars
  split
  -- all other kinds begin with neither a sign nor a digit
  all_goals first
    | rfl
    | rename_i heq
      rw [(List.cons.inj heq).1] at hsigned
      exact absurd hsigned (by decide)

/-! ## Spelling -/

theorem toList_text_int (ty : Ty) (value : Int64) :
    (int ty value).text.toList = ty.text.toList ++ ' ' :: (toString value.toInt).toList := by
  change (ty.text ++ " " ++ toString value.toInt).toList = _
  simp

theorem toList_text_bytes (data : List UInt8) :
    (bytes data).text.toList = (bytesHeading data.length).toList ++
      ' ' :: 'c' :: '"' :: (data.flatMap byteChars ++ ['"']) := by
  change (bytesText data).toList = _
  simp [bytesText, bytesHeading]

/-- Elements stand in brackets of one kind or the other. -/
theorem toList_text_aggregate (ty : Ty) :
    ∃ left right, (left = '[' ∨ left = '\x7b') ∧
      ∀ elements, (aggregate ty elements).text.toList = ty.text.toList ++ ' ' :: left :: ' ' ::
        ((listText elements).toList ++ [' ', right]) := by
  have htext : ∀ elements, (aggregate ty elements).text =
      if ty.isArray then ty.text ++ " [ " ++ listText elements ++ " ]"
      else ty.text ++ " \x7b " ++ listText elements ++ " \x7d" := fun _ => rfl
  by_cases harray : ty.isArray = true
  · exact ⟨'[', ']', .inl rfl, fun elements => by simp [htext, harray]⟩
  · exact ⟨'\x7b', '\x7d', .inr rfl, fun elements => by simp [htext, harray]⟩

theorem toList_text_global (id : GlobalId) :
    (global id).text.toList = Ty.ptr.text.toList ++ ' ' :: '@' :: 'g' :: (toString id).toList := by
  change ("ptr @g" ++ toString id).toList = _
  simp [Ty.text]

theorem toList_text_function (id : FunctionId) :
    (function id).text.toList =
      Ty.ptr.text.toList ++ ' ' :: '@' :: 'f' :: (toString id).toList := by
  change ("ptr @f" ++ toString id).toList = _
  simp [Ty.text]

theorem toList_text_elementPtr (source : Ty) (base : Constant) (indices : List Int64) :
    (elementPtr source base indices).text.toList =
      Ty.ptr.text.toList ++ ' ' :: ("getelementptr inbounds (".toList ++ (source.text.toList ++
        ',' :: ' ' :: (base.text.toList ++ ((indicesText indices).toList ++ [')'])))) := by
  change ("ptr getelementptr inbounds (" ++ source.text ++ ", " ++ base.text ++
    indicesText indices ++ ")").toList = _
  simp [Ty.text]

theorem toList_text_cast (op : CastOp) (value : Constant) (ty : Ty) :
    (cast op value ty).text.toList = ty.text.toList ++ ' ' :: (op.text.toList ++ ' ' :: '(' ::
      (value.text.toList ++ (" to ".toList ++ (ty.text.toList ++ [')'])))) := by
  change (ty.text ++ " " ++ op.text ++ " (" ++ value.text ++ " to " ++ ty.text ++ ")").toList = _
  simp

/-- The text is the heading, a blank, and what tells the kind. -/
theorem exists_content (c : Constant) :
    ∃ content, c.text.toList = c.heading.toList ++ ' ' :: content ∧
      ∀ rest, Kind.ofChars (content ++ rest) = c.kind := by
  cases c with
  | int ty value => exact ⟨_, toList_text_int ty value, Kind.ofChars_int value.toInt⟩
  | null => exact ⟨['n', 'u', 'l', 'l'], by decide, fun _ => rfl⟩
  | undef ty =>
      exact ⟨['u', 'n', 'd', 'e', 'f'], @String.toList_append ty.text " undef", fun _ => rfl⟩
  | poison ty =>
      exact ⟨['p', 'o', 'i', 's', 'o', 'n'], @String.toList_append ty.text " poison", fun _ => rfl⟩
  | bytes data => exact ⟨_, toList_text_bytes data, fun _ => rfl⟩
  | aggregate ty elements =>
      obtain ⟨left, right, hleft, htext⟩ := toList_text_aggregate ty
      refine ⟨_, htext elements, fun rest => ?_⟩
      rcases hleft with rfl | rfl <;> rfl
  | global id => exact ⟨_, toList_text_global id, fun _ => rfl⟩
  | function id => exact ⟨_, toList_text_function id, fun _ => rfl⟩
  | elementPtr source base indices =>
      exact ⟨_, toList_text_elementPtr source base indices, fun _ => by simp [Kind.ofChars, kind]⟩
  | cast op value ty =>
      refine ⟨_, toList_text_cast op value ty, fun _ => ?_⟩
      cases op <;> simp [CastOp.text, Kind.ofChars, kind]

/-- They are of the same kind. -/
theorem heading_kind_eq {c d : Constant} (h : c.text.toList ++ r = d.text.toList ++ s) :
    c.heading = d.heading ∧ c.kind = d.kind := by
  obtain ⟨first, hc, hkind⟩ := c.exists_content
  obtain ⟨second, hd, hkind'⟩ := d.exists_content
  rw [hc, hd, List.append_assoc, List.append_assoc] at h
  have hheading : c.heading = d.heading := heading_eq_of_append h
  rw [hheading] at h
  have hcontent : first ++ r = second ++ s := (List.cons.inj (List.append_cancel_left h)).2
  exact ⟨hheading, by rw [← hkind r, hcontent, hkind']⟩

theorem exists_head (c : Constant) : ∃ d rest, c.text.toList = d :: rest ∧ d ≠ ' ' ∧ d ≠ '%' := by
  obtain ⟨content, htext, _⟩ := c.exists_content
  obtain ⟨d, rest, hhead, hd⟩ : ∃ d rest, c.heading.toList = d :: rest ∧ d ≠ ' ' ∧ d ≠ '%' := by
    rcases c.heading_eq_or with hheading | ⟨data, _, hheading⟩ <;> rw [hheading]
    · exact c.ty.exists_head
    · exact ⟨'[', _, toList_bytesHeading data.length, by decide, by decide⟩
  exact ⟨d, rest ++ ' ' :: content, by rw [htext, hhead]; rfl, hd⟩

theorem separates_listText : Separates text listText where
  nil := rfl
  cons c cs := by
    cases cs with
    | nil => exact (List.append_nil _).symm
    | cons d cs =>
        change (c.text ++ ", " ++ listText (d :: cs)).toList = _
        simp [textBehind]
  head c := by
    obtain ⟨d, rest, hhead, hd, _⟩ := c.exists_head
    exact ⟨d, rest, hhead, hd⟩

/-! ## Constants and operands -/

mutual

/-- The text of a constant is told from what follows it. -/
theorem delimited_text : (c : Constant) → Delimited text c
  | .int ty value => by
      refine .of_eq fun d r s hr hs h => ?_
      obtain ⟨hheading, hkind⟩ := heading_kind_eq h
      cases d with
      | int other number =>
          obtain rfl := ty.delimited_text.eq_of_text_eq hheading
          simp only [toList_text_int, List.append_assoc, List.append_cancel_left_eq,
            List.cons_append, List.cons.injEq, true_and] at h
          rw [Int64.toInt_inj.mp (delimited_int value.toInt hr hs h).1]
      | _ => cases hkind
  | .null => by
      refine .of_eq fun d r s hr hs h => ?_
      have hkind := (heading_kind_eq h).2
      cases d with
      | null => rfl
      | _ => cases hkind
  | .undef ty => by
      refine .of_eq fun d r s hr hs h => ?_
      obtain ⟨hheading, hkind⟩ := heading_kind_eq h
      cases d with
      | undef other => exact congrArg undef (ty.delimited_text.eq_of_text_eq hheading)
      | _ => cases hkind
  | .poison ty => by
      refine .of_eq fun d r s hr hs h => ?_
      obtain ⟨hheading, hkind⟩ := heading_kind_eq h
      cases d with
      | poison other => exact congrArg poison (ty.delimited_text.eq_of_text_eq hheading)
      | _ => cases hkind
  | .bytes data => by
      refine .of_eq fun d r s hr hs h => ?_
      obtain ⟨hheading, hkind⟩ := heading_kind_eq h
      cases d with
      | bytes more =>
          replace hheading : bytesHeading data.length = bytesHeading more.length := hheading
          simp only [toList_text_bytes, hheading, List.append_assoc, List.append_cancel_left_eq,
            List.cons_append, List.cons.injEq, true_and] at h
          rw [eq_of_flatMap_byteChars h]
      | _ => cases hkind
  | .aggregate ty elements => by
      refine .of_eq fun d r s hr hs h => ?_
      obtain ⟨hheading, hkind⟩ := heading_kind_eq h
      cases d with
      | aggregate other more =>
          obtain rfl := ty.delimited_text.eq_of_text_eq hheading
          obtain ⟨left, right, _, htext⟩ := toList_text_aggregate ty
          simp only [htext, List.append_assoc, List.append_cancel_left_eq,
            List.cons_append, List.cons.injEq, true_and] at h
          rw [separates_listText.eq_of_append (delimited_texts elements) h]
      | _ => cases hkind
  | .global id => by
      refine .of_eq fun d r s hr hs h => ?_
      have hkind := (heading_kind_eq h).2
      cases d with
      | global other =>
          simp only [toList_text_global, List.append_assoc, List.append_cancel_left_eq,
            List.cons_append, List.cons.injEq, true_and] at h
          rw [(delimited_nat id hr hs h).1]
      | _ => cases hkind
  | .function id => by
      refine .of_eq fun d r s hr hs h => ?_
      have hkind := (heading_kind_eq h).2
      cases d with
      | function other =>
          simp only [toList_text_function, List.append_assoc, List.append_cancel_left_eq,
            List.cons_append, List.cons.injEq, true_and] at h
          rw [(delimited_nat id hr hs h).1]
      | _ => cases hkind
  | .elementPtr source base indices => by
      refine .of_eq fun d r s hr hs h => ?_
      have hkind := (heading_kind_eq h).2
      cases d with
      | elementPtr other start more =>
          simp only [toList_text_elementPtr, List.append_assoc, List.append_cancel_left_eq,
            List.cons_append, List.cons.injEq, true_and] at h
          obtain ⟨rfl, hrest⟩ := source.delimited_text (by simp) (by simp) h
          simp only [List.cons.injEq, true_and] at hrest
          obtain ⟨rfl, hindices⟩ := delimited_text base (noDigit_indicesText indices _)
            (noDigit_indicesText more _) hrest
          rw [eq_of_indicesText hindices]
      | _ => cases hkind
  | .cast op value ty => by
      refine .of_eq fun d r s hr hs h => ?_
      obtain ⟨hheading, hkind⟩ := heading_kind_eq h
      cases d with
      | cast other operand target =>
          obtain rfl := ty.delimited_text.eq_of_text_eq hheading
          obtain rfl := Kind.cast.inj hkind
          simp only [toList_text_cast, List.append_assoc, List.append_cancel_left_eq,
            List.cons_append, List.cons.injEq, true_and] at h
          rw [(delimited_text value (by simp) (by simp) h).1]
      | _ => cases hkind

theorem delimited_texts : (cs : List Constant) → ∀ c ∈ cs, Delimited text c
  | [] => by simp
  | c :: cs => List.forall_mem_cons.mpr ⟨delimited_text c, delimited_texts cs⟩

end

end Constant

namespace Operand

/-- So is the text of an operand. -/
theorem delimited_text (operand : Operand) : Delimited text operand := by
  -- only a variable begins with its sign
  have hsign : ∀ (id : ValueId) (c : Constant) (r s : List Char),
      (var id).text.toList ++ r ≠ (const c).text.toList ++ s := by
    intro id c r s h
    obtain ⟨d, rest, hhead, _, hd⟩ := c.exists_head
    simp only [text, String.toList_append, hhead] at h
    exact hd (List.cons.inj h).1.symm
  refine .of_eq fun other r s hr hs h => ?_
  cases operand with
  | var id =>
      cases other with
      | var id' =>
          simp only [text, String.toList_append, List.append_assoc] at h
          rw [(delimited_nat id hr hs (List.append_cancel_left h)).1]
      | const c => exact absurd h (hsign id c r s)
  | const c =>
      cases other with
      | var id => exact absurd h.symm (hsign id c s r)
      | const d => rw [(c.delimited_text hr hs h).1]

/-- Types with the same text are the same, and so are operands. -/
theorem text_unambiguous :
    (∀ s t : Ty, s.text = t.text ↔ s = t) ∧ ∀ a b : Operand, a.text = b.text ↔ a = b :=
  ⟨fun s _ => ⟨s.delimited_text.eq_of_text_eq, congrArg Ty.text⟩,
    fun a _ => ⟨a.delimited_text.eq_of_text_eq, congrArg text⟩⟩

end Operand

end Monolith
