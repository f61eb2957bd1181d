import BondingCurve.Proofs.Json.Number

/-!
# The lexemes of a written value

A written value is a sequence of lexemes (`Json.lexemes`), and the lexer finds them in its text
(`Lexer.run_toChars`). The statements are about `Lexer.resume`, the lexer on the rest of a text, so
that they compose: what a lexer reads of a string or a punctuation mark it has read whatever comes
next, and of a number or a name if what comes next ends a word (`Ends`).

A string is given back character by character, whether it was escaped or not (`resume_escapeChar`),
and no character is half of a surrogate pair (`textOfUnits?_toNat`).
-/

namespace BondingCurve
namespace Json

/-! ## Characters -/

/-- A character is found again by its number. -/
theorem charOfNat?_toNat (c : Char) : charOfNat? c.toNat = some c := by
  have hvalid : c.toNat.isValidChar := c.valid
  rw [charOfNat?, if_pos hvalid, Char.ofNat_toNat]

/-- No character is half of a surrogate pair, so each stands for itself. -/
theorem textOfUnits?_toNat (cs : List Char) : textOfUnits? (cs.map Char.toNat) = some cs := by
  induction cs with
  | nil => rfl
  | cons c cs ih =>
    cases cs with
    | nil => simp [textOfUnits?, charOfNat?_toNat]
    | cons d cs =>
      have hsurrogate : ¬(0xD800 ≤ c.toNat ∧ c.toNat < 0xDC00 ∧ 0xDC00 ≤ d.toNat ∧
          d.toNat < 0xE000) := by
        rintro ⟨hlow, hhigh, -, -⟩
        have hvalid : c.toNat < 0xD800 ∨ 0xDFFF < c.toNat ∧ c.toNat < 0x110000 := c.valid
        omega
      rw [List.map_cons, List.map_cons, textOfUnits?, if_neg hsurrogate, charOfNat?_toNat,
        ← List.map_cons, ih]
      rfl

namespace Lexer

variable {s : State} {ls : List Lexeme} {c : Char} {cs w : List Char} {units : List ℕ} {j : Json}

/-- The lexemes of a text of which `cs` is still to come. -/
def resume (s : State) (cs : List Char) : Option (List Lexeme) := (cs.foldlM step s).bind finish

/-- A character is read by one step. -/
theorem resume_cons : resume s (c :: cs) = (step s c).bind (resume · cs) := by
  rw [resume, List.foldlM_cons]
  exact Option.bind_assoc ..

/-! ## Strings -/

/-- A letter that stands for a control character is read as that character. -/
theorem unescape?_of_controlLetter? {letter : Char} (h : controlLetter? c = some letter) :
    letter ≠ 'u' ∧ unescape? letter = some c := by
  unfold controlLetter? at h
  split at h <;> cases h <;> exact ⟨by decide, rfl⟩

/-- A hexadecimal digit is read as the number it stands for. -/
theorem hexDigit?_digitChar : ∀ n < 16, hexDigit? (Nat.digitChar n) = some n := by decide

/-- A character in a string is read as itself, however it is written. -/
theorem resume_escapeChar (c : Char) : resume ⟨.string units, ls⟩ (escapeChar c ++ cs) =
    resume ⟨.string (c.toNat :: units), ls⟩ cs := by
  unfold escapeChar
  split
  · next hquote =>
    subst hquote
    rfl
  split
  · next hbackslash =>
    subst hbackslash
    rfl
  split
  · next letter hletter =>
    obtain ⟨hu, hunescape⟩ := unescape?_of_controlLetter? hletter
    have hstep : step ⟨.escape units, ls⟩ letter = some ⟨.string (c.toNat :: units), ls⟩ := by
      simp [step, hu, hunescape]
    show resume ⟨.string units, ls⟩ ('\\' :: letter :: cs) = _
    rw [resume_cons]
    show resume ⟨.escape units, ls⟩ (letter :: cs) = _
    rw [resume_cons, hstep]
    rfl
  split
  · next hcontrol =>
    -- two digits are enough for a control character
    have hlt : c.toNat < 32 := hcontrol
    have hhigh := hexDigit?_digitChar (c.toNat / 16) (by omega)
    have hlow := hexDigit?_digitChar (c.toNat % 16) (by omega)
    have hvalue : c.toNat / 16 * 16 + c.toNat % 16 = c.toNat := by omega
    show resume ⟨.hex units 2 0, ls⟩
      (Nat.digitChar (c.toNat / 16) :: Nat.digitChar (c.toNat % 16) :: cs) = _
    simp [resume_cons, step, hhigh, hlow, hvalue]
  · next hquote hbackslash _ _ hcontrol =>
    show resume ⟨.string units, ls⟩ (c :: cs) = _
    rw [resume_cons, step]
    simp only [hquote, hbackslash, hcontrol, if_false]
    rfl

/-- A text in quotes is read up to its closing quote, with what was read of it before. -/
theorem resume_string (text : List Char) :
    resume ⟨.string units, ls⟩ (text.flatMap escapeChar ++ '"' :: cs) =
      resume ⟨.between,
        .string ((textOfUnits? (units.reverse ++ text.map Char.toNat)).map .ofList) :: ls⟩ cs := by
  induction text generalizing units with
  | nil =>
    rw [List.flatMap_nil, List.nil_append, resume_cons, List.map_nil, List.append_nil]
    rfl
  | cons c text ih =>
    rw [List.flatMap_cons, List.append_assoc, resume_escapeChar, ih, List.reverse_cons,
      List.append_assoc]
    rfl

/-- A string is read as it was written, also one that says nothing. -/
theorem resume_textChars (t : Text) : resume ⟨.between, ls⟩ (textChars t ++ cs) =
    resume ⟨.between, .string t :: ls⟩ cs := by
  cases t with
  | none => rfl
  | some s =>
    have hstart : resume ⟨.between, ls⟩ (textChars (some s) ++ cs) =
        resume ⟨.string [], ls⟩ (s.toList.flatMap escapeChar ++ '"' :: cs) := by
      rw [textChars, List.cons_append, List.cons_append, List.append_assoc, resume_cons]
      rfl
    rw [hstart, resume_string, List.reverse_nil, List.nil_append, textOfUnits?_toNat,
      Option.map_some, String.ofList_toList]

/-! ## Words -/

/-- What comes next ends a word. -/
def Ends (cs : List Char) : Prop := ∀ c ∈ cs.head?, endsWord c = true

/-- The end of the text ends a word. -/
theorem ends_nil : Ends [] := nofun

/-- So does a character that no word has. -/
theorem ends_cons (h : endsWord c = true) : Ends (c :: cs) := by
  intro d hd
  cases hd
  exact h

/-- Inside a word its characters are collected, last one first. -/
theorem resume_wordMode {chars : List Char} (hchars : ∀ c ∈ w, endsWord c = false) :
    resume ⟨.word chars, ls⟩ (w ++ cs) = resume ⟨.word (w.reverse ++ chars), ls⟩ cs := by
  induction w generalizing chars with
  | nil => rfl
  | cons c w ih =>
    obtain ⟨hc, hw⟩ := List.forall_mem_cons.1 hchars
    have hstep : step ⟨.word chars, ls⟩ c = some ⟨.word (c :: chars), ls⟩ := by
      simp [step, hc]
    rw [List.cons_append, resume_cons, hstep, Option.bind_some, ih hw, List.reverse_cons,
      List.append_assoc]
    rfl

/-- Between lexemes any other character begins a word. -/
theorem stepBetween_word (h : endsWord c = false) :
    stepBetween ls c = some ⟨.word [c], ls⟩ := by
  simp only [endsWord, Bool.or_eq_false_iff, beq_eq_false_iff_ne] at h
  obtain ⟨⟨hblank, hquote⟩, hmark⟩ := h
  have hnone : punctuation? c = none := by simpa using hmark
  simp [stepBetween, hblank, hquote, hnone]

/-- A number or a name is read where something ends it. -/
theorem resume_word (hw : word? w = some j) (hne : w ≠ [])
    (hchars : ∀ c ∈ w, endsWord c = false) (hends : Ends cs) :
    resume ⟨.between, ls⟩ (w ++ cs) = resume ⟨.between, .word j :: ls⟩ cs := by
  obtain ⟨c, w, rfl⟩ := List.exists_cons_of_ne_nil hne
  obtain ⟨hc, hchars⟩ := List.forall_mem_cons.1 hchars
  have hstart : step ⟨.between, ls⟩ c = some ⟨.word [c], ls⟩ := stepBetween_word hc
  have hword : word? (w.reverse ++ [c]).reverse = some j := by
    rwa [← List.reverse_cons, List.reverse_reverse]
  rw [List.cons_append, resume_cons, hstart, Option.bind_some, resume_wordMode hchars]
  cases cs with
  | nil =>
    show (word? (w.reverse ++ [c]).reverse).map _ = _
    rw [hword]
    rfl
  | cons d cs =>
    have hd : endsWord d = true := hends d rfl
    have hstep : step ⟨.word (w.reverse ++ [c]), ls⟩ d = stepBetween (.word j :: ls) d := by
      simp only [step, hd, if_true, hword]
      rfl
    rw [resume_cons, resume_cons, hstep]
    rfl

end Lexer

/-! ## Values -/

/-- The digits behind the point are digits. -/
def Number.hasDigits (n : Number) : Bool := n.fraction.all (· < 10)

/-- Every number inside can be written. -/
def isWritable (j : Json) : Bool := j.all (fun _ => true) Number.hasDigits

mutual

/-- The lexemes that a value is written in. -/
def lexemes : Json → List Lexeme
  | .null => [.word .null]
  | .bool b => [.word (.bool b)]
  | .number n => [.word (.number n)]
  | .string s => [.string s]
  | .array [] => [.beginArray, .endArray]
  | .array (j :: items) => .beginArray :: j.lexemes ++ itemsLexemes items ++ [.endArray]
  | .object [] => [.beginObject, .endObject]
  | .object ((name, j) :: members) =>
    .beginObject :: .string name :: .colon :: j.lexemes ++ membersLexemes members ++ [.endObject]

/-- The items behind the first one. -/
def itemsLexemes : List Json → List Lexeme
  | [] => []
  | j :: items => .comma :: j.lexemes ++ itemsLexemes items

/-- The members behind the first one. -/
def membersLexemes : List (Text × Json) → List Lexeme
  | [] => []
  | (name, j) :: members =>
    .comma :: .string name :: .colon :: j.lexemes ++ membersLexemes members

end

namespace Lexer

/-- Behind an item comes a comma or the end of its array. -/
theorem ends_itemsChars (items : List Json) : Ends (itemsChars items ++ ']' :: cs) := by
  cases items with
  | nil => exact ends_cons rfl
  | cons j items => exact ends_cons rfl

/-- Behind a member comes a comma or the end of its object. -/
theorem ends_membersChars (members : List (Text × Json)) :
    Ends (membersChars members ++ '\x7d' :: cs) := by
  cases members with
  | nil => exact ends_cons rfl
  | cons m members => exact ends_cons rfl

/-- The name of a member and the colon behind it. -/
theorem resume_name (name : Text) : resume ⟨.between, ls⟩ (textChars name ++ ':' :: cs) =
    resume ⟨.between, .colon :: .string name :: ls⟩ cs := by
  rw [resume_textChars, resume_cons]
  rfl

/-- A word given character by character. -/
theorem resume_literal (hw : word? w = some j) (hne : w ≠ []) (hchars : w.all (!endsWord ·) = true)
    (hends : Ends cs) :
    resume ⟨.between, ls⟩ (w ++ cs) = resume ⟨.between, .word j :: ls⟩ cs := by
  refine resume_word hw hne (fun c hc => ?_) hends
  simpa using List.all_eq_true.1 hchars c hc

/-- A truth value is read as a word. -/
theorem resume_bool (b : Bool) (hends : Ends cs) :
    resume ⟨.between, ls⟩ ((Json.bool b).toChars ++ cs) =
      resume ⟨.between, .word (.bool b) :: ls⟩ cs := by
  cases b <;> exact resume_literal rfl nofun rfl hends

/-- A number is read as a word. -/
theorem resume_number {n : Number} (h : n.hasDigits = true) (hends : Ends cs) :
    resume ⟨.between, ls⟩ ((Json.number n).toChars ++ cs) =
      resume ⟨.between, .word (.number n) :: ls⟩ cs := by
  have hdigits : ∀ d ∈ n.fraction, d < 10 := by simpa [Number.hasDigits] using h
  have hne : numberChars n ≠ [] := by
    obtain ⟨c, cs, hcs, -⟩ := numberChars_eq_cons n
    exact hcs ▸ List.cons_ne_nil c cs
  exact resume_word (word?_numberChars hdigits) hne (endsWord_numberChars hdigits) hends

mutual

/-- The text of a value is read as its lexemes, whatever comes behind. -/
theorem resume_toChars : ∀ (j : Json) {ls : List Lexeme} {cs : List Char}, j.isWritable = true →
    Ends cs →
    resume ⟨.between, ls⟩ (j.toChars ++ cs) = resume ⟨.between, j.lexemes.reverse ++ ls⟩ cs
  | .null, _, _, _, hends => resume_literal rfl nofun rfl hends
  | .bool b, _, _, _, hends => resume_bool b hends
  | .number _, _, _, h, hends => resume_number h hends
  | .string s, _, _, _, _ => resume_textChars s
  | .array [], _, _, _, _ => rfl
  | .array (j :: items), ls, cs, h, _ => by
    obtain ⟨hj, hitems⟩ := Bool.and_eq_true_iff.1 h
    calc resume ⟨.between, ls⟩ ('[' :: j.toChars ++ itemsChars items ++ [']'] ++ cs)
        = resume ⟨.between, .beginArray :: ls⟩ (j.toChars ++ (itemsChars items ++ ']' :: cs)) := by
          rw [List.cons_append, List.cons_append, List.cons_append, resume_cons, List.append_assoc,
            List.append_assoc]
          rfl
      _ = resume ⟨.between, j.lexemes.reverse ++ .beginArray :: ls⟩
            (itemsChars items ++ ']' :: cs) := resume_toChars j hj (ends_itemsChars items)
      _ = resume ⟨.between, (itemsLexemes items).reverse ++
            (j.lexemes.reverse ++ .beginArray :: ls)⟩ (']' :: cs) := resume_itemsChars items hitems
      _ = _ := by
          rw [resume_cons]
          simp [lexemes, step, stepBetween, punctuation?, isBlank]
  | .object [], _, _, _, _ => rfl
  | .object ((name, j) :: members), ls, cs, h, _ => by
    obtain ⟨hj, hmembers⟩ := Bool.and_eq_true_iff.1 h
    calc resume ⟨.between, ls⟩ ('\x7b' :: textChars name ++ ':' :: j.toChars ++
          membersChars members ++ ['\x7d'] ++ cs)
        = resume ⟨.between, .beginObject :: ls⟩ (textChars name ++ (':' :: (j.toChars ++
            (membersChars members ++ '\x7d' :: cs)))) := by
          simp only [List.cons_append, List.append_assoc, List.nil_append]
          rw [resume_cons]
          rfl
      _ = resume ⟨.between, .colon :: .string name :: .beginObject :: ls⟩ (j.toChars ++
            (membersChars members ++ '\x7d' :: cs)) := resume_name name
      _ = resume ⟨.between, j.lexemes.reverse ++ .colon :: .string name :: .beginObject :: ls⟩
            (membersChars members ++ '\x7d' :: cs) :=
          resume_toChars j (Bool.and_eq_true_iff.1 hj).2 (ends_membersChars members)
      _ = resume ⟨.between, (membersLexemes members).reverse ++
            (j.lexemes.reverse ++ .colon :: .string name :: .beginObject :: ls)⟩ ('\x7d' :: cs) :=
          resume_membersChars members hmembers
      _ = _ := by
          rw [resume_cons]
          simp [lexemes, step, stepBetween, punctuation?, isBlank]

/-- So are the items of an array, up to its end. -/
theorem resume_itemsChars : ∀ (items : List Json) {ls : List Lexeme} {cs : List Char},
    allItems (fun _ => true) Number.hasDigits items = true →
    resume ⟨.between, ls⟩ (itemsChars items ++ ']' :: cs) =
      resume ⟨.between, (itemsLexemes items).reverse ++ ls⟩ (']' :: cs)
  | [], _, _, _ => rfl
  | j :: items, ls, cs, h => by
    obtain ⟨hj, hitems⟩ := Bool.and_eq_true_iff.1 h
    calc resume ⟨.between, ls⟩ (',' :: j.toChars ++ itemsChars items ++ ']' :: cs)
        = resume ⟨.between, .comma :: ls⟩ (j.toChars ++ (itemsChars items ++ ']' :: cs)) := by
          rw [List.cons_append, List.cons_append, resume_cons, List.append_assoc]
          rfl
      _ = resume ⟨.between, j.lexemes.reverse ++ .comma :: ls⟩ (itemsChars items ++ ']' :: cs) :=
          resume_toChars j hj (ends_itemsChars items)
      _ = resume ⟨.between, (itemsLexemes items).reverse ++ (j.lexemes.reverse ++ .comma :: ls)⟩
            (']' :: cs) := resume_itemsChars items hitems
      _ = _ := by simp [itemsLexemes]

/-- So are the members of an object. -/
theorem resume_membersChars : ∀ (members : List (Text × Json)) {ls : List Lexeme} {cs : List Char},
    allMembers (fun _ => true) Number.hasDigits members = true →
    resume ⟨.between, ls⟩ (membersChars members ++ '\x7d' :: cs) =
      resume ⟨.between, (membersLexemes members).reverse ++ ls⟩ ('\x7d' :: cs)
  | [], _, _, _ => rfl
  | (name, j) :: members, ls, cs, h => by
    obtain ⟨hj, hmembers⟩ := Bool.and_eq_true_iff.1 h
    calc resume ⟨.between, ls⟩ (',' :: textChars name ++ ':' :: j.toChars ++ membersChars members ++
          '\x7d' :: cs)
        = resume ⟨.between, .comma :: ls⟩ (textChars name ++ (':' :: (j.toChars ++
            (membersChars members ++ '\x7d' :: cs)))) := by
          simp only [List.cons_append, List.append_assoc]
          rw [resume_cons]
          rfl
      _ = resume ⟨.between, .colon :: .string name :: .comma :: ls⟩ (j.toChars ++
            (membersChars members ++ '\x7d' :: cs)) := resume_name name
      _ = resume ⟨.between, j.lexemes.reverse ++ .colon :: .string name :: .comma :: ls⟩
            (membersChars members ++ '\x7d' :: cs) :=
          resume_toChars j (Bool.and_eq_true_iff.1 hj).2 (ends_membersChars members)
      _ = resume ⟨.between, (membersLexemes members).reverse ++
            (j.lexemes.reverse ++ .colon :: .string name :: .comma :: ls)⟩ ('\x7d' :: cs) :=
          resume_membersChars members hmembers
      _ = _ := by simp [membersLexemes]

end

/-- The lexemes of a written value are found in its text. -/
theorem run_toChars {j : Json} (h : j.isWritable = true) : run j.toChars = some j.lexemes := by
  have hresume : run j.toChars = resume ⟨.between, []⟩ (j.toChars ++ []) := by
    rw [List.append_nil]
    rfl
  rw [hresume, resume_toChars j h ends_nil, List.append_nil]
  exact congrArg some j.lexemes.reverse_reverse

end Lexer
end Json
end BondingCurve
