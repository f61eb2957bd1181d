import BondingCurve.Json.Printer
import BondingCurve.Json.Reader
import Mathlib.Data.Nat.Notation
import Mathlib.Data.Int.Notation

/-!
# Number literals are read back

A number is written with the digits it has, those behind the point and those of its exponent
included, and all of them are read again (`number?_numberChars`). The reader looks for the mark of
the exponent first and for the point in what is in front of it; as digits are neither, each part
begins where it was written (`takeWhile_append_head`). A whole part is written without leading zeros
(`length_toDigits_of_head?_eq_zero`), and the reader allows none.

A word that is a number has no character that ends it, so the lexer takes it as one piece
(`endsWord_numberChars`).
-/

namespace BondingCurve
namespace Json

variable {c : Char} {cs : List Char} {n : Number}

/-! ## Splitting -/

section Splitting

variable {α : Type} {p : α → Bool} {xs ys : List α}

/-- A scanner takes all of `xs` when each of its characters passes and the one behind does not. -/
theorem takeWhile_append_head (hxs : ∀ x ∈ xs, p x) (hys : ∀ y ∈ ys.head?, p y = false) :
    (xs ++ ys).takeWhile p = xs := by
  rw [List.takeWhile_append_of_pos hxs]
  cases ys with
  | nil => rw [List.takeWhile_nil, List.append_nil]
  | cons y ys =>
    have hy : ¬p y = true := by simp [hys y rfl]
    rw [List.takeWhile_cons_of_neg hy, List.append_nil]

/-- What such a scanner leaves is all that stands behind. -/
theorem dropWhile_append_head (hxs : ∀ x ∈ xs, p x) (hys : ∀ y ∈ ys.head?, p y = false) :
    (xs ++ ys).dropWhile p = ys := by
  rw [List.dropWhile_append_of_pos hxs]
  cases ys with
  | nil => rw [List.dropWhile_nil]
  | cons y ys =>
    have hy : ¬p y = true := by simp [hys y rfl]
    rw [List.dropWhile_cons_of_neg hy]

end Splitting

/-! ## Digits -/

/-- The digits stand together in the order of characters. -/
theorem toNat_of_isDigit (h : c.isDigit) : 48 ≤ c.toNat ∧ c.toNat ≤ 57 := by
  simp only [Char.isDigit, Bool.and_eq_true, decide_eq_true_eq] at h
  exact h

/-- The number that a digit stands for. -/
def digitValue (c : Char) : ℕ := c.toNat - '0'.toNat

/-- A digit is read as the number it stands for. -/
theorem digit?_of_isDigit (h : c.isDigit) : digit? c = some (digitValue c) := by
  have hrange : '0' ≤ c ∧ c ≤ '9' := toNat_of_isDigit h
  rw [digit?, if_pos hrange, digitValue]

/-- A number is written in digits. -/
theorem isDigit_of_mem_toDigits {m : ℕ} : ∀ c ∈ Nat.toDigits 10 m, c.isDigit := fun _ hc =>
  Nat.isDigit_of_mem_toDigits (by decide) (by decide) hc

/-- Fraction digits are written as digits. -/
theorem isDigit_digitChars {ds : List ℕ} (h : ∀ d ∈ ds, d < 10) :
    ∀ c ∈ ds.map Nat.digitChar, c.isDigit := by
  simp only [List.forall_mem_map]
  intro d hd
  simpa using h d hd

/-- A row of digits is read digit by digit. -/
theorem mapM_digit? (h : ∀ c ∈ cs, c.isDigit) :
    cs.mapM digit? = some (cs.map digitValue) := by
  induction cs with
  | nil => rfl
  | cons c cs ih =>
    obtain ⟨hc, hcs⟩ := List.forall_mem_cons.1 h
    rw [List.mapM_cons, digit?_of_isDigit hc, ih hcs]
    rfl

/-- One digit or more can be read. -/
theorem digits?_of_isDigit (hne : cs ≠ []) (h : ∀ c ∈ cs, c.isDigit) :
    digits? cs = some (cs.map digitValue) := by
  have hempty : ¬cs.isEmpty = true := by simpa using hne
  rw [digits?, if_neg hempty, mapM_digit? h]

/-- The number of a row of digits is the one that the library reads. -/
theorem natOfDigits_map (cs : List Char) :
    natOfDigits (cs.map digitValue) = Nat.ofDigitChars 10 cs 0 := by
  rw [natOfDigits, List.foldl_map, Nat.ofDigitChars_eq_foldl]
  simp only [digitValue, Nat.mul_comm]

/-- A number has a first digit, zero included. -/
theorem toDigits_eq_cons (m : ℕ) : ∃ c cs, Nat.toDigits 10 m = c :: cs ∧ c.isDigit = true := by
  obtain ⟨c, cs, hcs⟩ := List.exists_cons_of_ne_nil (Nat.toDigits_ne_nil (b := 10) (n := m))
  exact ⟨c, cs, hcs, isDigit_of_mem_toDigits c (hcs ▸ List.mem_cons_self)⟩

/-- The digits of a number can be read. -/
theorem digits?_toDigits (n : ℕ) :
    digits? (Nat.toDigits 10 n) = some ((Nat.toDigits 10 n).map digitValue) :=
  digits?_of_isDigit Nat.toDigits_ne_nil isDigit_of_mem_toDigits

/-- What is read from the digits of a number is that number. -/
theorem natOfDigits_toDigits (n : ℕ) :
    natOfDigits ((Nat.toDigits 10 n).map digitValue) = n := by
  rw [natOfDigits_map, Nat.ofDigitChars_ten_toDigits]

/-- Only zero begins with a zero. -/
theorem length_toDigits_of_head?_eq_zero (n : ℕ) (h : (Nat.toDigits 10 n).head? = some '0') :
    (Nat.toDigits 10 n).length = 1 := by
  induction n using Nat.strongRecOn with
  | _ n ih =>
    rcases Nat.lt_or_ge n 10 with hsmall | hlarge
    · rw [Nat.toDigits_of_lt_base hsmall, List.length_singleton]
    · -- the digits in front of the last one begin with the same digit
      have hsome : (Nat.toDigits 10 (n / 10)).head?.isSome := by simp
      rw [Nat.toDigits_of_base_le (by decide) hlarge, List.head?_append,
        Option.or_of_isSome hsome] at h
      have hlength := ih (n / 10) (by omega) h
      have hsingle : n / 10 < 10 :=
        (Nat.length_toDigits_le_iff (b := 10) (k := 1) (by decide) (by decide)).1
          (Nat.le_of_eq hlength)
      rw [Nat.toDigits_of_lt_base hsingle] at h
      have hzero : n / 10 = 0 := Nat.digitChar_eq_zero.1 (Option.some.inj h)
      omega

/-- A number of more than one digit does not begin with a zero, which the reader would refuse. -/
theorem not_leading_zero (n : ℕ) :
    ¬(((Nat.toDigits 10 n).map digitValue).head? = some 0 ∧
      ((Nat.toDigits 10 n).map digitValue).length > 1) := by
  rintro ⟨hhead, hlength⟩
  obtain ⟨c, cs, hcs, hdigit⟩ := toDigits_eq_cons n
  rw [hcs, List.map_cons, List.head?_cons, Option.some.injEq] at hhead
  have hzero : c = '0' := by
    have hrange := toNat_of_isDigit hdigit
    have hle : c.toNat - 48 = 0 := hhead
    exact Char.toNat_inj.1 (show c.toNat = 48 by omega)
  have hone := length_toDigits_of_head?_eq_zero n (by rw [hcs, hzero]; rfl)
  rw [List.length_map] at hlength
  omega

/-- Fraction digits are read as they were, with their trailing zeros. -/
theorem digits?_digitChar (ds : List ℕ) (hne : ds ≠ []) (h : ∀ d ∈ ds, d < 10) :
    digits? (ds.map Nat.digitChar) = some ds := by
  rw [digits?_of_isDigit (by simpa using hne) (isDigit_digitChars h), List.map_map]
  congr 1
  exact (List.map_congr_left fun d hd => Nat.toNat_digitChar_sub_48_of_lt_ten (h d hd)).trans
    (List.map_id ds)

/-! ## The parts of a number -/

/-- A digit is no mark of an exponent, so the scanner for the whole part passes over it. -/
theorem isMark_of_isDigit (h : c.isDigit) : isMark c = false := by
  rw [isMark, Bool.or_eq_false_iff, beq_eq_false_iff_ne, beq_eq_false_iff_ne]
  constructor <;> rintro rfl <;> exact absurd h (by decide)

/-- A digit is not the point. -/
theorem ne_point_of_isDigit (h : c.isDigit) : c ≠ '.' := by
  rintro rfl
  exact absurd h (by decide)

/-- The characters of a fraction are a point and digits. -/
theorem mem_fractionChars {ds : List ℕ} (h : ∀ d ∈ ds, d < 10) (hc : c ∈ fractionChars ds) :
    c = '.' ∨ c.isDigit := by
  cases ds with
  | nil => exact absurd hc List.not_mem_nil
  | cons d ds =>
    rcases List.mem_cons.1 hc with rfl | hc
    · exact .inl rfl
    · exact .inr (isDigit_digitChars h c hc)

/-- A number without a sign is read as it is. -/
theorem signed?_natural (m : ℕ) : signed? (Nat.toDigits 10 m) = some (m : ℤ) := by
  obtain ⟨c, cs, hcs, hc⟩ := toDigits_eq_cons m
  have hread : signed? (Nat.toDigits 10 m) =
      (digits? (Nat.toDigits 10 m)).map fun ds => (natOfDigits ds : ℤ) := by
    rw [hcs]
    unfold signed?
    split
    · next heq =>
      cases heq
      exact absurd hc (by decide)
    · next heq =>
      cases heq
      exact absurd hc (by decide)
    · rfl
  rw [hread, digits?_toDigits, Option.map_some, natOfDigits_toDigits]

/-- An integer is read back from its text. -/
theorem signed?_toString (e : ℤ) : signed? (toString e).toList = some e := by
  rw [Int.toString_eq_repr, Int.repr_eq_if]
  split
  · next hpos =>
    rw [Nat.toList_repr, signed?_natural, Int.toNat_of_nonneg hpos]
  · next hneg =>
    rw [String.toList_append, Nat.toList_repr]
    show (digits? (Nat.toDigits 10 (-e).toNat)).map (fun ds => -(natOfDigits ds : ℤ)) = _
    rw [digits?_toDigits, Option.map_some, natOfDigits_toDigits]
    exact congrArg some (by omega)

/-- A fraction is read back digit by digit. -/
theorem fraction?_fractionChars {ds : List ℕ} (h : ∀ d ∈ ds, d < 10) :
    fraction? (fractionChars ds) = some ds := by
  cases ds with
  | nil => rfl
  | cons d ds => exact digits?_digitChar (d :: ds) nofun h

/-- An exponent is read back, or its absence. -/
theorem exponent?_exponentChars (e : Option ℤ) : exponent? (exponentChars e) = some e := by
  cases e with
  | none => rfl
  | some e =>
    show (signed? (toString e).toList).map some = _
    rw [signed?_toString, Option.map_some]

/-! ## Reading -/

/-- A number literal behind its sign, from its parts. -/
theorem unsignedNumber?_append {negative : Bool} {m : ℕ} {fraction : List ℕ} {exponent : Option ℤ}
    (h : ∀ d ∈ fraction, d < 10) :
    unsignedNumber? negative
      (Nat.toDigits 10 m ++ fractionChars fraction ++ exponentChars exponent) =
    some ⟨negative, m, fraction, exponent⟩ := by
  have hmantissa : ∀ c ∈ Nat.toDigits 10 m ++ fractionChars fraction, (!isMark c) = true := by
    intro c hc
    rcases List.mem_append.1 hc with hc | hc
    · rw [isMark_of_isDigit (isDigit_of_mem_toDigits c hc), Bool.not_false]
    · rcases mem_fractionChars h hc with rfl | hc
      · rfl
      · rw [isMark_of_isDigit hc, Bool.not_false]
  have hmark : ∀ c ∈ (exponentChars exponent).head?, (!isMark c) = false := by
    intro c hc
    cases exponent with
    | none => exact absurd hc (by simp [exponentChars])
    | some e =>
      cases hc
      rfl
  have hdigit : ∀ c ∈ Nat.toDigits 10 m, decide (c ≠ '.') = true := fun c hc =>
    decide_eq_true (ne_point_of_isDigit (isDigit_of_mem_toDigits c hc))
  have hpoint : ∀ c ∈ (fractionChars fraction).head?, decide (c ≠ '.') = false := by
    intro c hc
    cases fraction with
    | nil => exact absurd hc (by simp [fractionChars])
    | cons d ds =>
      cases hc
      rfl
  rw [unsignedNumber?]
  simp only [takeWhile_append_head hmantissa hmark, dropWhile_append_head hmantissa hmark,
    takeWhile_append_head hdigit hpoint, dropWhile_append_head hdigit hpoint, digits?_toDigits,
    fraction?_fractionChars h, exponent?_exponentChars, natOfDigits_toDigits,
    Option.bind_eq_bind, Option.bind_some, if_neg (not_leading_zero m)]
  rfl

/-- A number literal gives back the number that was written. -/
theorem number?_numberChars (h : ∀ d ∈ n.fraction, d < 10) : number? (numberChars n) = some n := by
  obtain ⟨negative, m, fraction, exponent⟩ := n
  cases negative with
  | true => exact unsignedNumber?_append h
  | false =>
    obtain ⟨c, cs, hcs, hc⟩ := toDigits_eq_cons m
    rw [← unsignedNumber?_append h]
    show number? (Nat.toDigits 10 m ++ fractionChars fraction ++ exponentChars exponent) = _
    rw [hcs]
    unfold number?
    split
    · next heq =>
      cases heq
      exact absurd hc (by decide)
    · rfl

/-! ## Words -/

/-- Every digit is the character of some number below ten. -/
theorem exists_digitChar (h : c.isDigit) : ∃ d < 10, Nat.digitChar d = c := by
  have hrange := toNat_of_isDigit h
  refine ⟨c.toNat - 48, by omega, Char.toNat_inj.1 ?_⟩
  rw [Nat.toNat_digitChar_of_lt_ten (by omega)]
  omega

/-- A number begins with a minus sign or a digit. -/
theorem numberChars_eq_cons (n : Number) :
    ∃ c cs, numberChars n = c :: cs ∧ (c = '-' ∨ c.isDigit = true) := by
  obtain ⟨negative, m, fraction, exponent⟩ := n
  cases negative with
  | true => exact ⟨'-', _, rfl, .inl rfl⟩
  | false =>
    obtain ⟨c, cs, hcs, hc⟩ := toDigits_eq_cons m
    refine ⟨c, cs ++ fractionChars fraction ++ exponentChars exponent, ?_, .inr hc⟩
    show Nat.toDigits 10 m ++ fractionChars fraction ++ exponentChars exponent = _
    rw [hcs, List.cons_append, List.cons_append]

/-- A number is none of the names. -/
theorem word?_numberChars (h : ∀ d ∈ n.fraction, d < 10) :
    word? (numberChars n) = some (.number n) := by
  obtain ⟨c, cs, hcs, hc⟩ := numberChars_eq_cons n
  have hname : c ≠ 'n' ∧ c ≠ 't' ∧ c ≠ 'f' := by
    rcases hc with rfl | hc
    · decide
    · refine ⟨?_, ?_, ?_⟩ <;> rintro rfl <;> exact absurd hc (by decide)
  have hword : word? (numberChars n) = (number? (numberChars n)).map .number := by
    rw [hcs]
    simp [word?, hname]
  rw [hword, number?_numberChars h, Option.map_some]

/-- A digit does not end a word. -/
theorem endsWord_of_isDigit (h : c.isDigit) : Lexer.endsWord c = false := by
  obtain ⟨d, hd, rfl⟩ := exists_digitChar h
  have hall : ∀ d < 10, Lexer.endsWord (Nat.digitChar d) = false := by decide
  exact hall d hd

/-- Nothing in an exponent ends a word, its sign included. -/
theorem endsWord_exponentChars (e : Option ℤ) (hc : c ∈ exponentChars e) :
    Lexer.endsWord c = false := by
  cases e with
  | none => exact absurd hc List.not_mem_nil
  | some e =>
    rcases List.mem_cons.1 hc with rfl | hc
    · rfl
    · rw [Int.toString_eq_repr, Int.repr_eq_if] at hc
      split at hc
      · rw [Nat.toList_repr] at hc
        exact endsWord_of_isDigit (isDigit_of_mem_toDigits c hc)
      · rw [String.toList_append, Nat.toList_repr] at hc
        rcases List.mem_append.1 hc with hc | hc
        · rw [List.mem_singleton.1 (show c ∈ ['-'] from hc)]
          rfl
        · exact endsWord_of_isDigit (isDigit_of_mem_toDigits c hc)

/-- Nothing in a number ends a word, so the lexer takes all of it at once. -/
theorem endsWord_numberChars (h : ∀ d ∈ n.fraction, d < 10) :
    ∀ c ∈ numberChars n, Lexer.endsWord c = false := by
  intro c hc
  rcases List.mem_append.1 hc with hc | hc
  · cases hnegative : n.negative with
    | true =>
      rw [hnegative, if_pos rfl] at hc
      rw [List.mem_singleton.1 hc]
      rfl
    | false =>
      rw [hnegative, if_neg Bool.false_ne_true] at hc
      exact absurd hc List.not_mem_nil
  · rcases List.mem_append.1 hc with hc | hc
    · rcases List.mem_append.1 hc with hc | hc
      · exact endsWord_of_isDigit (isDigit_of_mem_toDigits c hc)
      · rcases mem_fractionChars h hc with rfl | hc
        · rfl
        · exact endsWord_of_isDigit hc
    · exact endsWord_exponentChars n.exponent hc

end Json
end BondingCurve
