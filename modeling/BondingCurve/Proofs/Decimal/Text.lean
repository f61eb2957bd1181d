import BondingCurve.Decimal.Text
import BondingCurve.Proofs.Decimal.Value

/-!
# The text of a decimal is read back

A decimal is written with all its decimals, so that reading its text gives coefficient and scale
again, trailing zeros included (`ofText?_toText`). The reader takes one digit at a time and gives up
where the coefficient or the scale would grow too large. In front of the end of a number both are
smaller than behind it (`le_ofDigitChars`), so for the text of a valid decimal it never does
(`readUnsigned_append`). What the text of a zero does not bring back is a minus sign in front of it
(`unsigned`).
-/

namespace BondingCurve
namespace Decimal

variable {d : Decimal} {r : Reading} {c : Char} {cs ds : List Char}

/-- The same number without the sign that a zero may have. -/
def unsigned (d : Decimal) : Decimal := { d with negativeZero := false }

/-- Only a negative zero has a sign to lose. -/
theorem unsigned_of_not_negativeZero (h : d.negativeZero = false) : d.unsigned = d := by
  cases d
  simp_all [unsigned]

/-! ## Digits -/

theorem digit?_of_isDigit (h : c.isDigit) : digit? c = some (c.toNat - '0'.toNat) := by
  have hrange : '0' ≤ c ∧ c ≤ '9' := by
    simp only [Char.isDigit, Bool.and_eq_true, decide_eq_true_eq] at h
    exact h
  rw [digit?, if_pos hrange]

/-- A number grows with every digit read behind it. -/
theorem le_ofDigitChars (cs : List Char) (n : ℕ) : n ≤ Nat.ofDigitChars 10 cs n := by
  induction cs generalizing n with
  | nil => simp
  | cons c cs ih =>
    rw [Nat.ofDigitChars_cons]
    have := ih (10 * n + (c.toNat - '0'.toNat))
    omega

/-! ## Reading digits -/

/-- What a reader has seen behind some more digits. -/
def Reading.behind (r : Reading) (ds : List Char) : Reading where
  digits := Nat.ofDigitChars 10 ds r.digits
  scale := if r.point then r.scale + ds.length else r.scale
  point := r.point
  any := r.any || !ds.isEmpty

/-- Nothing behind a state leaves it. -/
@[simp] theorem Reading.behind_nil (r : Reading) : r.behind [] = r := by
  cases r
  simp [behind]

/-- A digit that leaves the coefficient in its bound is taken. -/
theorem Reading.push?_digit (hscale : r.point = false → r.scale = 0)
    (hbound : r.digits * 10 + (c.toNat - '0'.toNat) < bound) :
    r.push? (c.toNat - '0'.toNat) = some (r.behind [c]) := by
  rw [push?, if_pos hbound]
  obtain ⟨digits, scale, point, any⟩ := r
  cases point
  · simp_all [behind, Nat.ofDigitChars_cons, Nat.mul_comm]
  · simp [behind, Nat.ofDigitChars_cons, Nat.mul_comm]

/-- Digits can be read one after the other. -/
theorem Reading.behind_cons (r : Reading) (c : Char) (ds : List Char) :
    (r.behind [c]).behind ds = r.behind (c :: ds) := by
  obtain ⟨digits, scale, point, any⟩ := r
  cases point
  · simp [behind, Nat.ofDigitChars_cons]
  · simp [behind, Nat.ofDigitChars_cons, Nat.add_comm, Nat.add_left_comm]

/-- Digits are read one by one, as long as the last of them finds room. -/
theorem readUnsigned_append (hdigits : ∀ c ∈ ds, c.isDigit)
    (hscale : r.point = false → r.scale = 0)
    (hroom : r.point = true → r.scale + ds.length ≤ maxScale)
    (hbound : (r.behind ds).digits < bound) :
    readUnsigned r (ds ++ cs) = readUnsigned (r.behind ds) cs := by
  induction ds generalizing r with
  | nil => simp
  | cons c ds ih =>
    obtain ⟨hc, hdigits⟩ := List.forall_mem_cons.1 hdigits
    have hpush : r.digits * 10 + (c.toNat - '0'.toNat) < bound := by
      have hle := le_ofDigitChars ds (10 * r.digits + (c.toNat - '0'.toNat))
      have heq : (r.behind (c :: ds)).digits =
        Nat.ofDigitChars 10 ds (10 * r.digits + (c.toNat - '0'.toNat)) := Nat.ofDigitChars_cons
      omega
    have hnotFull : ¬(r.any ∧ r.point ∧ r.scale ≥ maxScale) := by
      rintro ⟨-, hpoint, hfull⟩
      have := hroom hpoint
      rw [List.length_cons] at this
      omega
    have hpoint : c ≠ '.' := by
      rintro rfl
      exact absurd hc (by decide)
    have hunderscore : c ≠ '_' := by
      rintro rfl
      exact absurd hc (by decide)
    rw [List.cons_append, readUnsigned, if_neg hnotFull, if_neg hpoint, if_neg hunderscore,
      digit?_of_isDigit hc]
    simp only [Option.bind_eq_bind, Option.bind_some, Reading.push?_digit hscale hpush]
    have hscale' : (r.behind [c]).point = false → (r.behind [c]).scale = 0 := by
      intro hpoint
      have hpoint' : ¬r.point = true := by
        rw [show r.point = false from hpoint]
        exact Bool.false_ne_true
      rw [Reading.behind, if_neg hpoint']
      exact hscale hpoint
    have hroom' : (r.behind [c]).point = true → (r.behind [c]).scale + ds.length ≤ maxScale := by
      intro hpoint
      have hle := hroom hpoint
      rw [List.length_cons] at hle
      have hnext : (r.behind [c]).scale = r.scale + 1 := if_pos hpoint
      omega
    rw [ih hdigits hscale' hroom', Reading.behind_cons]
    rwa [Reading.behind_cons]

/-- Digits at the end of a number. -/
theorem readUnsigned_digits (hdigits : ∀ c ∈ ds, c.isDigit)
    (hscale : r.point = false → r.scale = 0)
    (hroom : r.point = true → r.scale + ds.length ≤ maxScale)
    (hbound : (r.behind ds).digits < bound) (hany : (r.behind ds).any = true) :
    readUnsigned r ds = some ((r.behind ds).digits, (r.behind ds).scale) := by
  have happend : readUnsigned r (ds ++ []) = readUnsigned (r.behind ds) [] :=
    readUnsigned_append hdigits hscale hroom hbound
  rw [List.append_nil] at happend
  rw [happend, readUnsigned, if_pos hany]

/-- A row of digits below the bound is read as a whole number. -/
theorem readUnsigned_whole (hdigits : ∀ c ∈ ds, c.isDigit) (hne : ds ≠ [])
    (hbound : Nat.ofDigitChars 10 ds 0 < bound) :
    readUnsigned .start ds = some (Nat.ofDigitChars 10 ds 0, 0) := by
  refine readUnsigned_digits hdigits (fun _ => rfl) (fun h => absurd h (by decide)) hbound ?_
  show (false || !ds.isEmpty) = true
  simpa using hne

/-- Digits on both sides of a point. -/
theorem readUnsigned_point {whole rest : List Char} (hwhole : ∀ c ∈ whole, c.isDigit)
    (hne : whole ≠ []) (hrest : ∀ c ∈ rest, c.isDigit) (hroom : rest.length ≤ maxScale)
    (hbound : Nat.ofDigitChars 10 (whole ++ rest) 0 < bound) :
    readUnsigned .start (whole ++ '.' :: rest) =
      some (Nat.ofDigitChars 10 (whole ++ rest) 0, rest.length) := by
  rw [Nat.ofDigitChars_append] at hbound ⊢
  have hwholeBound : (Reading.start.behind whole).digits < bound :=
    (le_ofDigitChars rest _).trans_lt hbound
  have hany : (Reading.start.behind whole).any = true := by
    show (false || !whole.isEmpty) = true
    simpa using hne
  rw [readUnsigned_append hwhole (fun _ => rfl) (fun h => absurd h (by decide)) hwholeBound,
    readUnsigned, if_neg (by simp [Reading.behind, Reading.start]), if_pos rfl,
    if_neg (by simp [Reading.behind, Reading.start])]
  -- behind the point the coefficient goes on and the scale begins
  let behindPoint : Reading := { Reading.start.behind whole with point := true }
  have hscale : behindPoint.scale + rest.length = rest.length := Nat.zero_add _
  have hread := readUnsigned_digits (r := behindPoint) hrest (fun h => nomatch h)
    (fun _ => hscale.trans_le hroom) hbound (by
      show ((Reading.start.behind whole).any || !rest.isEmpty) = true
      rw [hany, Bool.true_or])
  exact hread.trans (congrArg (fun n => some (_, n)) hscale)

/-! ## The digits of a decimal -/

/-- The digits of a decimal, at least one in front of the point. -/
def digitChars (d : Decimal) : List Char :=
  (Nat.toDigits 10 d.magnitude).leftpad (d.scale + 1) '0'

/-- A decimal is written with a digit before the point, if need be a zero. -/
theorem scale_lt_length_digitChars (d : Decimal) : d.scale < d.digitChars.length := by
  rw [digitChars, List.length_leftpad]
  omega

/-- The digits of a decimal are digits. -/
theorem isDigit_digitChars (d : Decimal) : ∀ c ∈ d.digitChars, c.isDigit := by
  intro c hc
  rcases List.mem_append.1 hc with hc | hc
  · rw [(List.mem_replicate.1 hc).2]
    decide
  · exact Nat.isDigit_of_mem_toDigits (by decide) (by decide) hc

/-- The zeros in front do not change the number. -/
theorem ofDigitChars_digitChars (d : Decimal) :
    Nat.ofDigitChars 10 d.digitChars 0 = d.magnitude := by
  rw [digitChars, List.leftpad, Nat.ofDigitChars_append, Nat.ofDigitChars_replicate_zero,
    Nat.mul_zero, Nat.ofDigitChars_ten_toDigits]

/-- The text of a decimal without a sign. -/
def unsignedChars (d : Decimal) : List Char :=
  d.digitChars.take (d.digitChars.length - d.scale) ++
    if d.scale = 0 then [] else '.' :: d.digitChars.drop (d.digitChars.length - d.scale)

/-- A decimal is its sign and what is written behind. -/
theorem toChars_eq (d : Decimal) :
    d.toChars = (if d.coefficient < 0 ∨ d.negativeZero then ['-'] else []) ++ d.unsignedChars := by
  rw [toChars, unsignedChars]
  exact List.append_assoc ..

/-- The digits in front of the point. -/
theorem whole_ne_nil (d : Decimal) : d.digitChars.take (d.digitChars.length - d.scale) ≠ [] := by
  have hlength := d.scale_lt_length_digitChars
  intro h
  rcases List.take_eq_nil_iff.1 h with h | h
  · omega
  · rw [h] at hlength
    exact absurd hlength (Nat.not_lt_zero _)

/-- What stands behind the sign is read as the size and the scale that were written. -/
theorem readUnsigned_unsignedChars (h : d.Valid) :
    readUnsigned .start d.unsignedChars = some (d.magnitude, d.scale) := by
  have hwhole := d.whole_ne_nil
  have hdigits := d.isDigit_digitChars
  have hvalue := d.ofDigitChars_digitChars
  have hbound : Nat.ofDigitChars 10 d.digitChars 0 < bound := hvalue ▸ h.coefficient_lt
  rw [unsignedChars]
  split
  · next hscale =>
    rw [hscale, Nat.sub_zero, List.take_length] at hwhole ⊢
    rw [List.append_nil, readUnsigned_whole hdigits hwhole hbound, hvalue]
  · next hscale =>
    have hsplit := List.take_append_drop (d.digitChars.length - d.scale) d.digitChars
    have hrest : (d.digitChars.drop (d.digitChars.length - d.scale)).length = d.scale := by
      have := d.scale_lt_length_digitChars
      rw [List.length_drop]
      omega
    rw [readUnsigned_point (fun c hc => hdigits c (List.mem_of_mem_take hc)) hwhole
      (fun c hc => hdigits c (List.mem_of_mem_drop hc)) (hrest.trans_le h.scale_le)
      (by rwa [hsplit]), hsplit, hvalue, hrest]

/-! ## Signs -/

theorem ofPositional?_minus (cs : List Char) : ofPositional? ('-' :: cs) =
    (readUnsigned .start cs).map fun (n, s) => { coefficient := -1 * n, scale := s } := rfl

theorem ofPositional?_digit (hc : c.isDigit) : ofPositional? (c :: cs) =
    (readUnsigned .start (c :: cs)).map fun (n, s) => { coefficient := 1 * n, scale := s } := by
  unfold ofPositional?
  split
  · next heq =>
    cases heq
    exact absurd hc (by decide)
  · next heq =>
    cases heq
    exact absurd hc (by decide)
  · rfl

/-- The first character of a text without a sign is a digit. -/
theorem unsignedChars_eq_cons (d : Decimal) :
    ∃ c cs, d.unsignedChars = c :: cs ∧ c.isDigit = true := by
  obtain ⟨c, cs, hcs⟩ := List.exists_cons_of_ne_nil d.whole_ne_nil
  refine ⟨c, _, by rw [unsignedChars, hcs, List.cons_append], ?_⟩
  exact d.isDigit_digitChars c (List.mem_of_mem_take (hcs ▸ List.mem_cons_self))

/-- A decimal is read back from its text, but for the sign of a zero. -/
theorem ofPositional?_toChars (h : d.Valid) : ofPositional? d.toChars = some d.unsigned := by
  rw [toChars_eq]
  split
  · next hsign =>
    rw [List.singleton_append, ofPositional?_minus, readUnsigned_unsignedChars h]
    have hcoefficient : -1 * (d.magnitude : ℤ) = d.coefficient := by
      rcases hsign with hneg | hzero
      · rw [magnitude]
        omega
      · simp [magnitude, h.coefficient_eq_zero hzero]
    exact congrArg (fun n : ℤ => some (⟨n, d.scale, false⟩ : Decimal)) hcoefficient
  · next hsign =>
    obtain ⟨c, cs, hcs, hc⟩ := d.unsignedChars_eq_cons
    rw [List.nil_append, hcs, ofPositional?_digit hc, ← hcs, readUnsigned_unsignedChars h]
    have hcoefficient : 1 * (d.magnitude : ℤ) = d.coefficient := by
      have := (not_or.1 hsign).1
      rw [magnitude]
      omega
    exact congrArg (fun n : ℤ => some (⟨n, d.scale, false⟩ : Decimal)) hcoefficient

/-- Reading gives coefficient and scale of what was written. -/
theorem ofText?_toText (h : d.Valid) : ofText? d.toText = some d.unsigned := by
  rw [ofText?, toText, String.toList_ofList, ofChars?, ofPositional?_toChars h]
  rfl

example : ofText? (toText ⟨-1500, 3, false⟩) = some ⟨-1500, 3, false⟩ := by decide

end Decimal
end BondingCurve
