import BondingCurve.Json.Form
import BondingCurve.Proofs.Decimal.Text
import BondingCurve.Proofs.Json.Text

/-!
# Forms that are read back

`Faithful` says of the form of a type that decoding it undoes encoding, for the values within the
limits of the type. What is read is the value again but for one thing: a decimal zero loses the sign
it may have (`readBack`). A form is plain: it can be written as text and read again with all its
strings and numbers, so the same holds of the text (`Faithful.readsBackAs`).

A record is found member by member, whatever its fields are, as long as their names differ
(`fields_record`), so a type with fields only has to name them.
-/

namespace BondingCurve

/-! ## Plain values -/

namespace Json

variable {j : Json} {n : Number} {string string' : Text → Bool} {number number' : Number → Bool}

mutual

/-- What holds of all texts and numbers in a value, weaker tests find as well. -/
theorem all_mono (hstring : ∀ s, string s = true → string' s = true)
    (hnumber : ∀ n, number n = true → number' n = true) :
    ∀ j : Json, j.all string number = true → j.all string' number' = true
  | .null, _ => rfl
  | .bool _, _ => rfl
  | .number n, h => hnumber n h
  | .string s, h => hstring s h
  | .array items, h => allItems_mono hstring hnumber items h
  | .object members, h => allMembers_mono hstring hnumber members h

theorem allItems_mono (hstring : ∀ s, string s = true → string' s = true)
    (hnumber : ∀ n, number n = true → number' n = true) :
    ∀ items : List Json, allItems string number items = true → allItems string' number' items = true
  | [], _ => rfl
  | j :: items, h => by
    obtain ⟨hj, hitems⟩ := Bool.and_eq_true_iff.1 h
    exact Bool.and_eq_true_iff.2
      ⟨all_mono hstring hnumber j hj, allItems_mono hstring hnumber items hitems⟩

theorem allMembers_mono (hstring : ∀ s, string s = true → string' s = true)
    (hnumber : ∀ n, number n = true → number' n = true) :
    ∀ members : List (Text × Json), allMembers string number members = true →
      allMembers string' number' members = true
  | [], _ => rfl
  | (name, j) :: members, h => by
    obtain ⟨hhead, hmembers⟩ := Bool.and_eq_true_iff.1 h
    obtain ⟨hname, hj⟩ := Bool.and_eq_true_iff.1 hhead
    refine Bool.and_eq_true_iff.2 ⟨Bool.and_eq_true_iff.2 ⟨hstring name hname, ?_⟩, ?_⟩
    · exact all_mono hstring hnumber j hj
    · exact allMembers_mono hstring hnumber members hmembers

end

/-- Every string inside says something, and every number is an integer of 64 bits. -/
def isPlain (j : Json) : Bool := j.all Option.isSome (·.toInt64?.isSome)

/-- A number that is read as an integer has digits. -/
theorem hasDigits_of_toInt64? (h : n.toInt64?.isSome = true) : n.hasDigits = true := by
  obtain ⟨i, hi⟩ := Option.isSome_iff_exists.1 h
  obtain ⟨i', hi', -⟩ := Option.bind_eq_some_iff.1 hi
  rw [Number.toInt?] at hi'
  split at hi'
  · next hwhole =>
    rw [Number.hasDigits, List.isEmpty_iff.1 hwhole.1]
    rfl
  · exact absurd hi' (Option.some_ne_none _).symm

/-- Plain numbers are in the form that they are written in. -/
theorem isWritable_of_isPlain (h : j.isPlain = true) : j.isWritable = true :=
  all_mono (fun _ _ => rfl) (fun _ => hasDigits_of_toInt64?) j h

/-- An integer within the bounds of an amount is plain. -/
theorem isPlain_int {i : ℤ} (hleast : Amount.least ≤ i) (hlt : i < significandBound) :
    (int i).isPlain = true := by
  show (Number.toInt64? (.ofInt i)).isSome = true
  rw [Number.toInt64?, Number.toInt?_ofInt, Option.bind_eq_bind, Option.bind_some,
    if_pos ⟨hleast, hlt⟩]
  rfl

theorem isPlain_nat {n : ℕ} (hlt : n < significandBound) : (int n).isPlain = true :=
  isPlain_int (Int.le_trans (by decide) (Int.natCast_nonneg n)) (Int.ofNat_lt.2 hlt)

/-- Text is plain, whatever it says. -/
theorem isPlain_text (s : String) : (text s).isPlain = true := rfl

/-- A record is plain when all its members are. -/
theorem isPlain_record (members : List (String × Json)) :
    (record members).isPlain = members.all (·.2.isPlain) := by
  show allMembers _ _ _ = _
  induction members with
  | nil => rfl
  | cons m members ih =>
    rw [List.map_cons, allMembers, List.all_cons, ih]
    rfl

end Json

namespace JsonForm

variable {α : Type} {names : List String} {name : String} {j : Json}
  {members : List (String × Json)}

/-! ## Records -/

/-- A member is among the values of its name. -/
theorem valuesOf_cons_self (name : String) (j : Json) (members : List (Json.Text × Json)) :
    valuesOf name ((some name, j) :: members) = j :: valuesOf name members := by
  simp [valuesOf]

/-- A member of another name is not. -/
theorem valuesOf_cons_of_ne {text : Json.Text} (h : text ≠ some name) (j : Json)
    (members : List (Json.Text × Json)) :
    valuesOf name ((text, j) :: members) = valuesOf name members := by
  simp [valuesOf, h]

/-- A name that no member has no value. -/
theorem valuesOf_of_not_mem (h : name ∉ members.map Prod.fst) :
    valuesOf name (members.map fun m => (some m.1, m.2)) = [] := by
  induction members with
  | nil => rfl
  | cons m members ih =>
    rw [List.map_cons, List.mem_cons, not_or] at h
    have hne : (some m.1 : Json.Text) ≠ some name := fun heq => h.1 (Option.some.inj heq).symm
    rw [List.map_cons, valuesOf_cons_of_ne hne, ih h.2]

/-- A name stands for the value of its only member. -/
theorem valuesOf_of_mem (hnodup : (members.map Prod.fst).Nodup) (h : (name, j) ∈ members) :
    valuesOf name (members.map fun m => (some m.1, m.2)) = [j] := by
  induction members with
  | nil => exact absurd h List.not_mem_nil
  | cons m members ih =>
    rw [List.map_cons, List.nodup_cons] at hnodup
    rcases List.mem_cons.1 h with rfl | hmem
    · rw [List.map_cons, valuesOf_cons_self, valuesOf_of_not_mem hnodup.1]
    · have hne : (some m.1 : Json.Text) ≠ some name := fun heq =>
        hnodup.1 (Option.some.inj heq ▸ List.mem_map_of_mem hmem)
      rw [List.map_cons, valuesOf_cons_of_ne hne, ih hnodup.2 hmem]

/-- Where no name comes twice, a reader that looks up names finds their members. -/
theorem mapM_valuesOf (hnodup : (members.map Prod.fst).Nodup) {wanted : List (String × Json)}
    (h : ∀ m ∈ wanted, m ∈ members) :
    ((wanted.map Prod.fst).mapM fun name =>
      match valuesOf name (members.map fun m => (some m.1, m.2)) with
      | [] => some none
      | [j] => some (some j)
      | _ => none) = some (wanted.map (some ·.2)) := by
  induction wanted with
  | nil => rfl
  | cons m wanted ih =>
    obtain ⟨hm, hwanted⟩ := List.forall_mem_cons.1 h
    rw [List.map_cons, List.mapM_cons, valuesOf_of_mem hnodup hm, ih hwanted]
    rfl

/-- The fields of a record are the values of its members. -/
theorem fields_record (hnames : members.map Prod.fst = names) (hnodup : names.Nodup) :
    fields names (.record members) = some (members.map (some ·.2)) := by
  subst hnames
  have hsome : (members.map fun m => ((some m.1 : Json.Text), m.2)).all (·.1.isSome) = true := by
    simp
  show fieldsOfMembers _ (members.map fun m => (some m.1, m.2)) = _
  rw [fieldsOfMembers, if_pos hsome]
  exact mapM_valuesOf hnodup fun _ hm => hm

/-- The fields of a record that was written are its members, in the order that they are asked for.
-/
theorem bind_fields_record {β : Type} (hnames : members.map Prod.fst = names) (hnodup : names.Nodup)
    (f : List (Option Json) → Option β) :
    (fields names (.record members)).bind f = f (members.map (some ·.2)) := by
  rw [fields_record hnames hnodup, Option.bind_some]

/-! ## Integers -/

/-- An integer within the bounds of a reader is read back. -/
theorem decodeInt_int {least greatest i : ℤ} (h : least ≤ i ∧ i ≤ greatest) :
    decodeInt least greatest (.int i) = some i := by
  show (Json.Number.toInt? (.ofInt i)).bind _ = _
  rw [Json.Number.toInt?_ofInt, Option.bind_some, if_pos h]

/-- So is a natural number below its bound. -/
theorem decodeNat_int {bound n : ℕ} (h : n < bound) : decodeNat bound (.int n) = some n := by
  rw [decodeNat, decodeInt_int (by omega)]
  rfl

/-! ## Faithful forms -/

/-- A type whose values are read back as they were written, up to what its text does not keep. -/
class Faithful (α : Type) [JsonForm α] where
  /-- The value is within the limits of its type. -/
  Fits : α → Prop
  /-- What is read for a value. -/
  readBack : α → α := id
  decode_encode : ∀ {v : α}, Fits v → decode (encode v) = some (readBack v)
  isPlain_encode : ∀ {v : α}, Fits v → (encode v).isPlain = true

/-- A value is read as `w` from its form, and from the text of its form. -/
def ReadsBackAs [JsonForm α] (v w : α) : Prop :=
  decode (encode v) = some w ∧ (Json.ofText? (encode v).toText).bind decode = some w

namespace Faithful

variable [JsonForm α] [Faithful α] {v : α}

/-- A field that was written is there, with the value it has. -/
theorem field_encode (h : Fits v) : field (some (encode v)) = some (readBack v) := decode_encode h

/-- What a faithful type writes is in the form that the printer writes. -/
theorem isWritable_encode (h : Fits v) : (encode v).isWritable = true :=
  Json.isWritable_of_isPlain (isPlain_encode h)

/-- The text of a form says as much as the form. -/
theorem readsBackAs (h : Fits v) : ReadsBackAs v (readBack v) := by
  refine ⟨decode_encode h, ?_⟩
  rw [Json.ofText?_toText (isWritable_encode h), Option.bind_some, decode_encode h]

instance : Faithful Bool where
  Fits _ := True
  decode_encode _ := rfl
  isPlain_encode _ := rfl

instance : Faithful String where
  Fits _ := True
  decode_encode _ := rfl
  isPlain_encode _ := rfl

instance : Faithful Amount where
  Fits := Amount.InRange
  decode_encode h := decodeInt_int h
  isPlain_encode h := Json.isPlain_int h.1 (h.2.trans_lt (by decide))

instance : Faithful Decimal where
  Fits := Decimal.Valid
  readBack := Decimal.unsigned
  decode_encode h := Decimal.ofText?_toText h
  isPlain_encode _ := rfl

end Faithful
end JsonForm
end BondingCurve
