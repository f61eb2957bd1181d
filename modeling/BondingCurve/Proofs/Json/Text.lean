import BondingCurve.Proofs.Json.Lexemes

/-!
# The text of a value is read back

From the lexemes of a value its builder makes the value again, whatever is open around it
(`Builder.resume_lexemes`). With what the lexer finds in the text of a value, reading undoes writing
(`ofText?_toText`), so two values that can be written never have the same text (`toText_injOn`).
-/

namespace BondingCurve
namespace Json

namespace Builder

variable {s : State} {l : Lexeme} {ls : List Lexeme} {stack : List Frame}

/-- The value of a sequence of lexemes of which `ls` are still to come. -/
def resume (s : State) (ls : List Lexeme) : Option Json := (ls.foldlM step s).bind finish

theorem resume_cons : resume s (l :: ls) = (step s l).bind (resume · ls) := by
  rw [resume, List.foldlM_cons]
  exact Option.bind_assoc ..

/-- A value begins with a lexeme that does not end an array. -/
theorem lexemes_eq_cons (j : Json) : ∃ l ls, j.lexemes = l :: ls ∧ l ≠ .endArray := by
  cases j with
  | null => exact ⟨_, _, rfl, nofun⟩
  | bool b => exact ⟨_, _, rfl, nofun⟩
  | number n => exact ⟨_, _, rfl, nofun⟩
  | string s => exact ⟨_, _, rfl, nofun⟩
  | array items => cases items <;> exact ⟨_, _, rfl, nofun⟩
  | object members => cases members <;> exact ⟨_, _, rfl, nofun⟩

/-- The first item of an array is read as any value. -/
theorem resume_valueOrEnd (j : Json) :
    resume ⟨stack, .valueOrEnd⟩ (j.lexemes ++ ls) = resume ⟨stack, .value⟩ (j.lexemes ++ ls) := by
  obtain ⟨l, rest, hl, hne⟩ := lexemes_eq_cons j
  rw [hl, List.cons_append, resume_cons, resume_cons]
  cases l with
  | endArray => exact absurd rfl hne
  | _ => rfl

mutual

theorem resume_lexemes : ∀ (j : Json) {stack : List Frame} {ls : List Lexeme},
    resume ⟨stack, .value⟩ (j.lexemes ++ ls) = resume (complete stack j) ls
  | .null, _, _ => rfl
  | .bool _, _, _ => rfl
  | .number _, _, _ => rfl
  | .string _, _, _ => rfl
  | .array [], _, _ => rfl
  | .array (j :: items), stack, ls =>
    calc resume ⟨stack, .value⟩
          (.beginArray :: j.lexemes ++ itemsLexemes items ++ [.endArray] ++ ls)
        = resume ⟨.array [] :: stack, .valueOrEnd⟩
            (j.lexemes ++ (itemsLexemes items ++ .endArray :: ls)) := by
          rw [List.cons_append, List.cons_append, List.cons_append, resume_cons, List.append_assoc,
            List.append_assoc]
          rfl
      _ = resume ⟨.array [] :: stack, .value⟩
            (j.lexemes ++ (itemsLexemes items ++ .endArray :: ls)) := resume_valueOrEnd j
      _ = resume ⟨.array [j] :: stack, .commaOrEnd⟩ (itemsLexemes items ++ .endArray :: ls) :=
          resume_lexemes j
      _ = resume (complete stack (.array ([j].reverse ++ items))) ls := resume_itemsLexemes items
  | .object [], _, _ => rfl
  | .object ((name, j) :: members), stack, ls =>
    calc resume ⟨stack, .value⟩ (.beginObject :: .string name :: .colon :: j.lexemes ++
          membersLexemes members ++ [.endObject] ++ ls)
        = resume ⟨.object [] name :: stack, .value⟩
            (j.lexemes ++ (membersLexemes members ++ .endObject :: ls)) := by
          simp only [List.cons_append, List.append_assoc, List.nil_append]
          rw [resume_cons]
          rfl
      _ = resume ⟨.object [(name, j)] name :: stack, .commaOrEnd⟩
            (membersLexemes members ++ .endObject :: ls) := resume_lexemes j
      _ = resume (complete stack (.object ([(name, j)].reverse ++ members))) ls :=
          resume_membersLexemes members

/-- The items behind the ones that are done, and the end of the array. -/
theorem resume_itemsLexemes : ∀ (items : List Json) {done : List Json} {stack : List Frame}
    {ls : List Lexeme},
    resume ⟨.array done :: stack, .commaOrEnd⟩ (itemsLexemes items ++ .endArray :: ls) =
      resume (complete stack (.array (done.reverse ++ items))) ls
  | [], done, stack, ls => by
    rw [List.append_nil]
    rfl
  | j :: items, done, stack, ls =>
    calc resume ⟨.array done :: stack, .commaOrEnd⟩
          (.comma :: j.lexemes ++ itemsLexemes items ++ .endArray :: ls)
        = resume ⟨.array done :: stack, .value⟩
            (j.lexemes ++ (itemsLexemes items ++ .endArray :: ls)) := by
          rw [List.cons_append, List.cons_append, resume_cons, List.append_assoc]
          rfl
      _ = resume ⟨.array (j :: done) :: stack, .commaOrEnd⟩
            (itemsLexemes items ++ .endArray :: ls) := resume_lexemes j
      _ = resume (complete stack (.array ((j :: done).reverse ++ items))) ls :=
          resume_itemsLexemes items
      _ = _ := by rw [List.reverse_cons, List.append_assoc, List.singleton_append]

/-- The members behind the ones that are done, and the end of the object. -/
theorem resume_membersLexemes : ∀ (members : List (Text × Json)) {done : List (Text × Json)}
    {name : Text} {stack : List Frame} {ls : List Lexeme},
    resume ⟨.object done name :: stack, .commaOrEnd⟩ (membersLexemes members ++ .endObject :: ls) =
      resume (complete stack (.object (done.reverse ++ members))) ls
  | [], done, _, stack, ls => by
    rw [List.append_nil]
    rfl
  | (name, j) :: members, done, last, stack, ls =>
    calc resume ⟨.object done last :: stack, .commaOrEnd⟩
          (.comma :: .string name :: .colon :: j.lexemes ++ membersLexemes members ++
            .endObject :: ls)
        = resume ⟨.object done name :: stack, .value⟩
            (j.lexemes ++ (membersLexemes members ++ .endObject :: ls)) := by
          simp only [List.cons_append, List.append_assoc]
          rw [resume_cons]
          rfl
      _ = resume ⟨.object ((name, j) :: done) name :: stack, .commaOrEnd⟩
            (membersLexemes members ++ .endObject :: ls) := resume_lexemes j
      _ = resume (complete stack (.object (((name, j) :: done).reverse ++ members))) ls :=
          resume_membersLexemes members
      _ = _ := by rw [List.reverse_cons, List.append_assoc, List.singleton_append]

end

theorem run_lexemes (j : Json) : run j.lexemes = some j := by
  have hresume : run j.lexemes = resume ⟨[], .value⟩ (j.lexemes ++ []) := by
    rw [List.append_nil]
    rfl
  rw [hresume, resume_lexemes]
  rfl

end Builder

variable {j k : Json}

/-- Reading undoes writing. -/
theorem ofText?_toText (h : j.isWritable = true) : ofText? j.toText = some j := by
  rw [ofText?, toText, String.toList_ofList, Lexer.run_toChars h]
  exact Builder.run_lexemes j

theorem toText_injOn (hj : j.isWritable = true) (hk : k.isWritable = true)
    (h : j.toText = k.toText) : j = k := by
  have hread : some j = some k := by rw [← ofText?_toText hj, ← ofText?_toText hk, h]
  exact Option.some.inj hread

end Json
end BondingCurve
