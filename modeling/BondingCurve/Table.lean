/-!
# Tables

A table holds at most one row for a key and lists its rows in key order. Both follow from one
invariant, strictly ascending keys, that is part of the type. What a table says is its look-up
`Table.find?`: `find?_insert`, `find?_erase_self` and `find?_erase_of_ne` give it after a change,
and `find?_eq_some_iff` reads it as membership in the rows.
-/

namespace BondingCurve

/-- Rows in strictly ascending order of their keys. -/
structure Table (κ α : Type) [Ord κ] where
  rows : List (κ × α)
  ascending : rows.Pairwise fun a b => compare a.1 b.1 = .lt

namespace Table

variable {κ α : Type} [Ord κ]

instance [DecidableEq κ] [DecidableEq α] : DecidableEq (Table κ α) := fun s t =>
  decidable_of_iff (s.rows = t.rows) ⟨fun h => by cases s; cases t; simp_all, fun h => h ▸ rfl⟩

instance [Repr κ] [Repr α] : Repr (Table κ α) := ⟨fun t n => reprPrec t.rows n⟩

/-- The table without rows. -/
def empty : Table κ α := ⟨[], .nil⟩

/-- The number of rows, which is the number of keys. -/
def size (t : Table κ α) : Nat := t.rows.length

def isEmpty (t : Table κ α) : Bool := t.rows.isEmpty

/-- The rows' values in key order. -/
def values (t : Table κ α) : List α := t.rows.map (·.2)

/-- The value that a key has, if it has a row. -/
def find? (t : Table κ α) (k : κ) : Option α :=
  (t.rows.find? fun r => compare k r.1 == .eq).map (·.2)

/-- Whether a key has a row. -/
def contains (t : Table κ α) (k : κ) : Bool := (t.find? k).isSome

/-! ## Changing a row -/

/-- The row `(k, v)` at its place among `rows`, instead of one with the same key. -/
def place (k : κ) (v : α) : List (κ × α) → List (κ × α)
  | [] => [(k, v)]
  | r :: rows =>
    match compare k r.1 with
    | .lt => (k, v) :: r :: rows
    | .eq => (k, v) :: rows
    | .gt => r :: place k v rows

/-- Placing a row brings in that row and no other. -/
theorem mem_of_mem_place {k : κ} {v : α} {rows : List (κ × α)} {r : κ × α}
    (h : r ∈ place k v rows) : r = (k, v) ∨ r ∈ rows := by
  induction rows with
  | nil => simpa [place] using h
  | cons x rows ih =>
    unfold place at h
    split at h
    · simpa using h
    · exact (List.mem_cons.1 h).imp_right (List.mem_cons_of_mem _)
    · rcases List.mem_cons.1 h with rfl | h
      · exact .inr List.mem_cons_self
      · exact (ih h).imp_right (List.mem_cons_of_mem _)

/-- A row placed by its key leaves the keys ascending, and each of them in one row. -/
theorem ascending_place [Std.TransOrd κ] [Std.LawfulEqOrd κ] (k : κ) (v : α)
    {rows : List (κ × α)} (h : rows.Pairwise fun a b => compare a.1 b.1 = .lt) :
    (place k v rows).Pairwise fun a b => compare a.1 b.1 = .lt := by
  induction rows with
  | nil => simp [place]
  | cons x rows ih =>
    obtain ⟨hx, hrows⟩ := List.pairwise_cons.1 h
    unfold place
    split
    · next hk =>
      refine List.pairwise_cons.2 ⟨fun r hr => ?_, h⟩
      rcases List.mem_cons.1 hr with rfl | hr
      · exact hk
      · exact Std.TransCmp.lt_trans hk (hx r hr)
    · next hk =>
      have : k = x.1 := Std.LawfulEqOrd.eq_of_compare hk
      exact List.pairwise_cons.2 ⟨fun r hr => this ▸ hx r hr, hrows⟩
    · next hk =>
      refine List.pairwise_cons.2 ⟨fun r hr => ?_, ih hrows⟩
      rcases mem_of_mem_place hr with rfl | hr
      · exact Std.OrientedCmp.lt_of_gt hk
      · exact hx r hr

/-- The table in which `k` has the value `v`, whatever it had before. -/
def insert [Std.TransOrd κ] [Std.LawfulEqOrd κ] (t : Table κ α) (k : κ) (v : α) : Table κ α :=
  ⟨place k v t.rows, ascending_place k v t.ascending⟩

/-- The table without the row of `k`, if it had one. -/
def erase (t : Table κ α) (k : κ) : Table κ α :=
  ⟨t.rows.filter fun r => compare k r.1 != .eq, t.ascending.filter _⟩

/-! ## Look-ups after a change -/

@[simp] theorem find?_empty (k : κ) : (empty : Table κ α).find? k = none := rfl

/-- An erased key has no value. -/
@[simp] theorem find?_erase_self (t : Table κ α) (k : κ) : (t.erase k).find? k = none := by
  simp [find?, erase, List.find?_eq_none]

section Lawful

variable [Std.LawfulEqOrd κ]

/-- A placed row is found under its key. -/
private theorem find?_place_self (k : κ) (v : α) (rows : List (κ × α)) :
    ((place k v rows).find? fun r => compare k r.1 == .eq) = some (k, v) := by
  induction rows with
  | nil => simp [place]
  | cons x rows ih =>
    unfold place
    split
    · simp
    · simp
    · next hk => simpa [hk] using ih

/-- A placed row hides no other key. -/
private theorem find?_place_of_ne {k k' : κ} (h : k' ≠ k) (v : α) (rows : List (κ × α)) :
    ((place k v rows).find? fun r => compare k' r.1 == .eq) =
      rows.find? fun r => compare k' r.1 == .eq := by
  have hne : compare k' k ≠ .eq := fun he => h (Std.LawfulEqOrd.eq_of_compare he)
  induction rows with
  | nil => simp [place, hne]
  | cons x rows ih =>
    unfold place
    split
    · simp [hne]
    · next hk =>
      have : k = x.1 := Std.LawfulEqOrd.eq_of_compare hk
      simp [← this, hne]
    · simp [List.find?_cons, ih]

/-- An inserted value is found. -/
@[simp] theorem find?_insert_self [Std.TransOrd κ] (t : Table κ α) (k : κ) (v : α) :
    (t.insert k v).find? k = some v := by
  simp [find?, insert, find?_place_self]

/-- Inserting under one key leaves the values of all others. -/
theorem find?_insert_of_ne [Std.TransOrd κ] (t : Table κ α) {k k' : κ} (h : k' ≠ k) (v : α) :
    (t.insert k v).find? k' = t.find? k' := by
  simp [find?, insert, find?_place_of_ne h]

/-- All that a look-up says after an insertion. -/
theorem find?_insert [Std.TransOrd κ] [DecidableEq κ] (t : Table κ α) (k k' : κ) (v : α) :
    (t.insert k v).find? k' = if k' = k then some v else t.find? k' := by
  split
  · next h => simp [h]
  · next h => exact t.find?_insert_of_ne h v

/-- Erasing one key leaves the values of all others. -/
theorem find?_erase_of_ne (t : Table κ α) {k k' : κ} (h : k' ≠ k) :
    (t.erase k).find? k' = t.find? k' := by
  simp only [find?, erase]
  rw [List.find?_filter]
  congr 2
  funext r
  by_cases hr : compare k' r.1 = .eq
  · have hk' : k' = r.1 := Std.LawfulEqOrd.eq_of_compare hr
    have hne : compare k r.1 ≠ .eq := fun he =>
      h (hk'.trans (Std.LawfulEqOrd.eq_of_compare he).symm)
    simp [hr, hne]
  · simp [hr]

/-! ## Rows -/

/-- A look-up finds a value exactly where the rows have it, since no key has two. -/
theorem find?_eq_some_iff {t : Table κ α} {k : κ} {v : α} :
    t.find? k = some v ↔ (k, v) ∈ t.rows := by
  obtain ⟨rows, h⟩ := t
  simp only [find?]
  induction rows with
  | nil => simp
  | cons x rows ih =>
    obtain ⟨hx, hrows⟩ := List.pairwise_cons.1 h
    rw [List.mem_cons]
    by_cases hk : compare k x.1 = .eq
    · have hkx : k = x.1 := Std.LawfulEqOrd.eq_of_compare hk
      have hout : (k, v) ∉ rows := fun hm => by simpa [hkx] using hx _ hm
      rw [List.find?_cons_of_pos (by simpa using hk)]
      rw [or_iff_left hout]
      simp [Prod.ext_iff, hkx, eq_comm]
    · have hne : (k, v) ≠ x := fun he => hk (by simp [← he])
      rw [List.find?_cons_of_neg (by simpa using hk), ih hrows]
      simp [hne]

/-- A key has a row when some value stands beside it. -/
theorem contains_iff {t : Table κ α} {k : κ} : t.contains k = true ↔ ∃ v, (k, v) ∈ t.rows := by
  simp [contains, Option.isSome_iff_exists, ← find?_eq_some_iff]

end Lawful

end Table
end BondingCurve
