import BondingCurve.Table
import Mathlib.Algebra.BigOperators.Group.List.Basic
import Mathlib.Algebra.Order.BigOperators.Group.List
import Mathlib.Tactic.Linarith
import Mathlib.Tactic.Ring

/-!
# The rows of a table

Balances, connectors and reserve records live in tables, and what is conserved about them is a
sum over rows. `Table.sum_insert` says how a sum moves when one row is written; with it no proof
about an operation looks at rows again. A table is no more than its look-ups (`Table.ext_find?`), so
rows of different keys can be written in any order.
-/

namespace BondingCurve
namespace Table

variable {κ α : Type} [Ord κ]

/-- The sum of a quantity over all rows. -/
def sum (t : Table κ α) (f : κ → α → ℤ) : ℤ := (t.rows.map fun r => f r.1 r.2).sum

@[simp] theorem sum_empty (f : κ → α → ℤ) : (empty : Table κ α).sum f = 0 := rfl

/-- Sums over the same rows differ by what each row differs. -/
theorem sum_sub (t : Table κ α) (f g : κ → α → ℤ) :
    t.sum f - t.sum g = t.sum fun k v => f k v - g k v := by
  unfold sum
  induction t.rows with
  | nil => rfl
  | cons r rows ih =>
    rw [List.map_cons, List.sum_cons, List.map_cons, List.sum_cons, List.map_cons, List.sum_cons,
      ← ih]
    ring

/-- What a key adds to a sum, nothing where it has no row. -/
def share (t : Table κ α) (f : κ → α → ℤ) (k : κ) : ℤ := ((t.find? k).map (f k)).getD 0

theorem share_of_find? {t : Table κ α} {f : κ → α → ℤ} {k : κ} {v : α}
    (h : t.find? k = some v) : t.share f k = f k v := by
  rw [share, h]
  rfl

theorem share_of_find?_eq_none {t : Table κ α} {f : κ → α → ℤ} {k : κ}
    (h : t.find? k = none) : t.share f k = 0 := by
  rw [share, h]
  rfl

/-- A key below all keys of the rows has no row. -/
private theorem find?_eq_none_of_lt {k : κ} {rows : List (κ × α)}
    (h : ∀ r ∈ rows, compare k r.1 = .lt) :
    (rows.find? fun r => compare k r.1 == .eq) = none := by
  rw [List.find?_eq_none]
  intro r hr
  simp [h r hr]

section Lawful

variable [Std.LawfulEqOrd κ]

private theorem sum_place [Std.TransOrd κ] (f : κ → α → ℤ) (k : κ) (v : α) {rows : List (κ × α)}
    (h : rows.Pairwise fun a b => compare a.1 b.1 = .lt) :
    ((place k v rows).map fun r => f r.1 r.2).sum =
      (rows.map fun r => f r.1 r.2).sum + f k v -
        ((((rows.find? fun r => compare k r.1 == .eq).map (·.2)).map (f k)).getD 0) := by
  induction rows with
  | nil => simp [place]
  | cons x rows ih =>
    obtain ⟨hx, hrows⟩ := List.pairwise_cons.1 h
    unfold place
    split
    · next hk =>
      have hnone : ((x :: rows).find? fun r => compare k r.1 == .eq) = none := by
        refine find?_eq_none_of_lt fun r hr => ?_
        rcases List.mem_cons.1 hr with rfl | hr
        · exact hk
        · exact Std.TransCmp.lt_trans hk (hx r hr)
      rw [hnone, List.map_cons, List.sum_cons]
      simp only [Option.map_none, Option.getD_none]
      omega
    · next hk =>
      have hkx : k = x.1 := Std.LawfulEqOrd.eq_of_compare hk
      rw [List.find?_cons_of_pos (by simpa using hk), List.map_cons, List.sum_cons,
        List.map_cons, List.sum_cons]
      simp only [Option.map_some, Option.getD_some, hkx]
      omega
    · next hk =>
      rw [List.find?_cons_of_neg (by simp [hk]), List.map_cons, List.sum_cons, List.map_cons,
        List.sum_cons, ih hrows]
      omega

/-- Writing a row replaces what its key added before. -/
theorem sum_insert [Std.TransOrd κ] (t : Table κ α) (f : κ → α → ℤ) (k : κ) (v : α) :
    (t.insert k v).sum f = t.sum f + f k v - t.share f k :=
  sum_place f k v t.ascending

/-- Where no row is negative, a sum is at least each of its rows. -/
theorem le_sum {t : Table κ α} {f : κ → α → ℤ}
    (hf : ∀ k v, t.find? k = some v → 0 ≤ f k v) {k : κ} {v : α} (h : t.find? k = some v) :
    f k v ≤ t.sum f := by
  refine List.single_le_sum ?_ (f k v) ?_
  · intro n hn
    obtain ⟨r, hr, rfl⟩ := List.mem_map.1 hn
    exact hf r.1 r.2 (find?_eq_some_iff.2 hr)
  · exact List.mem_map.2 ⟨(k, v), find?_eq_some_iff.1 h, rfl⟩

/-- A sum of which no row adds anything. -/
theorem sum_eq_zero {t : Table κ α} {f : κ → α → ℤ}
    (hf : ∀ k v, t.find? k = some v → f k v = 0) : t.sum f = 0 := by
  apply List.sum_eq_zero
  intro n hn
  obtain ⟨r, hr, rfl⟩ := List.mem_map.1 hn
  exact hf r.1 r.2 (find?_eq_some_iff.2 hr)

/-! ## Tables by their look-ups -/

theorem nodup_rows (t : Table κ α) : t.rows.Nodup :=
  t.ascending.imp fun {a b} hlt heq => by
    have hself : compare b.1 b.1 = .eq := Std.ReflCmp.compare_self
    rw [heq, hself] at hlt
    cases hlt

/-- Tables in which every look-up finds the same are the same. -/
theorem ext_find? [Std.TransOrd κ] {s t : Table κ α} (h : ∀ k, s.find? k = t.find? k) :
    s = t := by
  have hmem : ∀ r, r ∈ s.rows ↔ r ∈ t.rows := by
    intro r
    obtain ⟨k, v⟩ := r
    rw [← find?_eq_some_iff, h, find?_eq_some_iff]
  have hperm := (List.perm_ext_iff_of_nodup s.nodup_rows t.nodup_rows).2 hmem
  have hrows : s.rows = t.rows := by
    refine hperm.eq_of_pairwise (fun a b _ _ hab hba => ?_) s.ascending t.ascending
    -- no key is below another one and above it
    have hgt := Std.OrientedCmp.gt_of_lt hab
    rw [hba] at hgt
    cases hgt
  cases s
  cases t
  cases hrows
  rfl

theorem insert_comm [Std.TransOrd κ] [DecidableEq κ] (t : Table κ α) {k k' : κ} (h : k ≠ k')
    (v v' : α) : (t.insert k v).insert k' v' = (t.insert k' v').insert k v := by
  apply ext_find?
  intro j
  simp only [find?_insert]
  by_cases hj : j = k
  · rw [if_pos hj, if_pos hj, if_neg (hj ▸ h)]
  · rw [if_neg hj, if_neg hj]

/-- The table in which every value is changed, by its key. -/
def mapValues {β : Type} (t : Table κ α) (g : κ → α → β) : Table κ β :=
  ⟨t.rows.map fun r => (r.1, g r.1 r.2), List.pairwise_map.2 t.ascending⟩

theorem find?_mapValues {β : Type} (t : Table κ α) (g : κ → α → β) (k : κ) :
    (t.mapValues g).find? k = (t.find? k).map (g k) := by
  ext v
  rw [find?_eq_some_iff, Option.map_eq_some_iff]
  simp only [mapValues, List.mem_map, Prod.mk.injEq, find?_eq_some_iff]
  constructor
  · rintro ⟨⟨j, u⟩, hmem, rfl, rfl⟩
    exact ⟨u, hmem, rfl⟩
  · rintro ⟨u, hmem, rfl⟩
    exact ⟨(k, u), hmem, rfl, rfl⟩

/-- A sum over a table whose look-ups are those of another one, changed by their keys. -/
theorem sum_of_find?_eq [Std.TransOrd κ] {β : Type} {s : Table κ β} {t : Table κ α}
    {g : κ → α → β} {f : κ → β → ℤ} (h : ∀ k, s.find? k = (t.find? k).map (g k)) :
    s.sum f = t.sum fun k v => f k (g k v) := by
  have hmap : s = t.mapValues g := ext_find? fun k => (h k).trans (find?_mapValues t g k).symm
  rw [hmap, sum, mapValues, List.map_map]
  rfl

end Lawful

end Table
end BondingCurve
