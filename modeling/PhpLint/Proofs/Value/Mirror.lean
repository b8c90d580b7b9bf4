import PhpLint.Proofs.Number.Order
import PhpLint.Proofs.Value.Comparison
import PhpLint.Proofs.Value.WellFormed

namespace PhpLint.Value

section Reversal

theorem eq_map_swap_comm {first second : Option Ordering} :
    first = second.map Ordering.swap ↔ second = first.map Ordering.swap := by
  constructor <;> rintro rfl <;> simp [Function.comp_def]

theorem compareTruth?_swap (a b : Value) :
    compareTruth? b a = (compareTruth? a b).map Ordering.swap := by
  have hbool (x y : Bool) : compare y x = (compare x y).swap := Std.OrientedOrd.eq_swap
  rw [compareTruth?, compareTruth?]
  cases a.truthy? with
  | none => cases b.truthy? <;> rfl
  | some x =>
      cases b.truthy? with
      | none => rfl
      | some y => exact congrArg some (hbool x y)

theorem compareScalars?_string_swap (s t : String) :
    compareScalars? (string t) (string s) =
      (compareScalars? (string s) (string t)).map Ordering.swap := by
  have htext : some (compare t s) = (some (compare s t)).map Ordering.swap :=
    congrArg some Std.OrientedOrd.eq_swap
  rw [compareScalars?, compareScalars?]
  cases Number.ofText? s with
  | none => cases Number.ofText? t <;> exact htext
  | some x =>
      cases Number.ofText? t with
      | none => exact htext
      | some y => exact Number.compare?_swap x y

-- A text next to a number counts as the number that it starts with, on either side.
theorem compareScalars?_number_swap (x : Number) {v : Value} (hv : v.isKnown = true) :
    compareScalars? v (ofNumber x) = (compareScalars? (ofNumber x) v).map Ordering.swap := by
  cases v with
  | null | bool => cases x <;> exact compareTruth?_swap _ _
  | int m =>
      have hswap := Number.compare?_swap x (.int m)
      cases x <;> exact hswap
  | float y =>
      have hswap := Number.compare?_swap x (.float y)
      cases x <;> exact hswap
  | string s =>
      have hswap := Number.compare?_swap x (prefixNumber s)
      cases x <;> exact hswap
  | array => cases x <;> rfl
  | _ => cases hv

-- Two arrays are left out: this comparison would have each of them above the other.
theorem compareScalars?_swap {a b : Value} (ha : a.isKnown = true) (hb : b.isKnown = true)
    (h : a.hasEntries = false ∨ b.hasEntries = false) :
    compareScalars? b a = (compareScalars? a b).map Ordering.swap := by
  cases a with
  | int n => exact compareScalars?_number_swap (.int n) hb
  | float x => exact compareScalars?_number_swap (.float x) hb
  | bool x =>
      cases b with
      | null | bool | int | float | string | array => exact compareTruth?_swap _ _
      | _ => cases hb
  | null =>
      cases b with
      | string t => exact congrArg some Std.OrientedOrd.eq_swap
      | null | bool | int | float | array => exact compareTruth?_swap _ _
      | _ => cases hb
  | string s =>
      cases b with
      | null => exact congrArg some Std.OrientedOrd.eq_swap
      | bool y => exact compareTruth?_swap _ _
      | string t => exact compareScalars?_string_swap s t
      | int m => exact eq_map_swap_comm.mp (compareScalars?_number_swap (.int m) rfl)
      | float y => exact eq_map_swap_comm.mp (compareScalars?_number_swap (.float y) rfl)
      | array => rfl
      | _ => cases hb
  | array entries =>
      cases b with
      | null | bool => exact compareTruth?_swap _ _
      | int | float | string => rfl
      | array => cases h <;> contradiction
      | _ => cases hb
  | _ => cases ha

theorem compare?_eq_compareScalars? {a b : Value}
    (h : a.hasEntries = false ∨ b.hasEntries = false) : a.compare? b = compareScalars? a b := by
  rw [compare?]
  rintro entries others rfl rfl
  cases h <;> contradiction

theorem compare?_swap_of_hasEntries {a b : Value} (ha : a.isKnown = true) (hb : b.isKnown = true)
    (h : a.hasEntries = false ∨ b.hasEntries = false) :
    b.compare? a = (a.compare? b).map Ordering.swap := by
  rw [compare?_eq_compareScalars? h, compare?_eq_compareScalars? h.symm]
  exact compareScalars?_swap ha hb h

end Reversal

-- The second value compares with the first one as the first one does with the second, the
-- other way round, for the comparison and for every operator that orders values.
structure Mirrors (a b : Value) : Prop where
  order : b.compare? a = (a.compare? b).map Ordering.swap
  smaller : binary .smaller a b = binary .greater b a
  smallerOrEqual : binary .smallerOrEqual a b = binary .greaterOrEqual b a
  threeWay : a.compare? b ≠ none →
    ∃ n, binary .spaceship a b = ⟨int n, none⟩ ∧ binary .spaceship b a = ⟨int (-n), none⟩

theorem relation_swap {holds mirrored : Value → Value → Bool} {a b : Value}
    (h : holds a b = mirrored b a) : relation holds a b = relation mirrored b a := by
  rw [relation, relation, h, Bool.and_comm]

theorem mirrors_of_compare?_swap {a b : Value} (ha : a.isKnown = true) (hb : b.isKnown = true)
    (order : b.compare? a = (a.compare? b).map Ordering.swap) : a.Mirrors b where
  order := order
  smaller := by
    refine congrArg (Outcome.mk · none) (relation_swap ?_)
    rw [order]
    rcases a.compare? b with _ | _ | _ | _ <;> rfl
  smallerOrEqual := by
    refine congrArg (Outcome.mk · none) (relation_swap ?_)
    rw [order]
    rcases a.compare? b with _ | _ | _ | _ <;> rfl
  threeWay := by
    intro hcomparable
    obtain ⟨o, ho⟩ := Option.ne_none_iff_exists'.mp hcomparable
    simp only [binary, Value.threeWay, ha, hb, order, ho]
    cases o with
    | lt => exact ⟨-1, rfl, rfl⟩
    | eq => exact ⟨0, rfl, rfl⟩
    | gt => exact ⟨1, rfl, rfl⟩

-- Values that are not both arrays compare alike from both sides, whatever their kinds are.
theorem comparison_mirrors {a b : Value} (ha : a.isKnown = true) (hb : b.isKnown = true)
    (h : a.hasEntries = false ∨ b.hasEntries = false) : a.Mirrors b :=
  mirrors_of_compare?_swap ha hb (compare?_swap_of_hasEntries ha hb h)

theorem comparison_mirrors_textAndNumber :
    ((string "12a").isKnown = true ∧ (int 13).isKnown = true) ∧
      ((string "12a").hasEntries = false ∧ (int 13).hasEntries = false) ∧
      (string "12a").compare? (int 13) = some .lt ∧ (string "12a").Mirrors (int 13) :=
  ⟨⟨rfl, rfl⟩, ⟨rfl, rfl⟩, by decide +kernel, comparison_mirrors rfl rfl (.inl rfl)⟩

end PhpLint.Value
