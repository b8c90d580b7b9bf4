import PhpLint.Value.Operate

namespace PhpLint.Value

-- Integers, doubles and texts, as opposed to what is compared by its truth.
def isScalar : Value → Bool
  | int _ | float _ | string _ => true
  | _ => false

theorem relation_of_isKnown (holds : Value → Value → Bool) {a b : Value}
    (ha : a.isKnown = true) (hb : b.isKnown = true) : relation holds a b = bool (holds a b) := by
  simp [relation, ha, hb]

-- The first value is the greater one for every operator that compares them.
structure Exceeds (a b : Value) : Prop where
  order : a.compare? b = some .gt
  reverse : b.compare? a = some .lt
  holds : ∀ op ∈ [BinaryOp.greater, .greaterOrEqual, .notEqual], binary op a b = ⟨bool true, none⟩
  mirrored : ∀ op ∈ [BinaryOp.smaller, .smallerOrEqual], binary op b a = ⟨bool true, none⟩
  fails : ∀ op ∈ [BinaryOp.smaller, .smallerOrEqual, .equal], binary op a b = ⟨bool false, none⟩
  threeWay : binary .spaceship a b = ⟨int 1, none⟩

theorem exceeds_of_compare? {a b : Value} (ha : a.isKnown = true) (hb : b.isKnown = true)
    (order : a.compare? b = some .gt) (reverse : b.compare? a = some .lt) : a.Exceeds b where
  order := order
  reverse := reverse
  holds := by simp [binary, relation_of_isKnown _ ha hb, order]
  mirrored := by simp [binary, relation_of_isKnown _ hb ha, reverse]
  fails := by simp [binary, relation_of_isKnown _ ha hb, order]
  threeWay := by simp [binary, Value.threeWay, ha, hb, order]

-- Neither value is greater and they are not equal. The three-way operator gives the same
-- in both directions.
structure Incomparable (a b : Value) : Prop where
  order : a.compare? b = none
  fails : ∀ op ∈ [BinaryOp.greater, .greaterOrEqual, .smaller, .smallerOrEqual, .equal],
    binary op a b = ⟨bool false, none⟩
  differs : binary .notEqual a b = ⟨bool true, none⟩
  threeWay : binary .spaceship a b = ⟨int 1, none⟩

theorem incomparable_of_compare? {a b : Value} (ha : a.isKnown = true) (hb : b.isKnown = true)
    (order : a.compare? b = none) : a.Incomparable b where
  order := order
  fails := by simp [binary, relation_of_isKnown _ ha hb, order]
  differs := by simp [binary, relation_of_isKnown _ ha hb, order]
  threeWay := by simp [binary, Value.threeWay, ha, hb, order]

section ArrayAndScalar

variable (entries : List (Key × Value))

-- The case of a text comes before the case of an array, and an array is no number.
theorem incomparable_array_string (s : String) :
    (array entries).Incomparable (string s) ∧ (string s).Incomparable (array entries) := by
  constructor
  · apply incomparable_of_compare? rfl rfl
    simp [compare?, compareScalars?, isLogical, kind, toNumber?]
  · apply incomparable_of_compare? rfl rfl
    simp [compare?, compareScalars?, isLogical, kind, toNumber?]

theorem array_exceeds_of_text?_eq_none {v : Value} (hv : v.isScalar = true)
    (htext : v.text? = none) : (array entries).Exceeds v := by
  cases v with
  | int | float =>
      apply exceeds_of_compare? rfl rfl
      · simp [compare?, compareScalars?, isLogical, kind]
      · simp [compare?, compareScalars?, isLogical, kind]
  | string => cases htext
  | _ => cases hv

end ArrayAndScalar

-- An array is greater than a number, whatever both are. It is not greater than a text: the
-- two are not comparable.
theorem array_exceeds_scalar_iff (entries : List (Key × Value)) {v : Value}
    (hv : v.isScalar = true) :
    ((array entries).Exceeds v ↔ v.text? = none) ∧
      (∀ s, v = string s → (array entries).Incomparable v ∧ v.Incomparable (array entries)) := by
  refine ⟨⟨fun h => ?_, array_exceeds_of_text?_eq_none entries hv⟩, ?_⟩
  · cases v with
    | string s =>
        have hnone := (incomparable_array_string entries s).1.order
        rw [h.order] at hnone
        cases hnone
    | _ => rfl
  · rintro s rfl
    exact incomparable_array_string entries s

theorem array_exceeds_number :
    (int 7).isScalar = true ∧ (array [(.int 0, int 1), (.text "k", string "z")]).Exceeds (int 7) :=
  ⟨rfl, (array_exceeds_scalar_iff [(.int 0, int 1), (.text "k", string "z")] rfl).1.mpr rfl⟩

theorem array_not_above_text :
    (string "a").isScalar = true ∧ ¬(array [(.int 0, .int 1)]).Exceeds (string "a") ∧
      binary .greater (array [(.int 0, .int 1)]) (string "a") = ⟨bool false, none⟩ := by
  have hnone := (incomparable_array_string [(.int 0, .int 1)] "a").1
  refine ⟨rfl, fun h => ?_, hnone.fails _ (by simp)⟩
  cases h.order.symm.trans hnone.order

end PhpLint.Value
