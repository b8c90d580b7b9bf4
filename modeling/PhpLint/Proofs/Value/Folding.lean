import PhpLint.Proofs.Value.Refinement

namespace PhpLint.Value

section Shapes

variable {a b v w r : Value}

-- The shape that is told of a result whose operands are vague is that of every result.

theorem refines_arithmeticShape (ha : Refines v a) (hb : Refines w b)
    (hr : v.kind = .shaped .float ∨ w.kind = .shaped .float → v.isNumeric = true →
      w.isNumeric = true → r.kind = .shaped .float) :
    Refines r (arithmeticShape a b) := by
  simp only [arithmeticShape]
  split
  case isTrue h =>
    simp only [Bool.and_eq_true, Bool.or_eq_true, beq_iff_eq] at h
    obtain ⟨⟨hf, hna⟩, hnb⟩ := h
    apply Refines.ofShape
    exact hr (hf.imp ha.kind_eq hb.kind_eq) (ha.isNumeric hna) (hb.isNumeric hnb)
  case isFalse => exact .ofOpen rfl

theorem refines_integralShape (ha : Refines v a) (hb : Refines w b)
    (hr : v.isNumeric = true → w.isNumeric = true → r.kind = .shaped .int) :
    Refines r (integralShape a b) := by
  unfold integralShape
  split
  case isTrue h =>
    rw [Bool.and_eq_true] at h
    exact .ofShape (hr (ha.isNumeric h.1) (hb.isNumeric h.2))
  case isFalse => exact .ofOpen rfl

theorem integralShape_eq_unknown (h : a.isNumeric = false) : integralShape a b = unknown := by
  simp [integralShape, h]

end Shapes

section Binary

variable {a b v w : Value}

-- Either both operands are what refines them, or one of them is vague.
theorem Refines.pair (ha : Refines v a) (hb : Refines w b) :
    (a = v ∧ b = w) ∨ a.isVague = true ∨ b.isVague = true := by
  rcases ha.eq_or_isVague with hv | hva
  · rcases hb.eq_or_isVague with hw | hwb
    · exact .inl ⟨hv, hw⟩
    · exact .inr (.inr hwb)
  · exact .inr (.inl hva)

-- Where the shape of a result is told to be a double, one of the numbers is a double.
theorem exists_numbers (hv : v.isVague = false) (hw : w.isVague = false)
    (hf : v.kind = .shaped .float ∨ w.kind = .shaped .float) (hnv : v.isNumeric = true)
    (hnw : w.isNumeric = true) : ∃ x y, v.toNumber? = some x ∧ w.toNumber? = some y ∧
      ((∃ f, x = .float f) ∨ ∃ f, y = .float f) := by
  obtain ⟨x, hx⟩ := exists_toNumber? hv hnv
  obtain ⟨y, hy⟩ := exists_toNumber? hw hnw
  rcases hf with hf | hf
  · obtain ⟨f, hf⟩ := exists_toNumber?_float hv hf
    exact ⟨.float f, y, hf, hy, .inl ⟨f, rfl⟩⟩
  · obtain ⟨f, hf⟩ := exists_toNumber?_float hw hf
    exact ⟨x, .float f, hx, hf, .inr ⟨f, rfl⟩⟩

theorem kind_arithmetic (exact : Int → Int → Int) (rounded : Float → Float → Float)
    (hv : v.isVague = false) (hw : w.isVague = false)
    (hf : v.kind = .shaped .float ∨ w.kind = .shaped .float) (hnv : v.isNumeric = true)
    (hnw : w.isNumeric = true) : (arithmetic exact rounded v w).kind = .shaped .float := by
  obtain ⟨x, y, hx, hy, ⟨f, rfl⟩ | ⟨f, rfl⟩⟩ := exists_numbers hv hw hf hnv hnw
  · simp [arithmetic, hx, hy, kind]
  · cases x <;> simp [arithmetic, hx, hy, kind]

theorem refines_arithmetic (exact : Int → Int → Int) (rounded : Float → Float → Float)
    (hv : v.isVague = false) (hw : w.isVague = false) (ha : Refines v a) (hb : Refines w b) :
    Refines (arithmetic exact rounded v w) (arithmetic exact rounded a b) := by
  rcases ha.pair hb with ⟨rfl, rfl⟩ | hvague
  · exact .refl _
  · have hshape : arithmetic exact rounded a b = arithmeticShape a b := by
      rcases hvague with h | h
      · simp [arithmetic, toNumber?_of_isVague h]
      · cases hx : a.toNumber? <;> simp [arithmetic, hx, toNumber?_of_isVague h]
    rw [hshape]
    exact refines_arithmeticShape ha hb (kind_arithmetic exact rounded hv hw)

theorem kind_power (hv : v.isVague = false) (hw : w.isVague = false)
    (hf : v.kind = .shaped .float ∨ w.kind = .shaped .float) (hnv : v.isNumeric = true)
    (hnw : w.isNumeric = true) : (power v w).kind = .shaped .float := by
  obtain ⟨x, y, hx, hy, ⟨f, rfl⟩ | ⟨f, rfl⟩⟩ := exists_numbers hv hw hf hnv hnw
  · simp [power, numberPower, hx, hy, kind]
  · cases x <;> simp [power, numberPower, hx, hy, kind]

theorem refines_power (hv : v.isVague = false) (hw : w.isVague = false) (ha : Refines v a)
    (hb : Refines w b) : Refines (power v w) (power a b) := by
  rcases ha.pair hb with ⟨rfl, rfl⟩ | hvague
  · exact .refl _
  · have hshape : power a b = arithmeticShape a b := by
      rcases hvague with h | h
      · simp [power, toNumber?_of_isVague h]
      · cases hx : a.toNumber? <;> simp [power, hx, toNumber?_of_isVague h]
    rw [hshape]
    exact refines_arithmeticShape ha hb (kind_power hv hw)

theorem isZero_eq_false_of_hazard {y : Number} (hy : w.toNumber? = some y)
    (hok : (divide v w).hazard = none) : y.isZero = false := by
  cases hz : y.isZero with
  | false => rfl
  | true => simp [divide, hy, hz] at hok

theorem kind_divide (hv : v.isVague = false) (hw : w.isVague = false)
    (hf : v.kind = .shaped .float ∨ w.kind = .shaped .float) (hnv : v.isNumeric = true)
    (hnw : w.isNumeric = true) (hok : (divide v w).hazard = none) :
    (divide v w).value.kind = .shaped .float := by
  obtain ⟨x, y, hx, hy, hfloat⟩ := exists_numbers hv hw hf hnv hnw
  have hz := isZero_eq_false_of_hazard hy hok
  rcases hfloat with ⟨f, rfl⟩ | ⟨f, rfl⟩
  · simp [divide, quotient, hx, hy, hz, kind]
  · cases x <;> simp [divide, quotient, hx, hy, hz, kind]

theorem refines_divide (hv : v.isVague = false) (hw : w.isVague = false) (ha : Refines v a)
    (hb : Refines w b) (hok : (divide v w).hazard = none) :
    Refines (divide v w).value (divide a b).value := by
  have hkind := fun hf hnv hnw => kind_divide hv hw hf hnv hnw hok
  rcases hb.eq_or_isVague with rfl | hvb
  · rcases ha.eq_or_isVague with rfl | hva
    · exact .refl _
    · cases hy : b.toNumber? with
      | none =>
          simp only [divide, hy]
          exact refines_arithmeticShape ha hb fun _ _ hn => by
            obtain ⟨y, hy'⟩ := exists_toNumber? hw hn
            cases hy.symm.trans hy'
      | some y =>
          have hz := isZero_eq_false_of_hazard hy hok
          have hshape : (divide a b).value = arithmeticShape a b := by
            simp [divide, hy, hz, toNumber?_of_isVague hva]
          rw [hshape]
          exact refines_arithmeticShape ha hb hkind
  · have hshape : (divide a b).value = arithmeticShape a b := by
      simp [divide, toNumber?_of_isVague hvb]
    rw [hshape]
    exact refines_arithmeticShape ha hb hkind

-- Only a divisor with a content raises a hazard, and then it is the same divisor.
theorem hazard_divide (hb : Refines w b) {hazard : Hazard}
    (h : (divide a b).hazard = some hazard) : (divide v w).hazard = some hazard := by
  rcases hb.eq_or_isVague with rfl | hvb
  · cases hy : b.toNumber? with
    | none => simp [divide, hy] at h
    | some y =>
        by_cases hz : y.isZero = true
        · simpa [divide, hy, hz] using h
        · cases hx : a.toNumber? <;> simp [divide, hy, hz, hx] at h
  · simp [divide, toNumber?_of_isVague hvb] at h

theorem refines_modulo (hv : v.isVague = false) (hw : w.isVague = false) (ha : Refines v a)
    (hb : Refines w b) (hok : (modulo v w).hazard = none) :
    Refines (modulo v w).value (modulo a b).value := by
  have hkind : v.isNumeric = true → w.isNumeric = true →
      (modulo v w).value.kind = .shaped .int := by
    intro hnv hnw
    obtain ⟨x, hx⟩ := exists_toNumber? hv hnv
    obtain ⟨y, hy⟩ := exists_toNumber? hw hnw
    by_cases hz : y.toWord = 0
    · simp [modulo, hy, hz] at hok
    · simp [modulo, hx, hy, hz, kind]
  rcases hb.eq_or_isVague with rfl | hvb
  · rcases ha.eq_or_isVague with rfl | hva
    · exact .refl _
    · cases hy : b.toNumber? with
      | none =>
          simp only [modulo, hy, Option.map_none]
          exact refines_integralShape ha hb fun _ hn => by
            obtain ⟨y, hy'⟩ := exists_toNumber? hw hn
            cases hy.symm.trans hy'
      | some y =>
          by_cases hz : y.toWord = 0
          · simp [modulo, hy, hz] at hok
          · have hshape : (modulo a b).value = integralShape a b := by
              simp [modulo, hy, hz, toNumber?_of_isVague hva]
            rw [hshape]
            exact refines_integralShape ha hb hkind
  · have hshape : (modulo a b).value = integralShape a b := by
      simp [modulo, toNumber?_of_isVague hvb]
    rw [hshape]
    exact refines_integralShape ha hb hkind

theorem hazard_modulo (hb : Refines w b) {hazard : Hazard}
    (h : (modulo a b).hazard = some hazard) : (modulo v w).hazard = some hazard := by
  rcases hb.eq_or_isVague with rfl | hvb
  · cases hy : b.toNumber? with
    | none => simp [modulo, hy] at h
    | some y =>
        by_cases hz : y.toWord = 0
        · simpa [modulo, hy, hz] using h
        · cases hx : a.toNumber? <;> simp [modulo, hy, hz, hx] at h
  · simp [modulo, toNumber?_of_isVague hvb] at h

theorem refines_concat (hv : v.isVague = false) (hw : w.isVague = false) (ha : Refines v a)
    (hb : Refines w b) : Refines (concat v w) (concat a b) := by
  have hkind : (concat v w).kind = .shaped .string := by
    have hkv : v.kind ≠ .unknown := by cases v <;> simp_all [isVague, kind]
    have hkw : w.kind ≠ .unknown := by cases w <;> simp_all [isVague, kind]
    unfold concat
    rw [if_neg (by simp [hkv, hkw])]
    cases v.toText? <;> cases w.toText? <;> rfl
  rcases ha.pair hb with ⟨rfl, rfl⟩ | hvague
  · exact .refl _
  · have hshape : concat a b = unknown ∨ concat a b = any .string := by
      unfold concat
      split
      case isTrue => exact .inl rfl
      case isFalse =>
        rcases hvague with h | h
        · simp [toText?_of_isVague h]
        · cases a.toText? <;> simp [toText?_of_isVague h]
    rcases hshape with h | h
    · rw [h]
      exact .ofOpen rfl
    · rw [h]
      exact .ofShape hkind

theorem refines_bitwise (onBytes : List UInt8 → List UInt8 → List UInt8)
    (onWords : Int64 → Int64 → Int64) (hv : v.isVague = false) (hw : w.isVague = false)
    (ha : Refines v a) (hb : Refines w b) :
    Refines (bitwise onBytes onWords v w) (bitwise onBytes onWords a b) := by
  rcases ha.pair hb with ⟨rfl, rfl⟩ | hvague
  · exact .refl _
  · have hshape : bitwise onBytes onWords a b = integralShape a b := by
      unfold bitwise
      split
      case h_1 => simp [isVague] at hvague
      case h_2 =>
        rcases hvague with h | h
        · simp [toNumber?_of_isVague h]
        · cases a.toNumber? <;> simp [toNumber?_of_isVague h]
    rw [hshape]
    apply refines_integralShape ha hb
    intro hnv hnw
    obtain ⟨x, hx⟩ := exists_toNumber? hv hnv
    obtain ⟨y, hy⟩ := exists_toNumber? hw hnw
    unfold bitwise
    split
    case h_1 => simp [isNumeric, kind] at hnv
    case h_2 => simp [hx, hy, kind]

-- A negative amount has no result, whatever is shifted.
theorem shift_eq_unknown (onWords : Int64 → Int64 → Int64) {y : Number} (hv : v.isVague = false)
    (hy : w.toNumber? = some y) (hneg : y.toWord.toInt < 0) : shift onWords v w = unknown := by
  cases hx : v.toNumber? with
  | some x => simp [shift, hx, hy, Int64.lt_iff_toInt_lt, hneg]
  | none =>
      have hn : v.isNumeric = false := by
        cases hn : v.isNumeric with
        | false => rfl
        | true =>
            obtain ⟨x, hx'⟩ := exists_toNumber? hv hn
            cases hx.symm.trans hx'
      simp [shift, hx, integralShape_eq_unknown hn]

theorem refines_shift (onWords : Int64 → Int64 → Int64) (hv : v.isVague = false)
    (hw : w.isVague = false) (ha : Refines v a) (hb : Refines w b)
    (hpos : ∀ y, w.toNumber? = some y → 0 ≤ y.toWord.toInt) :
    Refines (shift onWords v w) (shift onWords a b) := by
  rcases ha.pair hb with ⟨rfl, rfl⟩ | hvague
  · exact .refl _
  · have hshape : shift onWords a b = integralShape a b := by
      rcases hvague with h | h
      · simp [shift, toNumber?_of_isVague h]
      · cases hx : a.toNumber? <;> simp [shift, hx, toNumber?_of_isVague h]
    rw [hshape]
    apply refines_integralShape ha hb
    intro hnv hnw
    obtain ⟨x, hx⟩ := exists_toNumber? hv hnv
    obtain ⟨y, hy⟩ := exists_toNumber? hw hnw
    have hy0 := Int.not_lt.mpr (hpos y hy)
    simp [shift, hx, hy, Int64.lt_iff_toInt_lt, hy0, kind]

-- An operation on truth values may tell the less of its result the less it is told, but
-- nothing else.
theorem refines_truth {f : Option Bool → Option Bool → Option Bool}
    (hf : ∀ x y, ∀ p ∈ [none, some x], ∀ q ∈ [none, some y],
      f p q = none ∨ f p q = f (some x) (some y))
    (hv : v.isVague = false) (hw : w.isVague = false) (ha : Refines v a) (hb : Refines w b) :
    Refines (ofBool? (f v.truthy? w.truthy?)) (ofBool? (f a.truthy? b.truthy?)) := by
  obtain ⟨x, hx⟩ := exists_truthy? hv
  obtain ⟨y, hy⟩ := exists_truthy? hw
  have hp : a.truthy? ∈ [none, some x] := by simpa [hx] using ha.truthy? hv
  have hq : b.truthy? ∈ [none, some y] := by simpa [hy] using hb.truthy? hw
  apply refines_ofBool?
  rw [hx, hy]
  exact hf x y _ hp _ hq

theorem refines_conjunction (hv : v.isVague = false) (hw : w.isVague = false) (ha : Refines v a)
    (hb : Refines w b) : Refines (conjunction v w) (conjunction a b) :=
  refines_truth (f := fun p q => p.bind fun x => if x then q else some false) (by decide) hv hw ha hb

theorem refines_disjunction (hv : v.isVague = false) (hw : w.isVague = false) (ha : Refines v a)
    (hb : Refines w b) : Refines (disjunction v w) (disjunction a b) :=
  refines_truth (f := fun p q => p.bind fun x => if x then some true else q) (by decide) hv hw ha hb

theorem refines_exclusion (hv : v.isVague = false) (hw : w.isVague = false) (ha : Refines v a)
    (hb : Refines w b) : Refines (exclusion v w) (exclusion a b) :=
  refines_truth (f := fun p q => p.bind fun x => q.map (x != ·)) (by decide) hv hw ha hb

theorem refines_relation (holds : Value → Value → Bool) (ha : Refines v a) (hb : Refines w b) :
    Refines (relation holds v w) (relation holds a b) := by
  rcases ha.pair hb with ⟨rfl, rfl⟩ | hvague
  · exact .refl _
  · have hshape : relation holds a b = any .bool := by
      rcases hvague with h | h <;> simp [relation, isKnown_of_isVague h]
    rw [hshape]
    apply Refines.ofShape
    unfold relation
    split <;> rfl

theorem refines_threeWay (ha : Refines v a) (hb : Refines w b) :
    Refines (threeWay v w) (threeWay a b) := by
  rcases ha.pair hb with ⟨rfl, rfl⟩ | hvague
  · exact .refl _
  · have hshape : threeWay a b = any .int := by
      rcases hvague with h | h <;> simp [threeWay, isKnown_of_isVague h]
    rw [hshape]
    apply Refines.ofShape
    unfold threeWay
    repeat' split
    all_goals rfl

-- The result of an operation on vague operands is told of every operation on operands
-- that are less vague, unless that operation stops the program.
theorem refines_binary (op : BinaryOp) (hv : v.isVague = false) (hw : w.isVague = false)
    (ha : Refines v a) (hb : Refines w b) (hok : (binary op v w).hazard = none)
    (hpos : op = .shiftLeft ∨ op = .shiftRight →
      ∀ y, w.toNumber? = some y → 0 ≤ y.toWord.toInt) :
    Refines (binary op v w).value (binary op a b).value := by
  cases op with
  | add | subtract | multiply => exact refines_arithmetic _ _ hv hw ha hb
  | divide => exact refines_divide hv hw ha hb hok
  | modulo => exact refines_modulo hv hw ha hb hok
  | power => exact refines_power hv hw ha hb
  | concat => exact refines_concat hv hw ha hb
  | bitwiseAnd | bitwiseOr | bitwiseXor => exact refines_bitwise _ _ hv hw ha hb
  | shiftLeft => exact refines_shift _ hv hw ha hb (hpos (.inl rfl))
  | shiftRight => exact refines_shift _ hv hw ha hb (hpos (.inr rfl))
  | booleanAnd | logicalAnd => exact refines_conjunction hv hw ha hb
  | booleanOr | logicalOr => exact refines_disjunction hv hw ha hb
  | logicalXor => exact refines_exclusion hv hw ha hb
  | equal | notEqual | identical | notIdentical | smaller | smallerOrEqual | greater
  | greaterOrEqual =>
      simp only [binary]
      exact refines_relation _ ha hb
  | spaceship => exact refines_threeWay ha hb

theorem hazard_binary (op : BinaryOp) (hb : Refines w b) {hazard : Hazard}
    (h : (binary op a b).hazard = some hazard) : (binary op v w).hazard = some hazard := by
  cases op with
  | divide => exact hazard_divide hb h
  | modulo => exact hazard_modulo hb h
  | _ => cases h

-- A result that is known although the operation would stop the program does not exist.
theorem hazard_eq_none_of_value (op : BinaryOp) (h : (binary op v w).value ≠ unknown) :
    (binary op v w).hazard = none := by
  cases op with
  | divide =>
      cases hy : w.toNumber? with
      | none => simp [binary, divide, hy]
      | some y =>
          cases hz : y.isZero with
          | true => simp [binary, divide, hy, hz] at h
          | false => cases hx : v.toNumber? <;> simp [binary, divide, hy, hz, hx]
  | modulo =>
      cases hy : w.toNumber? with
      | none => simp [binary, modulo, hy]
      | some y =>
          by_cases hz : y.toWord = 0
          · simp [binary, modulo, hy, hz] at h
          · cases hx : v.toNumber? <;> simp [binary, modulo, hy, hz, hx]
  | _ => rfl

theorem amount_nonneg_of_value (op : BinaryOp) (hv : v.isVague = false)
    (h : (binary op v w).value ≠ unknown) (hop : op = .shiftLeft ∨ op = .shiftRight) (y : Number)
    (hy : w.toNumber? = some y) : 0 ≤ y.toWord.toInt := by
  apply Int.not_lt.mp
  intro hneg
  rcases hop with rfl | rfl
  · exact h (shift_eq_unknown wordShiftLeft hv hy hneg)
  · exact h (shift_eq_unknown wordShiftRight hv hy hneg)

end Binary

section Unary

variable {a v : Value}

theorem refines_number (result : Number → Value)
    (hfloat : ∀ x, (result (.float x)).kind = .shaped .float) (hv : v.isVague = false)
    (ha : Refines v a) :
    Refines (v.toNumber?.elim (arithmeticShape v v) result)
      (a.toNumber?.elim (arithmeticShape a a) result) := by
  rcases ha.eq_or_isVague with rfl | hva
  · exact .refl _
  · rw [toNumber?_of_isVague hva]
    apply refines_arithmeticShape ha ha
    intro hf _ _
    obtain ⟨x, hx⟩ := exists_toNumber?_float hv (or_self_iff.mp hf)
    simp [hx, hfloat]

theorem kind_ofString? (text : Option String) : (ofString? text).kind = .shaped .string := by
  cases text <;> rfl

theorem refines_complement (hv : v.isVague = false) (ha : Refines v a) :
    Refines (complement v) (complement a) := by
  cases ha with
  | ofOpen ho =>
      have hshape : complement a = unknown := by
        cases a <;> first | rfl | cases ho
      rw [hshape]
      exact .ofOpen rfl
  | refl => exact .refl _
  | ofShape hk =>
      cases v with
      | unknown | any _ | argument _ | constant _ => cases hv
      | null => cases hk
      | int _ | float _ =>
          cases hk
          exact .ofShape rfl
      | string _ =>
          cases hk
          exact .ofShape (kind_ofString? _)
      | bool _ | array _ | object _ =>
          cases hk
          exact .refl _

theorem refines_unary (op : UnaryOp) (hv : v.isVague = false) (ha : Refines v a) :
    Refines (unary op v) (unary op a) := by
  cases op with
  | booleanNot =>
      apply refines_ofBool?
      rcases ha.truthy? hv with h | h <;> simp [h]
  | plus => exact refines_number ofNumber (fun _ => rfl) hv ha
  | minus => exact refines_number negate (fun _ => rfl) hv ha
  | bitwiseNot => exact refines_complement hv ha

theorem cast_bool (x : Value) : cast .bool x = ofBool? x.truthy? := by
  unfold cast
  split <;> rfl

-- Apart from truth values a conversion gives its own shape, with or without a content.
theorem refines_castUnknown (type : CastType) (hv : v.isVague = false) (ha : Refines v a) :
    Refines (cast type v) (castUnknown type a) := by
  cases type with
  | bool =>
      rw [cast_bool]
      exact refines_ofBool? (ha.truthy? hv)
  | unset =>
      unfold cast
      split <;> exact .refl _
  | int | float | string | array | object =>
      apply Refines.ofShape
      cases v with
      | unknown | any _ | argument _ | constant _ => cases hv
      | _ => rfl

theorem refines_cast (type : CastType) (hv : v.isVague = false) (ha : Refines v a) :
    Refines (cast type v) (cast type a) := by
  rcases ha.eq_or_isVague with rfl | hva
  · exact .refl _
  · have hshape : cast type a = castUnknown type a := by simp [cast, isKnown_of_isVague hva]
    rw [hshape]
    exact refines_castUnknown type hv ha

end Unary

-- Learning the content of operands contradicts nothing that was told before: neither a
-- result nor a hazard.
theorem folding_refines :
    (∀ (op : BinaryOp) (a b v w : Value), v.isKnown = true → w.isKnown = true → Refines v a →
      Refines w b →
      ((binary op v w).value ≠ unknown → Refines (binary op v w).value (binary op a b).value) ∧
      ∀ hazard, (binary op a b).hazard = some hazard → (binary op v w).hazard = some hazard) ∧
    (∀ (op : UnaryOp) (a v : Value), v.isKnown = true → Refines v a →
      Refines (unary op v) (unary op a)) ∧
    (∀ (type : CastType) (a v : Value), v.isKnown = true → Refines v a →
      Refines (cast type v) (cast type a)) := by
  refine ⟨?_, ?_, ?_⟩
  · intro op a b v w hv hw ha hb
    have hvv := isVague_eq_false_of_isKnown hv
    have hvw := isVague_eq_false_of_isKnown hw
    refine ⟨fun hvalue => ?_, fun hazard h => hazard_binary op hb h⟩
    exact refines_binary op hvv hvw ha hb (hazard_eq_none_of_value op hvalue)
      (amount_nonneg_of_value op hvv hvalue)
  · intro op a v hv ha
    exact refines_unary op (isVague_eq_false_of_isKnown hv) ha
  · intro type a v hv ha
    exact refines_cast type (isVague_eq_false_of_isKnown hv) ha

theorem folding_refines_any_int :
    Refines (binary .modulo (int 7) (int 2)).value (binary .modulo (any .int) (int 2)).value ∧
      (binary .divide (int 7) null).hazard = some .divisionByZero ∧
      Refines (unary .bitwiseNot (int 7)) (unary .bitwiseNot (any .int)) ∧
      Refines (cast .array (int 7)) (cast .array (any .int)) := by
  have hseven : Refines (int 7) (any .int) := .ofShape rfl
  obtain ⟨hbinary, hunary, hcast⟩ := folding_refines
  refine ⟨?_, ?_, hunary .bitwiseNot _ _ rfl hseven, hcast .array _ _ rfl hseven⟩
  · exact (hbinary .modulo _ _ _ _ rfl rfl hseven (.refl _)).1 (by decide)
  · exact (hbinary .divide (any .int) null _ _ rfl rfl hseven (.refl _)).2 _ rfl

end PhpLint.Value
