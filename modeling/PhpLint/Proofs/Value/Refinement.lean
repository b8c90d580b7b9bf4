import PhpLint.Value.Operate

namespace PhpLint.Value

-- Values of which at most a name is known.
def isOpen : Value → Bool
  | unknown | argument _ | constant _ => true
  | _ => false

-- The first value is at most as vague as the second one.
inductive Refines : Value → Value → Prop where
  | ofOpen {x y : Value} (hy : y.isOpen = true) : Refines x y
  | refl (x : Value) : Refines x x
  | ofShape {x : Value} {shape : Shape} (hx : x.kind = .shaped shape) : Refines x (any shape)

-- Values without a content of their own. An object is not among them, since a run of
-- the program has objects too.
def isVague : Value → Bool
  | unknown | any _ | argument _ | constant _ => true
  | _ => false

theorem Refines.trans {x y z : Value} (hxy : Refines x y) (hyz : Refines y z) : Refines x z := by
  cases hyz with
  | ofOpen hz => exact .ofOpen hz
  | refl => exact hxy
  | ofShape hy =>
      cases hxy with
      | ofOpen ho => cases y <;> simp_all [isOpen, kind]
      | refl => exact .ofShape hy
      | ofShape hx =>
          cases hy
          exact .ofShape hx

theorem Refines.eq_or_isVague {x y : Value} (h : Refines x y) : y = x ∨ y.isVague = true := by
  cases h with
  | ofOpen hy => cases y <;> simp_all [isOpen, isVague]
  | refl => exact .inl rfl
  | ofShape _ => exact .inr rfl

theorem isVague_eq_false_of_isKnown {x : Value} (h : x.isKnown = true) : x.isVague = false := by
  cases x <;> simp_all [isKnown, isVague]

theorem Refines.kind_eq {x y : Value} {shape : Shape} (h : Refines x y)
    (hy : y.kind = .shaped shape) : x.kind = .shaped shape := by
  cases h with
  | ofOpen ho => cases y <;> simp_all [isOpen, kind]
  | refl => exact hy
  | ofShape hx =>
      cases hy
      exact hx

theorem Refines.isNumeric {x y : Value} (h : Refines x y) (hy : y.isNumeric = true) :
    x.isNumeric = true := by
  cases h with
  | ofOpen ho => cases y <;> simp_all [isOpen, Value.isNumeric, kind]
  | refl => exact hy
  | ofShape hx =>
      unfold Value.isNumeric at hy ⊢
      rw [hx]
      exact hy

-- What cannot be computed from a vague value.

theorem isKnown_of_isVague {x : Value} (h : x.isVague = true) : x.isKnown = false := by
  cases x <;> simp_all [isVague, isKnown]

theorem toNumber?_of_isVague {x : Value} (h : x.isVague = true) : x.toNumber? = none := by
  cases x <;> simp_all [isVague, toNumber?]

theorem toText?_of_isVague {x : Value} (h : x.isVague = true) : x.toText? = none := by
  cases x <;> simp_all [isVague, toText?]

theorem toKey?_of_isVague {x : Value} (h : x.isVague = true) : x.toKey? = none := by
  cases x <;> simp_all [isVague, toKey?]

-- A value with a content of a numeric shape counts as a number.
theorem exists_toNumber? {x : Value} (hx : x.isVague = false) (hn : x.isNumeric = true) :
    ∃ n, x.toNumber? = some n := by
  cases x <;> simp_all [isVague, isNumeric, kind, toNumber?]

theorem exists_toNumber?_float {x : Value} (hx : x.isVague = false)
    (hk : x.kind = .shaped .float) : ∃ f, x.toNumber? = some (.float f) := by
  cases x <;> simp_all [isVague, kind, toNumber?]

theorem exists_truthy? {x : Value} (hx : x.isVague = false) : ∃ b, x.truthy? = some b := by
  cases x with
  | unknown | any _ | argument _ | constant _ => cases hx
  | _ => exact ⟨_, rfl⟩

-- The truth of a vague value is known for objects only, and every object is true.
theorem Refines.truthy? {x y : Value} (h : Refines x y) (hx : x.isVague = false) :
    y.truthy? = none ∨ y.truthy? = x.truthy? := by
  cases h with
  | ofOpen hy => cases y <;> simp_all [isOpen, Value.truthy?]
  | refl => exact .inr rfl
  | @ofShape shape hk =>
      cases shape with
      | object => cases x <;> simp_all [isVague, kind, Value.truthy?]
      | _ => exact .inl rfl

theorem refines_ofBool? {known told : Option Bool} (h : told = none ∨ told = known) :
    Refines (ofBool? known) (ofBool? told) := by
  rcases h with rfl | rfl
  · cases known <;> exact .ofShape rfl
  · exact .refl _

end PhpLint.Value
