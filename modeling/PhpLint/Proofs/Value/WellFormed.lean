import PhpLint.Analysis.State
import PhpLint.Proofs.Number.Integers
import PhpLint.Proofs.Source.Spelling

namespace PhpLint

namespace Entries

variable {κ ν : Type} [DecidableEq κ]

theorem mem_of_mem_put {key : κ} {value : ν} {entries : Entries κ ν} {entry : κ × ν}
    (h : entry ∈ entries.put key value) : entry = (key, value) ∨ entry ∈ entries := by
  induction entries with
  | nil => exact .inl (List.mem_singleton.mp h)
  | cons first rest ih =>
      obtain ⟨k, v⟩ := first
      rw [put] at h
      by_cases hk : k = key
      · rw [if_pos hk, hk] at h
        apply (List.mem_cons.mp h).imp_right
        exact List.mem_cons_of_mem _
      · rw [if_neg hk] at h
        rcases List.mem_cons.mp h with hfirst | hrest
        · exact .inr (hfirst ▸ List.mem_cons_self)
        · exact (ih hrest).imp_right (List.mem_cons_of_mem _)

theorem forall_put {P : κ × ν → Prop} {key : κ} {value : ν} {entries : Entries κ ν}
    (hnew : P (key, value)) (hold : ∀ entry ∈ entries, P entry) :
    ∀ entry ∈ entries.put key value, P entry := by
  intro entry hentry
  rcases mem_of_mem_put hentry with rfl | hmem
  · exact hnew
  · exact hold entry hmem

theorem nodup_put (key : κ) (value : ν) {entries : Entries κ ν}
    (h : (entries.map Prod.fst).Nodup) : ((entries.put key value).map Prod.fst).Nodup := by
  induction entries with
  | nil => simp [put]
  | cons first rest ih =>
      obtain ⟨k, v⟩ := first
      rw [List.map_cons, List.nodup_cons] at h
      rw [put]
      by_cases hk : k = key
      · rw [if_pos hk]
        exact List.nodup_cons.mpr h
      · rw [if_neg hk, List.map_cons, List.nodup_cons]
        refine ⟨?_, ih h.2⟩
        -- The key that is put is another one, and the others are there already.
        intro hmem
        obtain ⟨entry, hentry, hkey⟩ := List.mem_map.mp hmem
        rcases mem_of_mem_put hentry with rfl | hold
        · exact hk hkey.symm
        · exact h.1 (hkey ▸ List.mem_map_of_mem hold)

theorem mem_of_get? {entries : Entries κ ν} {key : κ} {value : ν}
    (h : entries.get? key = some value) : (key, value) ∈ entries := by
  obtain ⟨front, back, rfl, -⟩ := List.lookup_eq_some_iff.mp h
  simp

end Entries

-- A text that is the decimal form of an integer is no key of its own.
def Key.IsCanonical : Key → Prop
  | .int _ => True
  | .text s => ∀ n : Int64, s ≠ toString n.toInt

namespace Value

def hasEntries : Value → Bool
  | array _ => true
  | _ => false

-- What every array holds, at any depth: each key once, no two names for one key, and
-- elements that have a content.
inductive WellFormed : Value → Prop where
  | plain {v : Value} : v.hasEntries = false → WellFormed v
  | array {entries : Entries Key Value} : (entries.map Prod.fst).Nodup →
      (∀ entry ∈ entries, entry.1.IsCanonical) → (∀ entry ∈ entries, entry.2.isKnown = true) →
      (∀ entry ∈ entries, WellFormed entry.2) → WellFormed (array entries)

section Decimal

-- Digits without a leading zero are read back with either sign.
theorem canonicalInt?_toDigits (n : Nat) :
    canonicalInt? (Nat.toDigits 10 n) = Number.word? n ∧
      (0 < n → canonicalInt? ('-' :: Nat.toDigits 10 n) = Number.word? (-n)) := by
  have hdigit : ∀ c ∈ Nat.toDigits 10 n, c.isDigit = true := fun c =>
    Nat.isDigit_of_mem_toDigits (by decide) (by decide)
  have hvalue : Number.ofDecimalDigits (Nat.toDigits 10 n) = n := by
    rw [Number.ofDecimalDigits_eq hdigit, Nat.ofDigitChars_ten_toDigits]
  obtain ⟨c, cs, hcons⟩ := List.exists_cons_of_ne_nil (Nat.toDigits_ne_nil (n := n) (b := 10))
  rw [hcons] at hvalue hdigit ⊢
  have hminus : c ≠ '-' := by
    rintro rfl
    exact absurd (hdigit '-' List.mem_cons_self) (by decide)
  have hall : (c :: cs).all Char.isDigit = true := List.all_eq_true.mpr hdigit
  by_cases hzero : c = '0'
  · -- Only zero itself starts with the digit zero.
    subst hzero
    obtain rfl := Source.eq_nil_of_toDigits hcons
    obtain rfl : 0 = n := hvalue
    exact ⟨rfl, fun h => absurd h (by decide)⟩
  · constructor
    · simp [canonicalInt?, hminus, hzero, hall, hvalue]
    · intro _
      simp [canonicalInt?, hzero, hall, hvalue]

theorem canonicalInt?_toString (n : Int64) : canonicalInt? (toString n.toInt).toList = some n := by
  have hword : Number.word? n.toInt = some n := Number.word?_eq_some_iff.mpr rfl
  rw [Int.toString_eq_repr, Int.repr_eq_if]
  by_cases hsign : 0 ≤ n.toInt
  · rw [if_pos hsign, Nat.toList_repr, (canonicalInt?_toDigits _).1, Int.toNat_of_nonneg hsign]
    exact hword
  · have hpos : 0 < (-n.toInt).toNat := by omega
    have hback : -((-n.toInt).toNat : Int) = n.toInt := by omega
    rw [if_neg hsign, String.toList_append, Nat.toList_repr]
    apply ((canonicalInt?_toDigits _).2 hpos).trans
    rw [hback]
    exact hword

-- Every value that is a key is a canonical one.
theorem isCanonical_of_toKey? {v : Value} {key : Key} (h : v.toKey? = some key) :
    key.IsCanonical := by
  cases v with
  | null =>
      obtain rfl := Option.some.inj h
      intro n hn
      have hread := canonicalInt?_toString n
      rw [← hn] at hread
      cases hread
  | bool | int | float =>
      obtain rfl := Option.some.inj h
      trivial
  | string s =>
      obtain rfl := Option.some.inj h
      cases hs : canonicalInt? s.toList with
      | some n => trivial
      | none =>
          intro n hn
          rw [hn, canonicalInt?_toString] at hs
          cases hs
  | _ => cases h

end Decimal

section Construction

theorem wellFormed_empty : WellFormed (array []) := by
  apply WellFormed.array <;> simp

-- The induction is on the elements that are still to be added. What was built so far is
-- an array in its own right.
theorem wellFormed_addElements {next : Option Int64} {entries result : Entries Key Value}
    {elements : List (Option Value × Value)} (hentries : WellFormed (array entries))
    (helements : ∀ element ∈ elements, element.2.WellFormed)
    (h : addElements next entries elements = some result) : WellFormed (array result) := by
  induction elements generalizing next entries with
  | nil =>
      obtain rfl := Option.some.inj h
      exact hentries
  | cons element rest ih =>
      obtain ⟨key, value⟩ := element
      obtain ⟨hvalue, hrest⟩ := List.forall_mem_cons.mp helements
      rw [addElements] at h
      by_cases hknown : value.isKnown = true
      · rw [if_pos hknown] at h
        cases hkey : key.elim (next.map Key.int) toKey? with
        | none => simp [hkey] at h
        | some k =>
            simp only [hkey] at h
            have hcanonical : k.IsCanonical := by
              cases key with
              | none =>
                  obtain ⟨n, -, rfl⟩ := Option.map_eq_some_iff.mp hkey
                  trivial
              | some v => exact isCanonical_of_toKey? hkey
            apply ih _ hrest h
            cases hentries with
            | plain hnone => cases hnone
            | array hdistinct hkeys hcontents hinner =>
                apply WellFormed.array
                · exact Entries.nodup_put k value hdistinct
                · exact Entries.forall_put hcanonical hkeys
                · exact Entries.forall_put hknown hcontents
                · exact Entries.forall_put hvalue hinner
      · rw [if_neg hknown] at h
        cases h

theorem wellFormed_ofElements {elements : List (Option Value × Value)}
    (h : ∀ element ∈ elements, element.2.WellFormed) : (ofElements elements).WellFormed := by
  rw [ofElements]
  cases hresult : addElements (some 0) [] elements with
  | none => exact .plain rfl
  | some entries => exact wellFormed_addElements wellFormed_empty h hresult

theorem wellFormed_element {container : Value} (index : Value) (h : container.WellFormed) :
    (element container index).WellFormed := by
  simp only [element]
  split
  · next entries key _ =>
      cases h with
      | plain hnone => cases hnone
      | array _ _ _ hinner =>
          cases hget : Entries.get? entries key with
          | none => exact .plain rfl
          | some value => exact hinner (key, value) (Entries.mem_of_get? hget)
  · exact .plain rfl

theorem wellFormed_toArray {v : Value} (hknown : v.isKnown = true) (h : v.WellFormed) :
    v.toArray.WellFormed := by
  cases v with
  | null => exact wellFormed_empty
  | array entries => exact h
  | _ =>
      apply WellFormed.array
      · simp
      all_goals simp_all [Key.IsCanonical]

end Construction

section Operators

-- No operator makes an array, and of the conversions only the one to an array does.

theorem hasEntries_ofBool? (b : Option Bool) : (ofBool? b).hasEntries = false := by
  cases b <;> rfl

theorem hasEntries_ofString? (s : Option String) : (ofString? s).hasEntries = false := by
  cases s <;> rfl

theorem hasEntries_arithmeticShape (a b : Value) : (arithmeticShape a b).hasEntries = false := by
  simp only [arithmeticShape]
  split <;> rfl

theorem hasEntries_integralShape (a b : Value) : (integralShape a b).hasEntries = false := by
  rw [integralShape]
  split <;> rfl

theorem hasEntries_elim_int (n : Option Int64) (x : Float) :
    (n.elim (float x) int).hasEntries = false := by
  cases n <;> rfl

theorem hasEntries_arithmetic (exact : Int → Int → Int) (rounded : Float → Float → Float)
    (a b : Value) : (arithmetic exact rounded a b).hasEntries = false := by
  rw [arithmetic]
  split
  · split <;> rfl
  · rfl
  · apply hasEntries_arithmeticShape

theorem hasEntries_quotient (x y : Number) : (quotient x y).hasEntries = false := by
  cases x with
  | float => rfl
  | int n =>
      cases y with
      | float => rfl
      | int m =>
          simp only [quotient]
          split
          · apply hasEntries_elim_int
          · rfl

theorem hasEntries_divide (a b : Value) : (divide a b).value.hasEntries = false := by
  rw [divide]
  split
  · apply hasEntries_arithmeticShape
  · split
    · rfl
    · split
      · apply hasEntries_arithmeticShape
      · apply hasEntries_quotient

theorem hasEntries_modulo (a b : Value) : (modulo a b).value.hasEntries = false := by
  rw [modulo]
  split
  · apply hasEntries_integralShape
  · split
    · rfl
    · split
      · apply hasEntries_integralShape
      · rfl

theorem hasEntries_power (a b : Value) : (power a b).hasEntries = false := by
  rw [power]
  split
  · next x y _ _ =>
      cases x with
      | float => rfl
      | int n =>
          cases y with
          | float => rfl
          | int m =>
              simp only [numberPower]
              split
              · apply hasEntries_elim_int
              · rfl
  · apply hasEntries_arithmeticShape

theorem hasEntries_concat (a b : Value) : (concat a b).hasEntries = false := by
  rw [concat]
  split
  · rfl
  · split <;> rfl

theorem hasEntries_bitwise (onBytes : List UInt8 → List UInt8 → List UInt8)
    (onWords : Int64 → Int64 → Int64) (a b : Value) :
    (bitwise onBytes onWords a b).hasEntries = false := by
  unfold bitwise
  split
  · apply hasEntries_ofString?
  · split
    · rfl
    · apply hasEntries_integralShape

theorem hasEntries_shift (onWords : Int64 → Int64 → Int64) (a b : Value) :
    (shift onWords a b).hasEntries = false := by
  rw [shift]
  split
  · split <;> rfl
  · apply hasEntries_integralShape

theorem hasEntries_relation (holds : Value → Value → Bool) (a b : Value) :
    (relation holds a b).hasEntries = false := by
  rw [relation]
  split <;> rfl

theorem hasEntries_threeWay (a b : Value) : (threeWay a b).hasEntries = false := by
  rw [threeWay]
  split
  · split <;> rfl
  · rfl

theorem wellFormed_binary (op : BinaryOp) (a b : Value) : (binary op a b).value.WellFormed := by
  apply WellFormed.plain
  cases op with
  | add | subtract | multiply => apply hasEntries_arithmetic
  | divide => apply hasEntries_divide
  | modulo => apply hasEntries_modulo
  | power => apply hasEntries_power
  | concat => apply hasEntries_concat
  | bitwiseAnd | bitwiseOr | bitwiseXor => apply hasEntries_bitwise
  | shiftLeft | shiftRight => apply hasEntries_shift
  | booleanAnd | booleanOr | logicalAnd | logicalOr | logicalXor => apply hasEntries_ofBool?
  | spaceship => apply hasEntries_threeWay
  | _ => apply hasEntries_relation

theorem wellFormed_unary (op : UnaryOp) (a : Value) : (unary op a).WellFormed := by
  apply WellFormed.plain
  cases op with
  | booleanNot => apply hasEntries_ofBool?
  | plus =>
      rw [unary]
      cases a.toNumber? with
      | none => apply hasEntries_arithmeticShape
      | some n => cases n <;> rfl
  | minus =>
      rw [unary]
      cases a.toNumber? with
      | none => apply hasEntries_arithmeticShape
      | some n =>
          cases n with
          | int => apply hasEntries_elim_int
          | float => rfl
  | bitwiseNot =>
      cases a with
      | string s => apply hasEntries_ofString?
      | any shape => cases shape <;> rfl
      | _ => rfl

theorem wellFormed_cast (type : CastType) {v : Value} (h : v.WellFormed) :
    (cast type v).WellFormed := by
  rw [cast]
  by_cases hknown : v.isKnown = true
  · rw [if_pos hknown]
    cases type with
    | array => exact wellFormed_toArray hknown h
    | int =>
        apply WellFormed.plain
        rw [castKnown]
        cases v.toInt? <;> rfl
    | float =>
        apply WellFormed.plain
        rw [castKnown]
        cases v.toFloat? <;> rfl
    | string => exact .plain (hasEntries_ofString? _)
    | bool => exact .plain (hasEntries_ofBool? _)
    | object | unset => exact .plain rfl
  · rw [if_neg hknown]
    cases type with
    | bool => exact .plain (hasEntries_ofBool? _)
    | _ => exact .plain rfl

end Operators

end Value

end PhpLint
