import Mathlib.Data.List.Perm.Subperm
import PhpLint.Proofs.Value.ArrayLiteral
import PhpLint.Proofs.Value.Mirror

namespace PhpLint

-- Distinct keys that stand among as many other ones are all of these.
theorem Entries.exists_mem_of_keys_subset {κ ν : Type} {entries others : Entries κ ν}
    (hdistinct : (entries.map Prod.fst).Nodup) (hlength : entries.length = others.length)
    (hsubset : entries.map Prod.fst ⊆ others.map Prod.fst) {entry : κ × ν}
    (hentry : entry ∈ others) : ∃ value, (entry.1, value) ∈ entries := by
  have hperm : List.Perm (entries.map Prod.fst) (others.map Prod.fst) := by
    apply (List.subperm_of_subset hdistinct hsubset).perm_of_length_le
    simp [hlength]
  have hmem := hperm.mem_iff.mpr (List.mem_map_of_mem hentry)
  simpa using hmem

namespace Value

-- Values whose content is known to the last element, with each key once in every array.
inductive Concrete : Value → Prop where
  | scalar {v : Value} : v.isKnown = true → v.hasEntries = false → Concrete v
  | array {entries : Entries Key Value} : (entries.map Prod.fst).Nodup →
      (∀ entry ∈ entries, Concrete entry.2) → Concrete (array entries)

theorem Concrete.isKnown {v : Value} (h : v.Concrete) : v.isKnown = true := by
  cases h with
  | scalar hknown => exact hknown
  | array => rfl

theorem concrete_of_scalars {entries : Entries Key Value} (hdistinct : (entries.map Prod.fst).Nodup)
    (hscalars : ∀ entry ∈ entries, entry.2.isKnown = true ∧ entry.2.hasEntries = false) :
    (Value.array entries).Concrete :=
  .array hdistinct fun entry hentry =>
    .scalar (hscalars entry hentry).1 (hscalars entry hentry).2

-- How an entry of one array compares with the entry of another one under the same key.
def compareUnder? (others : Entries Key Value) (entry : Key × Value) : Option Ordering :=
  (others.get? entry.1).bind entry.2.compare?

section Walk

variable {entries others : Entries Key Value}

theorem compareUnder?_of_mem {k : Key} {w : Value} (hdistinct : (others.map Prod.fst).Nodup)
    (hw : (k, w) ∈ others) (v : Value) : compareUnder? others (k, v) = v.compare? w := by
  rw [compareUnder?, (Entries.mem_iff_get?_eq_some hdistinct k w).mp hw, Option.bind_some]

theorem mem_keys_of_compareUnder? {entry : Key × Value} {o : Ordering}
    (h : compareUnder? others entry = some o) : entry.1 ∈ others.map Prod.fst := by
  obtain ⟨w, hw, -⟩ := Option.bind_eq_some_iff.mp h
  exact List.mem_map.mpr ⟨(entry.1, w), Entries.mem_of_get? hw, rfl⟩

theorem compareEntries?_cons (entry : Key × Value) (rest others : Entries Key Value) :
    compareEntries? (entry :: rest) others =
      if compareUnder? others entry = some .eq then compareEntries? rest others
      else compareUnder? others entry := by
  rw [compareEntries?, compareUnder?, Entries.get?]
  cases others.lookup entry.1 with
  | none => rfl
  | some w =>
      cases hw : entry.2.compare? w with
      | none => simp [hw]
      | some o => cases o <;> simp [hw]

-- The walk over the entries ends without a difference if each of them has an equal one.
theorem compareEntries?_eq_iff : compareEntries? entries others = some .eq ↔
    ∀ entry ∈ entries, compareUnder? others entry = some .eq := by
  induction entries with
  | nil => simp [compareEntries?]
  | cons entry rest ih =>
      rw [List.forall_mem_cons, ← ih, compareEntries?_cons]
      by_cases h : compareUnder? others entry = some .eq
      · simp [h]
      · simp [h]

theorem compare?_array_eq_iff : (array entries).compare? (array others) = some .eq ↔
    entries.length = others.length ∧
      ∀ entry ∈ entries, compareUnder? others entry = some .eq := by
  rw [compare?, ← compareEntries?_eq_iff]
  by_cases hlength : entries.length = others.length
  · simp [hlength]
  · simp [hlength]

end Walk

section Identity

mutual
theorem isIdentical_comm : ∀ a b : Value, isIdentical a b = isIdentical b a
  | array a, b => by
    have h := isIdenticalEntries_comm a
    cases b <;> simp [isIdentical, h]
  | float x, b => by
    cases b with
    | float y => exact BEq.comm
    | _ => rfl
  | unknown, b | any _, b | null, b | bool _, b | int _, b | string _, b | object _, b
  | argument _, b | constant _, b => by
    cases b <;> simp [isIdentical, Bool.beq_comm]

theorem isIdenticalEntries_comm :
    ∀ a b : List (Key × Value), isIdenticalEntries a b = isIdenticalEntries b a
  | [], b => by cases b <;> simp [isIdenticalEntries]
  | (k, v) :: a, b => by
    have hv := isIdentical_comm v
    have ha := isIdenticalEntries_comm a
    cases b <;> simp [isIdenticalEntries, hv, ha, BEq.comm]
end

theorem forall_of_isIdenticalEntries {entries others : Entries Key Value}
    (h : isIdenticalEntries entries others = true) :
    entries.map Prod.fst = others.map Prod.fst ∧
      ∀ entry ∈ entries, ∃ w, (entry.1, w) ∈ others ∧ isIdentical entry.2 w = true := by
  induction entries generalizing others with
  | nil =>
      cases others with
      | nil => simp
      | cons => cases h
  | cons entry rest ih =>
      obtain ⟨k, v⟩ := entry
      cases others with
      | nil => cases h
      | cons other more =>
          obtain ⟨l, w⟩ := other
          simp only [isIdenticalEntries, Bool.and_eq_true, beq_iff_eq] at h
          obtain ⟨⟨rfl, hvw⟩, hrest⟩ := h
          obtain ⟨hkeys, hforall⟩ := ih hrest
          refine ⟨congrArg (k :: ·) hkeys, List.forall_mem_cons.mpr ⟨⟨w, by simp, hvw⟩, ?_⟩⟩
          intro entry hentry
          obtain ⟨x, hx, hidentical⟩ := hforall entry hentry
          exact ⟨x, List.mem_cons_of_mem _ hx, hidentical⟩

-- A text is equal to itself also as a number, since no numeral denotes what is not one.
theorem compareScalars?_string_self (s : String) :
    compareScalars? (string s) (string s) = some .eq := by
  rw [compareScalars?]
  cases hs : Number.ofText? s with
  | none => simp
  | some x => exact Number.compare?_self_of_ofText? hs

theorem compareScalars?_eq_of_isIdentical {a b : Value} (hscalar : a.hasEntries = false)
    (h : isIdentical a b = true) : compareScalars? a b = some .eq := by
  cases a with
  | null =>
      cases b with
      | null => rfl
      | _ => cases h
  | bool x =>
      cases b with
      | bool y =>
          obtain rfl : x = y := by simpa [isIdentical] using h
          cases x <;> rfl
      | _ => cases h
  | int n =>
      cases b with
      | int m =>
          obtain rfl : n = m := by simpa [isIdentical] using h
          apply Number.compare?_self (a := .int n)
          intro x hx
          cases hx
      | _ => cases h
  | float x =>
      cases b with
      | float y => exact Number.compare?_float_of_beq h
      | _ => cases h
  | string s =>
      cases b with
      | string t =>
          obtain rfl : s = t := by simpa [isIdentical] using h
          exact compareScalars?_string_self s
      | _ => cases h
  | array => cases hscalar
  | _ => cases h

theorem compare?_eq_of_isIdentical {a b : Value} (ha : a.Concrete)
    (h : isIdentical a b = true) : a.compare? b = some .eq := by
  induction ha generalizing b with
  | scalar _ hscalar =>
      rw [compare?_eq_compareScalars? (.inl hscalar)]
      exact compareScalars?_eq_of_isIdentical hscalar h
  | @array entries hdistinct _ ih =>
      cases b with
      | array others =>
          rw [isIdentical] at h
          obtain ⟨hkeys, hforall⟩ := forall_of_isIdenticalEntries h
          refine compare?_array_eq_iff.mpr ⟨?_, ?_⟩
          · simpa using congrArg List.length hkeys
          · intro entry hentry
            obtain ⟨w, hw, hidentical⟩ := hforall entry hentry
            rw [compareUnder?_of_mem (hkeys ▸ hdistinct) hw]
            exact ih entry hentry hidentical
      | _ => cases h

end Identity

-- What one side finds under each of its keys the other side finds too: both have the same
-- number of keys, so neither has a key of its own.
theorem compare?_eq_symm {a b : Value} (ha : a.Concrete) (hb : b.Concrete)
    (h : a.compare? b = some .eq) : b.compare? a = some .eq := by
  induction ha generalizing b with
  | scalar hknown hscalar =>
      rw [compare?_swap_of_hasEntries hknown hb.isKnown (.inl hscalar), h]
      rfl
  | @array entries hdistinct _ ih =>
      cases hb with
      | scalar hknown hscalar =>
          rw [compare?_swap_of_hasEntries rfl hknown (.inr hscalar), h]
          rfl
      | @array others hothers hinner =>
          obtain ⟨hlength, hequal⟩ := compare?_array_eq_iff.mp h
          refine compare?_array_eq_iff.mpr ⟨hlength.symm, fun other hother => ?_⟩
          have hsubset : entries.map Prod.fst ⊆ others.map Prod.fst := by
            intro k hk
            obtain ⟨entry, hentry, rfl⟩ := List.mem_map.mp hk
            exact mem_keys_of_compareUnder? (hequal entry hentry)
          obtain ⟨v, hv⟩ := Entries.exists_mem_of_keys_subset hdistinct hlength hsubset hother
          have hvw := hequal _ hv
          rw [compareUnder?_of_mem hothers hother] at hvw
          rw [compareUnder?_of_mem hdistinct hv]
          exact ih _ hv (hinner other hother) hvw

-- Strict equality is a part of loose equality, and neither depends on the order of its
-- operands, also where the keys of arrays are in different orders.
theorem identity_refines_equality {a b : Value} (ha : a.Concrete) (hb : b.Concrete) :
    (isIdentical a b = true → a.compare? b = some .eq) ∧ isIdentical a b = isIdentical b a ∧
      (a.compare? b = some .eq ↔ b.compare? a = some .eq) :=
  ⟨compare?_eq_of_isIdentical ha, isIdentical_comm a b,
    compare?_eq_symm ha hb, compare?_eq_symm hb ha⟩

-- The same texts as numbers, under the same keys in another order, and an array inside
-- another one that is identical to itself.
theorem identity_refines_equality_reordered :
    let a := array [(.text "x", int 1), (.text "y", string "1e1")]
    let b := array [(.text "y", string "10"), (.text "x", string "1")]
    let nested := array [(.int 0, a), (.int 1, int 2)]
    a.Concrete ∧ b.Concrete ∧ isIdentical a b = false ∧ isIdentical b a = false ∧
      a.compare? b = some .eq ∧ b.compare? a = some .eq ∧
      nested.Concrete ∧ isIdentical nested nested = true ∧ nested.compare? nested = some .eq := by
  intro a b nested
  have ha : a.Concrete := concrete_of_scalars (by decide) (by decide)
  have hb : b.Concrete := concrete_of_scalars (by decide) (by decide)
  have hdiffer : isIdentical a b = false := by decide +kernel
  have hequal : a.compare? b = some .eq := by decide +kernel
  have hnested : nested.Concrete := .array (by decide) <| List.forall_mem_cons.mpr
    ⟨ha, List.forall_mem_singleton.mpr (.scalar rfl rfl)⟩
  have hsame : isIdentical nested nested = true := by decide +kernel
  obtain ⟨-, hcomm, hsymm⟩ := identity_refines_equality ha hb
  obtain ⟨hequals, -, -⟩ := identity_refines_equality hnested hnested
  exact ⟨ha, hb, hdiffer, hcomm ▸ hdiffer, hequal, hsymm.mp hequal, hnested, hsame,
    hequals hsame⟩

end Value

end PhpLint
