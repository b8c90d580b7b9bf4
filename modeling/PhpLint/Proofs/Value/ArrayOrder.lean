import PhpLint.Proofs.Value.Equality

namespace PhpLint.Value

-- The first entry of an array that has no equal one under the same key in another array.
def firstDifference? (entries others : Entries Key Value) : Option (Key × Value) :=
  entries.find? fun entry => compareUnder? others entry != some .eq

-- Arrays that are not compared entry by entry, or that have the same keys in the same
-- order, at every depth.
inductive Aligned : Value → Value → Prop where
  | scalar {a b : Value} : a.hasEntries = false ∨ b.hasEntries = false → Aligned a b
  | length {entries others : Entries Key Value} : entries.length ≠ others.length →
      Aligned (array entries) (array others)
  | array {entries others : Entries Key Value} :
      entries.map Prod.fst = others.map Prod.fst →
      (∀ k v w, (k, v) ∈ entries → (k, w) ∈ others → Aligned v w) →
      Aligned (array entries) (array others)

section Walk

variable {entries others : Entries Key Value}

-- The walk over the entries ends at the first difference.
theorem compareEntries?_eq_elim (entries others : Entries Key Value) :
    compareEntries? entries others =
      (firstDifference? entries others).elim (some .eq) (compareUnder? others) := by
  induction entries with
  | nil =>
      rw [compareEntries?]
      rfl
  | cons entry rest ih =>
      rw [compareEntries?_cons, firstDifference?]
      by_cases h : compareUnder? others entry = some .eq
      · rw [if_pos h, ih, List.find?_cons_of_neg (by simp [h]), firstDifference?]
      · rw [if_neg h, List.find?_cons_of_pos (by simpa using h)]
        rfl

theorem compareUnder?_ne_eq {entry : Key × Value}
    (h : firstDifference? entries others = some entry) : compareUnder? others entry ≠ some .eq := by
  simpa using List.find?_some h

theorem compare?_array_of_length_ne (h : entries.length ≠ others.length) :
    (array entries).compare? (array others) = some (compare entries.length others.length) := by
  rw [compare?, if_neg h]

theorem compare?_array_of_length_eq (h : entries.length = others.length) :
    (array entries).compare? (array others) =
      (firstDifference? entries others).elim (some .eq) (compareUnder? others) := by
  rw [compare?, if_pos h, compareEntries?_eq_elim]

-- The induction is on what is left of both arrays. Their entries come with the same keys,
-- and each finds the other one.
theorem compareEntries?_swap {rest more : Entries Key Value}
    (hentries : (entries.map Prod.fst).Nodup) (hothers : (others.map Prod.fst).Nodup)
    (hrest : rest ⊆ entries) (hmore : more ⊆ others) (hkeys : rest.map Prod.fst = more.map Prod.fst)
    (hswap : ∀ k v w, (k, v) ∈ entries → (k, w) ∈ others →
      w.compare? v = (v.compare? w).map Ordering.swap) :
    compareEntries? more entries = (compareEntries? rest others).map Ordering.swap := by
  induction rest generalizing more with
  | nil =>
      obtain rfl : more = [] := by simpa using hkeys.symm
      simp [compareEntries?]
  | cons entry rest ih =>
      obtain ⟨k, v⟩ := entry
      cases more with
      | nil => cases hkeys
      | cons other more =>
          obtain ⟨l, w⟩ := other
          obtain ⟨rfl, hkeysrest⟩ : k = l ∧ rest.map Prod.fst = more.map Prod.fst := by
            simpa using hkeys
          obtain ⟨hv, hrest⟩ := List.cons_subset.mp hrest
          obtain ⟨hw, hmore⟩ := List.cons_subset.mp hmore
          rw [compareEntries?_cons, compareEntries?_cons, compareUnder?_of_mem hothers hw,
            compareUnder?_of_mem hentries hv, hswap k v w hv hw, ih hrest hmore hkeysrest]
          rcases v.compare? w with _ | _ | _ | _ <;> rfl

theorem compare?_swap_of_aligned {a b : Value} (h : Aligned a b) (ha : a.Concrete)
    (hb : b.Concrete) : b.compare? a = (a.compare? b).map Ordering.swap := by
  induction h with
  | scalar hscalar => exact compare?_swap_of_hasEntries ha.isKnown hb.isKnown hscalar
  | length hlength =>
      rw [compare?_array_of_length_ne hlength, compare?_array_of_length_ne hlength.symm]
      exact congrArg some Std.OrientedOrd.eq_swap
  | @array entries others hkeys _ ih =>
      have hlength : entries.length = others.length := by simpa using congrArg List.length hkeys
      rw [compare?, compare?, if_pos hlength, if_pos hlength.symm]
      cases ha with
      | scalar _ hnone => cases hnone
      | array hentries hvalues =>
          cases hb with
          | scalar _ hnone => cases hnone
          | array hothers hothervalues =>
              apply compareEntries?_swap hentries hothers (List.Subset.refl _)
                (List.Subset.refl _) hkeys
              intro k v w hv hw
              exact ih k v w hv hw (hvalues _ hv) (hothervalues _ hw)

end Walk

-- Whether the order of two values is the same when it is asked from the other side.
def Reversible (a b : Value) : Prop :=
  binary .greater a b = binary .smaller b a ∧
    binary .greaterOrEqual a b = binary .smallerOrEqual b a

-- Equality is symmetric, so only the two strict orders can disagree.
theorem reversible_iff {a b : Value} (ha : a.Concrete) (hb : b.Concrete) :
    Reversible a b ↔ (a.compare? b = some .gt ↔ b.compare? a = some .lt) := by
  have heq : a.compare? b = some .eq ↔ b.compare? a = some .eq :=
    ⟨compare?_eq_symm ha hb, compare?_eq_symm hb ha⟩
  simp only [Reversible, binary, relation_of_isKnown _ ha.isKnown hb.isKnown,
    relation_of_isKnown _ hb.isKnown ha.isKnown, Outcome.mk.injEq, bool.injEq, and_true,
    beq_eq_decide, ← Bool.decide_or, decide_eq_decide, heq]
  constructor
  · exact And.left
  · intro h
    exact ⟨h, or_congr_left h⟩

theorem reversible_of_aligned {a b : Value} (h : Aligned a b) (ha : a.Concrete)
    (hb : b.Concrete) : Reversible a b := by
  have hmirrors : b.Mirrors a := mirrors_of_compare?_swap hb.isKnown ha.isKnown
    (eq_map_swap_comm.mp (compare?_swap_of_aligned h ha hb))
  exact ⟨hmirrors.smaller.symm, hmirrors.smallerOrEqual.symm⟩

-- Each array is walked in its own order, so the first differences of the two walks can be
-- under different keys. The order is the same from both sides exactly if these agree. They
-- do for arrays with their keys in the same order.
theorem array_order_reversible_iff {entries others : Entries Key Value}
    (ha : (array entries).Concrete) (hb : (array others).Concrete) :
    (Reversible (array entries) (array others) ↔ (entries.length = others.length →
      ∀ entry ∈ firstDifference? entries others, ∀ other ∈ firstDifference? others entries,
        (compareUnder? others entry = some .gt ↔ compareUnder? entries other = some .lt))) ∧
    (Aligned (array entries) (array others) → Reversible (array entries) (array others)) := by
  refine ⟨?_, fun haligned => reversible_of_aligned haligned ha hb⟩
  by_cases hlength : entries.length = others.length
  · have heq : (array entries).compare? (array others) = some .eq ↔
        (array others).compare? (array entries) = some .eq :=
      ⟨compare?_eq_symm ha hb, compare?_eq_symm hb ha⟩
    rw [compare?_array_of_length_eq hlength, compare?_array_of_length_eq hlength.symm] at heq
    rw [reversible_iff ha hb, compare?_array_of_length_eq hlength,
      compare?_array_of_length_eq hlength.symm]
    -- Either both walks end at a difference or none does.
    cases hentry : firstDifference? entries others with
    | none =>
        cases hother : firstDifference? others entries with
        | none => simp
        | some other =>
            have hne := compareUnder?_ne_eq hother
            simp [hentry, hother, hne] at heq
    | some entry =>
        have hne := compareUnder?_ne_eq hentry
        cases hother : firstDifference? others entries with
        | none => simp [hentry, hother, hne] at heq
        | some other => simp [hlength]
  · simp [hlength, reversible_of_aligned (.length hlength) ha hb]

theorem array_order_reversible_sameKeys :
    let entries : Entries Key Value := [(.text "x", int 1), (.text "y", int 2)]
    let others : Entries Key Value := [(.text "x", string "1"), (.text "y", int 1)]
    (array entries).Concrete ∧ (array others).Concrete ∧
      Aligned (array entries) (array others) ∧ Reversible (array entries) (array others) := by
  intro entries others
  have ha : (array entries).Concrete := concrete_of_scalars (by decide) (by decide)
  have hb : (array others).Concrete := concrete_of_scalars (by decide) (by decide)
  have hscalars : ∀ entry ∈ entries, entry.2.hasEntries = false := by decide
  have haligned : Aligned (array entries) (array others) :=
    .array rfl fun k v _ hv _ => .scalar (.inl (hscalars (k, v) hv))
  exact ⟨ha, hb, haligned, (array_order_reversible_iff ha hb).2 haligned⟩

-- The first walk ends at the key x and the second one at the key y, each at a smaller value.
theorem array_order_not_reversible :
    let a := array [(.text "x", int 1), (.text "y", int 2)]
    let b := array [(.text "y", int 1), (.text "x", int 2)]
    a.Concrete ∧ b.Concrete ∧ binary .greater a b = ⟨bool false, none⟩ ∧
      binary .smaller b a = ⟨bool true, none⟩ ∧ ¬Reversible a b := by
  intro a b
  have hgreater : binary .greater a b = ⟨bool false, none⟩ := by decide +kernel
  have hsmaller : binary .smaller b a = ⟨bool true, none⟩ := by decide +kernel
  refine ⟨concrete_of_scalars (by decide) (by decide), concrete_of_scalars (by decide) (by decide),
    hgreater, hsmaller, fun h => ?_⟩
  have hsame := h.1
  rw [hgreater, hsmaller] at hsame
  cases hsame

end PhpLint.Value
