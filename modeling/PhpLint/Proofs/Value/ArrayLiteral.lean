import Mathlib.Data.List.Induction
import PhpLint.Proofs.Value.WellFormed

namespace PhpLint

namespace Entries

variable {κ ν : Type} [DecidableEq κ]

theorem keys_put (key : κ) (value : ν) (entries : Entries κ ν) :
    (entries.put key value).map Prod.fst =
      if key ∈ entries.map Prod.fst then entries.map Prod.fst
      else entries.map Prod.fst ++ [key] := by
  induction entries with
  | nil => simp [put]
  | cons entry rest ih =>
      obtain ⟨k, v⟩ := entry
      rw [put]
      by_cases hk : k = key
      · simp [hk]
      · rw [if_neg hk, List.map_cons, ih]
        by_cases hmem : key ∈ rest.map Prod.fst
        · simp [hmem]
        · simp [hmem, Ne.symm hk]

theorem mem_iff_get?_eq_some {entries : Entries κ ν} (h : (entries.map Prod.fst).Nodup)
    (key : κ) (value : ν) : (key, value) ∈ entries ↔ entries.get? key = some value := by
  refine ⟨fun hmem => ?_, mem_of_get?⟩
  obtain ⟨front, back, rfl⟩ := List.append_of_mem hmem
  refine List.lookup_eq_some_iff.mpr ⟨front, back, rfl, fun entry hentry => ?_⟩
  -- Were the key in front of the entry, it would be there twice.
  rw [List.map_append, List.nodup_append] at h
  have hne := h.2.2 entry.1 (List.mem_map_of_mem hentry) key (by simp)
  simpa using hne.symm

-- Entries that are given one after the other.
def putAll (entries : Entries κ ν) (given : List (κ × ν)) : Entries κ ν :=
  given.foldl (fun entries entry => entries.put entry.1 entry.2) entries

theorem putAll_append (entries : Entries κ ν) (given more : List (κ × ν)) :
    entries.putAll (given ++ more) = (entries.putAll given).putAll more :=
  List.foldl_append

-- The keys come in the order in which they were first given.
theorem keys_putAll (given : List (κ × ν)) :
    (putAll [] given).map Prod.fst = (given.map Prod.fst).eraseDups := by
  induction given using List.reverseRecOn with
  | nil => rfl
  | append_singleton given entry ih =>
      rw [putAll_append, List.map_append, List.eraseDups_append, ← ih]
      have hmem : entry.1 ∈ (putAll [] given).map Prod.fst ↔ entry.1 ∈ given.map Prod.fst := by
        rw [ih, List.mem_eraseDups]
      show ((putAll [] given).put entry.1 entry.2).map Prod.fst = _
      rw [keys_put]
      by_cases hold : entry.1 ∈ given.map Prod.fst
      · rw [if_pos (hmem.mpr hold)]
        simp [List.removeAll, hold]
      · rw [if_neg (mt hmem.mp hold)]
        simp [List.removeAll, hold, List.eraseDups_cons]

-- A key has the value that was given last for it.
theorem get?_putAll (given : List (κ × ν)) (key : κ) :
    (putAll [] given).get? key = given.reverse.lookup key := by
  induction given using List.reverseRecOn with
  | nil => rfl
  | append_singleton given entry ih =>
      rw [putAll_append, List.reverse_append]
      show ((putAll [] given).put entry.1 entry.2).get? key = List.lookup key (entry :: given.reverse)
      rw [get?_put, List.lookup_cons, ih]
      by_cases hkey : key = entry.1
      · simp [hkey]
      · have hb : (key == entry.1) = false := by simpa using hkey
        rw [if_neg hkey, hb]

theorem nodup_putAll (given : List (κ × ν)) : ((putAll [] given).map Prod.fst).Nodup := by
  induction given using List.reverseRecOn with
  | nil => exact List.nodup_nil
  | append_singleton given entry ih =>
      rw [putAll_append]
      exact nodup_put _ _ ih

end Entries

namespace Value

-- The index of an element without a key, by the keys that were used before it: one more than
-- the largest integer, or zero if there is none or all of them are negative.
inductive IsNextIndex (used : List Key) : Int64 → Prop where
  | first : (∀ m, Key.int m ∈ used → m.toInt < 0) → IsNextIndex used 0
  | following {m n : Int64} : Key.int m ∈ used → 0 ≤ m.toInt →
      (∀ k, Key.int k ∈ used → k.toInt ≤ m.toInt) → n.toInt = m.toInt + 1 → IsNextIndex used n

-- The key under which an element is added.
inductive TakesKey (used : List Key) : Option Value → Key → Prop where
  | given {key : Value} {k : Key} : key.toKey? = some k → TakesKey used (some key) k
  | next {n : Int64} : IsNextIndex used n → TakesKey used none (.int n)

-- The entries that elements give one after the other when these keys have been used.
inductive Assigns : List Key → List (Option Value × Value) → List (Key × Value) → Prop where
  | nil {used : List Key} : Assigns used [] []
  | cons {used : List Key} {key : Option Value} {value : Value} {k : Key}
      {rest : List (Option Value × Value)} {given : List (Key × Value)} :
      TakesKey used key k → Assigns (used ++ [k]) rest given →
      Assigns used ((key, value) :: rest) ((k, value) :: given)

-- Why elements make no array that is known.
inductive Unfoldable (elements : List (Option Value × Value)) : Prop where
  | vague {key : Option Value} {value : Value} : (key, value) ∈ elements →
      value.isKnown = false → Unfoldable elements
  | noKey {key value : Value} : (some key, value) ∈ elements → key.toKey? = none →
      Unfoldable elements
  | exhausted {front rest : List (Option Value × Value)} {value : Value}
      {given : List (Key × Value)} : elements = front ++ (none, value) :: rest →
      Assigns [] front given → Key.int Int64.maxValue ∈ given.map Prod.fst → Unfoldable elements

namespace IsNextIndex

variable {used : List Key} {n : Int64}

theorem nonneg (h : IsNextIndex used n) : 0 ≤ n.toInt := by
  cases h with
  | first => decide
  | following _ hm _ hn => omega

theorem lt_of_mem (h : IsNextIndex used n) {m : Int64} (hm : Key.int m ∈ used) :
    m.toInt < n.toInt := by
  cases h with
  | first hneg => exact hneg m hm
  | following _ _ hmax hn =>
      have hle := hmax m hm
      omega

theorem not_mem (h : IsNextIndex used n) : Key.int n ∉ used := by
  intro hmem
  exact absurd (h.lt_of_mem hmem) (Int.lt_irrefl _)

theorem maxValue_not_mem (h : IsNextIndex used n) : Key.int Int64.maxValue ∉ used := by
  intro hmem
  have hlt := h.lt_of_mem hmem
  have hle := Int64.toInt_le n
  omega

theorem append_text (h : IsNextIndex used n) (s : String) : IsNextIndex (used ++ [.text s]) n := by
  cases h with
  | first hneg => exact .first (by simpa using hneg)
  | following hm hnonneg hmax hn =>
      exact .following (List.mem_append_left _ hm) hnonneg (by simpa using hmax) hn

theorem append_smaller (h : IsNextIndex used n) {k : Int64} (hk : k.toInt < n.toInt) :
    IsNextIndex (used ++ [.int k]) n := by
  cases h with
  | first hneg =>
      refine .first fun m hm => ?_
      rcases List.mem_append.mp hm with hold | hnew
      · exact hneg m hold
      · cases List.mem_singleton.mp hnew
        exact hk
  | following hm hnonneg hmax hn =>
      refine .following (List.mem_append_left _ hm) hnonneg (fun other hother => ?_) hn
      rcases List.mem_append.mp hother with hold | hnew
      · exact hmax other hold
      · cases List.mem_singleton.mp hnew
        omega

theorem append_larger (h : IsNextIndex used n) {k next : Int64} (hk : n.toInt ≤ k.toInt)
    (hnext : next.toInt = k.toInt + 1) : IsNextIndex (used ++ [.int k]) next := by
  have hnonneg := h.nonneg
  refine .following (m := k) (by simp) (by omega) (fun other hother => ?_) hnext
  rcases List.mem_append.mp hother with hold | hnew
  · have hlt := h.lt_of_mem hold
    omega
  · cases List.mem_singleton.mp hnew
    exact Int.le_refl _

theorem unique (h : IsNextIndex used n) {m : Int64} (hm : IsNextIndex used m) : n = m := by
  apply Int64.toInt_inj.mp
  cases h with
  | first hneg =>
      cases hm with
      | first => rfl
      | following hk hnonneg =>
          have hlt := hneg _ hk
          omega
  | following hk hnonneg hmax hn =>
      cases hm with
      | first hneg =>
          have hlt := hneg _ hk
          omega
      | following hk' hnonneg' hmax' hn' =>
          have hle := hmax _ hk'
          have hle' := hmax' _ hk
          omega

end IsNextIndex

theorem word?_add_one (k : Int64) :
    (∃ next, Number.word? (k.toInt + 1) = some next ∧ next.toInt = k.toInt + 1) ∨
      Number.word? (k.toInt + 1) = none ∧ k = Int64.maxValue := by
  have hmin : Int64.minValue.toInt ≤ k.toInt := Int64.le_toInt k
  have hmax := Int64.toInt_le k
  rw [Number.word?]
  by_cases hfits : k.toInt + 1 ≤ Int64.maxValue.toInt
  · rw [if_pos ⟨by omega, hfits⟩]
    refine .inl ⟨_, rfl, Int64.toInt_ofInt_of_le ?_ ?_⟩
    · rw [Int64.toInt_minValue] at hmin
      omega
    · rw [Int64.toInt_maxValue] at hfits
      omega
  · rw [if_neg fun h => hfits h.2]
    exact .inr ⟨rfl, Int64.toInt_inj.mp (by omega)⟩

-- The running index after the given keys.
def nextAfter (used : List Key) : Option Int64 :=
  used.foldl nextIndex (some 0)

theorem nextAfter_append_singleton (used : List Key) (k : Key) :
    nextAfter (used ++ [k]) = nextIndex (nextAfter used) k := by
  simp [nextAfter]

-- Either the running index is right or none is left. By induction on the keys in the order
-- in which they are used.
theorem nextAfter_spec (used : List Key) :
    (∃ n, nextAfter used = some n ∧ IsNextIndex used n) ∨
      nextAfter used = none ∧ Key.int Int64.maxValue ∈ used := by
  induction used using List.reverseRecOn with
  | nil => exact .inl ⟨0, rfl, .first (by simp)⟩
  | append_singleton used k ih =>
      rw [nextAfter_append_singleton]
      rcases ih with ⟨n, hn, hnext⟩ | ⟨hnone, hmax⟩
      · rw [hn]
        cases k with
        | text s => exact .inl ⟨n, rfl, hnext.append_text s⟩
        | int k =>
            by_cases hk : n.toInt ≤ k.toInt
            · rw [nextIndex, if_pos hk]
              rcases word?_add_one k with ⟨next, hword, hvalue⟩ | ⟨hword, rfl⟩
              · exact .inl ⟨next, hword, hnext.append_larger hk hvalue⟩
              · exact .inr ⟨hword, by simp⟩
            · rw [nextIndex, if_neg hk]
              exact .inl ⟨n, rfl, hnext.append_smaller (by omega)⟩
      · rw [hnone]
        refine .inr ⟨?_, List.mem_append_left _ hmax⟩
        cases k <;> rfl

theorem nextAfter_of_isNextIndex {used : List Key} {n : Int64} (h : IsNextIndex used n) :
    nextAfter used = some n := by
  rcases nextAfter_spec used with ⟨m, hm, hnext⟩ | ⟨-, hmax⟩
  · rw [hm, hnext.unique h]
  · exact absurd hmax h.maxValue_not_mem

theorem nextAfter_of_maxValue_mem {used : List Key} (h : Key.int Int64.maxValue ∈ used) :
    nextAfter used = none := by
  rcases nextAfter_spec used with ⟨m, -, hnext⟩ | ⟨hnone, -⟩
  · exact absurd h hnext.maxValue_not_mem
  · exact hnone

theorem TakesKey.elim_eq {used : List Key} {key : Option Value} {k : Key}
    (h : TakesKey used key k) : key.elim ((nextAfter used).map Key.int) toKey? = some k := by
  cases h with
  | given hkey => exact hkey
  | next hnext => simp [nextAfter_of_isNextIndex hnext]

section Run

variable {used : List Key} {front rest elements : List (Option Value × Value)}
  {given : List (Key × Value)}

-- What is left to add after some elements. By induction on these.
theorem addElements_append (h : Assigns used front given)
    (hknown : ∀ element ∈ front, element.2.isKnown = true)
    (rest : List (Option Value × Value)) (entries : Entries Key Value) :
    addElements (nextAfter used) entries (front ++ rest) =
      addElements (nextAfter (used ++ given.map Prod.fst)) (entries.putAll given) rest := by
  induction h generalizing entries with
  | nil => simp [Entries.putAll]
  | @cons used key value k front given hkey hfront ih =>
      obtain ⟨hvalue, hvalues⟩ := List.forall_mem_cons.mp hknown
      rw [List.cons_append, addElements, if_pos hvalue, hkey.elim_eq]
      have hrest := ih hvalues (entries.put k value)
      rw [nextAfter_append_singleton, List.append_assoc] at hrest
      exact hrest

theorem ofElements_of_assigns (h : Assigns [] elements given)
    (hknown : ∀ element ∈ elements, element.2.isKnown = true) :
    ofElements elements = array (Entries.putAll [] given) := by
  have hrun := addElements_append h hknown [] []
  rw [List.append_nil] at hrun
  rw [ofElements]
  show Option.elim (addElements (nextAfter []) [] elements) unknown array = _
  rw [hrun]
  rfl

-- Only elements with a content and a key are added.
theorem forall_of_addElements {next : Option Int64} {entries result : Entries Key Value}
    (h : addElements next entries elements = some result) :
    ∀ element ∈ elements, element.2.isKnown = true ∧
      ∀ key, element.1 = some key → key.toKey? ≠ none := by
  induction elements generalizing next entries with
  | nil => simp
  | cons element rest ih =>
      obtain ⟨key, value⟩ := element
      rw [addElements] at h
      by_cases hknown : value.isKnown = true
      · rw [if_pos hknown] at h
        cases hkey : key.elim (next.map Key.int) toKey? with
        | none => simp [hkey] at h
        | some k =>
            simp only [hkey] at h
            refine List.forall_mem_cons.mpr ⟨⟨hknown, ?_⟩, ih h⟩
            rintro key rfl hnone
            cases hnone.symm.trans hkey
      · rw [if_neg hknown] at h
        cases h

theorem Unfoldable.addElements_eq_none (h : Unfoldable elements) :
    addElements (some 0) [] elements = none := by
  cases hresult : addElements (some 0) [] elements with
  | none => rfl
  | some result =>
      have hall := forall_of_addElements hresult
      cases h with
      | vague hmem hvague =>
          have hknown := (hall _ hmem).1
          rw [hvague] at hknown
          cases hknown
      | noKey hmem hnone => exact absurd hnone ((hall _ hmem).2 _ rfl)
      | @exhausted front rest value given hsplit hfront hmax =>
          subst hsplit
          have hknown : ∀ element ∈ front, element.2.isKnown = true := fun element hmem =>
            (hall element (List.mem_append_left _ hmem)).1
          have hrun := addElements_append hfront hknown ((none, value) :: rest) []
          rw [List.nil_append, nextAfter_of_maxValue_mem hmax] at hrun
          have hnone := hresult.symm.trans hrun
          rw [addElements] at hnone
          split at hnone <;> cases hnone

-- By induction on the elements, whatever was used before them.
theorem exists_assigns
    (hkeys : ∀ key value, (some key, value) ∈ elements → key.toKey? ≠ none)
    (hindices : ∀ front value rest given, elements = front ++ (none, value) :: rest →
      Assigns used front given → Key.int Int64.maxValue ∉ used ++ given.map Prod.fst) :
    ∃ given, Assigns used elements given := by
  induction elements generalizing used with
  | nil => exact ⟨[], .nil⟩
  | cons element rest ih =>
      obtain ⟨key, value⟩ := element
      obtain ⟨k, hk⟩ : ∃ k, TakesKey used key k := by
        cases key with
        | some key =>
            obtain ⟨k, hk⟩ := Option.ne_none_iff_exists'.mp (hkeys key value List.mem_cons_self)
            exact ⟨k, .given hk⟩
        | none =>
            have hmax := hindices [] value rest [] rfl .nil
            rcases nextAfter_spec used with ⟨n, -, hn⟩ | ⟨-, hmem⟩
            · exact ⟨.int n, .next hn⟩
            · exact absurd (by simpa using hmem) hmax
      obtain ⟨given, hgiven⟩ : ∃ given, Assigns (used ++ [k]) rest given := by
        apply ih
        · intro key value hmem
          exact hkeys key value (List.mem_cons_of_mem _ hmem)
        · rintro front value' rest' given rfl hfront
          have hmax := hindices ((key, value) :: front) value' rest' ((k, value) :: given) rfl
            (.cons hk hfront)
          simpa using hmax
      exact ⟨(k, value) :: given, .cons hk hgiven⟩

theorem exists_assigns_of_not_unfoldable (h : ¬Unfoldable elements) :
    ∃ given, Assigns [] elements given := by
  apply exists_assigns
  · intro key value hmem hnone
    exact h (.noKey hmem hnone)
  · intro front value rest given hsplit hfront hmax
    exact h (.exhausted hsplit hfront hmax)

-- An element without a key has the next index after those in front of it.
theorem Assigns.exists_of_plain {value : Value}
    (h : Assigns used (front ++ (none, value) :: rest) given) :
    ∃ before n after, given = before ++ (Key.int n, value) :: after ∧ Assigns used front before ∧
      IsNextIndex (used ++ before.map Prod.fst) n := by
  induction front generalizing used given with
  | nil =>
      cases h with
      | cons hkey hrest =>
          cases hkey with
          | @next n hn => exact ⟨[], n, _, rfl, .nil, by simpa using hn⟩
  | cons element front ih =>
      cases h with
      | cons hkey hrest =>
          obtain ⟨before, n, after, rfl, hfront, hn⟩ := ih hrest
          exact ⟨_ :: before, n, after, rfl, .cons hkey hfront, by simpa using hn⟩

end Run

theorem isKnown_of_not_unfoldable {elements : List (Option Value × Value)}
    (h : ¬Unfoldable elements) : ∀ element ∈ elements, element.2.isKnown = true := by
  intro element hmem
  by_contra hvague
  exact h (.vague hmem (by simpa using hvague))

theorem ofElements_eq_unknown_iff (elements : List (Option Value × Value)) :
    ofElements elements = unknown ↔ Unfoldable elements := by
  constructor
  · intro hunknown
    by_contra hfolds
    obtain ⟨given, hgiven⟩ := exists_assigns_of_not_unfoldable hfolds
    rw [ofElements_of_assigns hgiven (isKnown_of_not_unfoldable hfolds)] at hunknown
    cases hunknown
  · intro h
    rw [ofElements, h.addElements_eq_none]
    rfl

-- Elements make a known array unless one of them is vague, has no key, or comes without a key
-- after the largest index. Each key is there once, where it was first given and with the value
-- that was given last. An element without a key has the next index and replaces nothing. An
-- element is read by whatever index stands for its key.
theorem array_literals_fold (elements : List (Option Value × Value)) :
    (ofElements elements = unknown ↔ Unfoldable elements) ∧
    (¬Unfoldable elements → ∃ given entries, Assigns [] elements given ∧
      ofElements elements = array entries ∧
      entries.map Prod.fst = (given.map Prod.fst).eraseDups ∧ (entries.map Prod.fst).Nodup ∧
      (∀ k v, (k, v) ∈ entries ↔ given.reverse.lookup k = some v) ∧
      (∀ front value rest, elements = front ++ (none, value) :: rest →
        ∃ before n after, given = before ++ (Key.int n, value) :: after ∧
          Assigns [] front before ∧ IsNextIndex (before.map Prod.fst) n ∧
          Key.int n ∉ before.map Prod.fst) ∧
      ∀ index k, index.toKey? = some k →
        element (ofElements elements) index = (given.reverse.lookup k).getD unknown) := by
  refine ⟨ofElements_eq_unknown_iff elements, fun hfolds => ?_⟩
  obtain ⟨given, hgiven⟩ := exists_assigns_of_not_unfoldable hfolds
  have hvalue := ofElements_of_assigns hgiven (isKnown_of_not_unfoldable hfolds)
  have hnodup := Entries.nodup_putAll given
  refine ⟨given, Entries.putAll [] given, hgiven, hvalue, Entries.keys_putAll given, hnodup,
    fun k v => ?_, ?_, fun index k hindex => ?_⟩
  · rw [Entries.mem_iff_get?_eq_some hnodup, Entries.get?_putAll]
  · rintro front value rest rfl
    obtain ⟨before, n, after, rfl, hfront, hn⟩ := hgiven.exists_of_plain
    exact ⟨before, n, after, rfl, hfront, hn, hn.not_mem⟩
  · rw [hvalue]
    simp only [element, hindex, Entries.get?_putAll]

-- ["5" => 1, "x" => 2, 3, 5 => 4, -1 => 5]: the third element comes after the first one.
theorem array_literals_fold_mixed :
    let elements : List (Option Value × Value) :=
      [(some (string "5"), int 1), (some (string "x"), int 2), (none, int 3),
        (some (int 5), int 4), (some (int (-1)), int 5)]
    ¬Unfoldable elements ∧
    ofElements elements =
      array [(.int 5, int 4), (.text "x", int 2), (.int 6, int 3), (.int (-1), int 5)] ∧
    element (ofElements elements) (string "6") = int 3 := by
  intro elements
  have hvalue : ofElements elements =
      array [(.int 5, int 4), (.text "x", int 2), (.int 6, int 3), (.int (-1), int 5)] := by
    decide +kernel
  refine ⟨?_, hvalue, ?_⟩
  · rw [← (array_literals_fold elements).1, hvalue]
    intro h
    cases h
  · rw [hvalue]
    decide +kernel

end Value

end PhpLint
