namespace PhpLint

-- Values by key, in the order in which the keys came first.
abbrev Entries (κ ν : Type) := List (κ × ν)

namespace Entries

variable {κ ν : Type} [DecidableEq κ]

-- A repeated key keeps its first place and takes the last value.
def put (key : κ) (value : ν) : Entries κ ν → Entries κ ν
  | [] => [(key, value)]
  | (k, v) :: rest => if k = key then (k, value) :: rest else (k, v) :: put key value rest

def get? (entries : Entries κ ν) (key : κ) : Option ν :=
  entries.lookup key

def remove (key : κ) (entries : Entries κ ν) : Entries κ ν :=
  entries.filter (·.1 ≠ key)

theorem get?_put (entries : Entries κ ν) (key other : κ) (value : ν) :
    (entries.put key value).get? other = if other = key then some value else entries.get? other := by
  induction entries with
  | nil =>
    by_cases h : other = key
    · simp [put, get?, h]
    · have hb : (other == key) = false := by simpa using h
      simp [put, get?, List.lookup_cons, h, hb]
  | cons entry rest ih =>
    obtain ⟨k, v⟩ := entry
    simp only [get?] at ih
    by_cases hk : k = key
    · subst hk
      by_cases h : other = k
      · simp [put, get?, h]
      · have hb : (other == k) = false := by simpa using h
        simp [put, get?, List.lookup_cons, h, hb]
    · by_cases h : other = k
      · subst h
        simp [put, get?, hk]
      · have hb : (other == k) = false := by simpa using h
        simp [put, get?, List.lookup_cons, hk, hb, ih]

theorem get?_remove (entries : Entries κ ν) (key other : κ) :
    (entries.remove key).get? other = if other = key then none else entries.get? other := by
  induction entries with
  | nil => simp [remove, get?]
  | cons entry rest ih =>
    obtain ⟨k, v⟩ := entry
    simp only [get?, remove] at ih
    by_cases hk : k = key
    · subst hk
      by_cases h : other = k
      · simpa [remove, get?, h] using ih
      · have hb : (other == k) = false := by simpa using h
        simpa [remove, get?, List.lookup_cons, h, hb] using ih
    · by_cases h : other = k
      · subst h
        simp [remove, get?, hk]
      · have hb : (other == k) = false := by simpa using h
        simpa [remove, get?, List.lookup_cons, hk, hb] using ih

end Entries

end PhpLint
