import PhpLint.Value.Convert

namespace PhpLint.Value

-- Strict equality needs equal shapes. Arrays have equal entries in equal order.
mutual
def isIdentical : Value → Value → Bool
  | null, null => true
  | bool a, bool b => a == b
  | int a, int b => a == b
  | float a, float b => a == b
  | string a, string b => a == b
  | array a, array b => isIdenticalEntries a b
  | _, _ => false

def isIdenticalEntries : List (Key × Value) → List (Key × Value) → Bool
  | [], [] => true
  | (k, v) :: a, (l, w) :: b => k == l && isIdentical v w && isIdenticalEntries a b
  | _, _ => false
end

-- Values that turn a comparison into one of truth values.
def isLogical (value : Value) : Bool :=
  value.kind == .null || value.kind == .shaped .bool

def compareTruth? (a b : Value) : Option Ordering := do
  let x ← a.truthy?
  let y ← b.truthy?
  pure (compare x y)

def prefixNumber (s : String) : Number :=
  (Number.ofPrefix? s).getD (.int 0)

-- Comparison of two values that are not both arrays. Two strings compare as numbers
-- if both are numerals; a string next to a number counts as the number it starts
-- with; an array is greater than a number.
def compareScalars? : Value → Value → Option Ordering
  | null, string b => some (compare "" b)
  | string a, null => some (compare a "")
  | string a, string b =>
    match Number.ofText? a, Number.ofText? b with
    | some x, some y => x.compare? y
    | _, _ => some (compare a b)
  | a, b =>
    if a.isLogical || b.isLogical then compareTruth? a b
    else
      match a, b with
      | string s, _ => b.toNumber?.bind (prefixNumber s).compare?
      | _, string s => a.toNumber?.bind (·.compare? (prefixNumber s))
      | array _, _ => some .gt
      | _, array _ => some .lt
      | _, _ => a.toNumber?.bind fun x => b.toNumber?.bind x.compare?

-- Loose comparison; none when the values are not comparable. The shorter array is
-- smaller. Arrays of equal length compare by the first entry of the left one that
-- differs from the entry of the right one with the same key, which has to exist.
mutual
def compare? : Value → Value → Option Ordering
  | array a, array b =>
    if a.length = b.length then compareEntries? a b else some (compare a.length b.length)
  | a, b => compareScalars? a b

def compareEntries? : List (Key × Value) → List (Key × Value) → Option Ordering
  | [], _ => some .eq
  | (k, v) :: rest, other =>
    match other.lookup k with
    | none => none
    | some w =>
      match compare? v w with
      | some .eq => compareEntries? rest other
      | result => result
end

end PhpLint.Value
