import PhpLint.Value.Convert
import PhpLint.Value.Entries

namespace PhpLint.Value

-- The index for the next element without a key: one more than the largest integer
-- key so far. None is left once the largest integer has been used.
def nextIndex (next : Option Int64) : Key → Option Int64
  | .text _ => next
  | .int n =>
    match next with
    | some m => if m.toInt ≤ n.toInt then Number.word? (n.toInt + 1) else some m
    | none => none

-- Adds elements, each with its key if one is given, to the entries so far.
def addElements (next : Option Int64) (entries : Entries Key Value) :
    List (Option Value × Value) → Option (Entries Key Value)
  | [] => some entries
  | (key, value) :: rest =>
    if value.isKnown then
      match key.elim (next.map Key.int) toKey? with
      | some k => addElements (nextIndex next k) (entries.put k value) rest
      | none => none
    else none

-- The array of the given elements, unknown if one of them has no content or no key.
def ofElements (elements : List (Option Value × Value)) : Value :=
  (addElements (some 0) [] elements).elim unknown array

def element (container index : Value) : Value :=
  match container, index.toKey? with
  | array entries, some key => (Entries.get? entries key).getD unknown
  | _, _ => unknown

end PhpLint.Value
