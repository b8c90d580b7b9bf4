import PhpLint.Value.Entries

namespace PhpLint.Toml

-- A table made by dotted keys is open for further ones.
inductive Value where
  | string (text : String)
  | bool (b : Bool)
  | int (n : Int64)
  | float (x : Float)
  | date (text : String)
  | array (values : List Value)
  | table (isOpen : Bool) (entries : List (String × Value))

-- The entries of a table in the order of the document. Keys may repeat.
abbrev Table := Entries String Value

-- Puts a value at the end of a path of keys.
def Table.addAt (value : Value) : List String → Table → Option Table
  | [], _ => none
  | [key], entries => some (entries ++ [(key, value)])
  | key :: path, entries =>
    match entries.get? key with
    | none => do return entries.put key (.table true (← Table.addAt value path []))
    | some (.table true inner) => do
      return entries.put key (.table true (← Table.addAt value path inner))
    | some _ => none

-- No table inside has a key twice.
mutual
def Value.isProper : Value → Bool
  | .array values => areProper values
  | .table _ entries => areProperEntries entries && (entries.map Prod.fst).eraseDups.length == entries.length
  | .string _ | .bool _ | .int _ | .float _ | .date _ => true

def areProper : List Value → Bool
  | [] => true
  | value :: values => value.isProper && areProper values

def areProperEntries : List (String × Value) → Bool
  | [] => true
  | (_, value) :: entries => value.isProper && areProperEntries entries
end

end PhpLint.Toml
