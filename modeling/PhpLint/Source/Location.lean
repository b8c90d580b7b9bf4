namespace PhpLint

-- A place in a file: the bytes from start up to but not including stop, and the
-- first and last line they are on, counted from one.
structure Location where
  file : String
  start : Nat
  stop : Nat
  firstLine : Nat
  lastLine : Nat
  deriving DecidableEq, Repr, Inhabited

namespace Location

-- The smallest place that covers both. Places in different files have none, and the
-- first one stays.
def cover (a b : Location) : Location :=
  if a.file = b.file then
    ⟨a.file, min a.start b.start, max a.stop b.stop,
      min a.firstLine b.firstLine, max a.lastLine b.lastLine⟩
  else a

def describe (a : Location) : String :=
  if a.firstLine = a.lastLine then s!"at {a.file}:{a.firstLine}"
  else s!"at {a.file}:{a.firstLine}-{a.lastLine}"

end Location

end PhpLint
