namespace PhpLint

-- What is known of a value when its content is not.
inductive Shape where
  | bool | int | float | string | array | object
  deriving DecidableEq, Repr

inductive Kind where
  | unknown | null | shaped (shape : Shape) | argument | constant
  deriving DecidableEq, Repr

inductive Key where
  | int (n : Int64)
  | text (s : String)
  deriving DecidableEq, Repr

-- What the analysis knows about the result of an expression: nothing, that it is
-- any value of a shape, or its content. Of an argument or of a constant that is
-- declared elsewhere only the name is known.
inductive Value where
  | unknown
  | any (shape : Shape)
  | null
  | bool (b : Bool)
  | int (n : Int64)
  | float (x : Float)
  | string (s : String)
  | array (entries : List (Key × Value))
  | object (className : String)
  | argument (name : String)
  | constant (name : String)
  deriving Repr, Inhabited

namespace Value

def kind : Value → Kind
  | unknown => .unknown
  | any shape => .shaped shape
  | null => .null
  | bool _ => .shaped .bool
  | int _ => .shaped .int
  | float _ => .shaped .float
  | string _ => .shaped .string
  | array _ => .shaped .array
  | object _ => .shaped .object
  | argument _ => .argument
  | constant _ => .constant

-- An object has an identity and properties, so its class alone is no content.
def isKnown : Value → Bool
  | null | bool _ | int _ | float _ | string _ | array _ => true
  | unknown | any _ | object _ | argument _ | constant _ => false

-- The same shape with the content forgotten.
def forget : Value → Value
  | bool _ => any .bool
  | int _ => any .int
  | float _ => any .float
  | string _ => any .string
  | array _ => any .array
  | value => value

def text? : Value → Option String
  | string s => some s
  | _ => none

def ofBool? : Option Bool → Value
  | some b => bool b
  | none => any .bool

def ofInt? : Option Int64 → Value
  | some n => int n
  | none => any .int

def ofFloat? : Option Float → Value
  | some x => float x
  | none => any .float

def ofString? : Option String → Value
  | some s => string s
  | none => any .string

mutual
def same : Value → Value → Bool
  | unknown, unknown => true
  | any a, any b => a == b
  | null, null => true
  | bool a, bool b => a == b
  | int a, int b => a == b
  | float a, float b => decide (a = b)
  | string a, string b => a == b
  | array a, array b => sameEntries a b
  | object a, object b => a == b
  | argument a, argument b => a == b
  | constant a, constant b => a == b
  | _, _ => false

def sameEntries : List (Key × Value) → List (Key × Value) → Bool
  | [], [] => true
  | (k, v) :: a, (l, w) :: b => k == l && same v w && sameEntries a b
  | _, _ => false
end

mutual
theorem same_iff : ∀ a b : Value, same a b = true ↔ a = b
  | array a, b => by
    have h := sameEntries_iff a
    cases b <;> simp [same, h]
  | unknown, b | any _, b | null, b | bool _, b | int _, b | float _, b | string _, b
  | object _, b | argument _, b | constant _, b => by
    cases b <;> simp [same]

theorem sameEntries_iff : ∀ a b : List (Key × Value), sameEntries a b = true ↔ a = b
  | [], b => by cases b <;> simp [sameEntries]
  | (k, v) :: a, b => by
    have hv := same_iff v
    have ha := sameEntries_iff a
    cases b <;> simp [sameEntries, hv, ha, and_assoc, Prod.ext_iff]
end

instance : DecidableEq Value :=
  fun a b => decidable_of_iff _ (same_iff a b)

end Value

end PhpLint
