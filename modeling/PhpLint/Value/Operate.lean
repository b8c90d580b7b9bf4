import PhpLint.Operator
import PhpLint.Value.Compare

namespace PhpLint

-- What would go wrong if an operation were executed.
inductive Hazard where
  | divisionByZero
  | moduloByZero
  deriving DecidableEq, Repr

structure Outcome where
  value : Value
  hazard : Option Hazard := none
  deriving DecidableEq, Repr

namespace Value

def ofNumber : Number → Value
  | .int n => int n
  | .float x => float x

def isNumeric (value : Value) : Bool :=
  match value.kind with
  | .null | .shaped .bool | .shaped .int | .shaped .float => true
  | _ => false

-- The shape of an arithmetic result that cannot be computed. Only a double
-- determines it, because an operation on integers may leave their range.
def arithmeticShape (a b : Value) : Value :=
  let hasFloat := a.kind == .shaped .float || b.kind == .shaped .float
  if hasFloat && a.isNumeric && b.isNumeric then any .float else unknown

-- The shape of a result that is an integer whatever the operands are.
def integralShape (a b : Value) : Value :=
  if a.isNumeric && b.isNumeric then any .int else unknown

-- Integers are combined exactly and stay integers if the result fits. Otherwise the
-- operands are combined as doubles.
def arithmetic (exact : Int → Int → Int) (rounded : Float → Float → Float) (a b : Value) : Value :=
  match a.toNumber?, b.toNumber? with
  | some (.int x), some (.int y) =>
    match Number.word? (exact x.toInt y.toInt) with
    | some n => int n
    | none => float (rounded (Number.floatOfWord x) (Number.floatOfWord y))
  | some x, some y => float (rounded x.toFloat y.toFloat)
  | _, _ => arithmeticShape a b

-- The quotient of integers is an integer if it is exact and fits.
def quotient : Number → Number → Value
  | .int x, .int y =>
    let inexact := float (Number.floatOfWord x / Number.floatOfWord y)
    if x.toInt.tmod y.toInt = 0 then (Number.word? (x.toInt.tdiv y.toInt)).elim inexact int
    else inexact
  | x, y => float (x.toFloat / y.toFloat)

def divide (a b : Value) : Outcome :=
  match b.toNumber? with
  | none => { value := arithmeticShape a b }
  | some y =>
    if y.isZero then { value := unknown, hazard := some .divisionByZero }
    else
      match a.toNumber? with
      | none => { value := arithmeticShape a b }
      | some x => { value := quotient x y }

-- The remainder has the sign of the dividend.
def modulo (a b : Value) : Outcome :=
  match b.toNumber?.map Number.toWord with
  | none => { value := integralShape a b }
  | some y =>
    if y = 0 then { value := unknown, hazard := some .moduloByZero }
    else
      match a.toNumber?.map Number.toWord with
      | none => { value := integralShape a b }
      | some x => { value := int (Int64.ofInt (x.toInt.tmod y.toInt)) }

-- A power of a base beyond one that has more than 63 factors does not fit.
def wordPower? (base : Int) (exponent : Nat) : Option Int64 :=
  if base.natAbs ≤ 1 then
    Number.word? (Int.pow base (if exponent = 0 then 0 else 2 - exponent % 2))
  else if exponent ≤ 63 then Number.word? (Int.pow base exponent)
  else none

-- Exponents that do not fit in 32 bits are left to doubles.
def numberPower : Number → Number → Value
  | .int x, .int y =>
    let rounded := float (Float.pow (Number.floatOfWord x) (Number.floatOfWord y))
    if 0 ≤ y.toInt ∧ y.toInt.toNat < UInt32.size then (wordPower? x.toInt y.toInt.toNat).elim rounded int
    else rounded
  | x, y => float (Float.pow x.toFloat y.toFloat)

def power (a b : Value) : Value :=
  match a.toNumber?, b.toNumber? with
  | some x, some y => numberPower x y
  | _, _ => arithmeticShape a b

def concat (a b : Value) : Value :=
  if a.kind == .unknown || b.kind == .unknown then unknown
  else
    match a.toText?, b.toText? with
    | some s, some t => string (s ++ t)
    | _, _ => any .string

private def bytes (s : String) : List UInt8 :=
  s.toUTF8.toList

private def ofBytes (bs : List UInt8) : Value :=
  ofString? (String.fromUTF8? ⟨bs.toArray⟩)

-- Bytes combined by position, the shorter list continued with zeros.
def zipPadded (f : UInt8 → UInt8 → UInt8) : List UInt8 → List UInt8 → List UInt8
  | [], bs => bs.map (f 0)
  | as, [] => as.map (f · 0)
  | a :: as, b :: bs => f a b :: zipPadded f as bs

-- Two strings are combined byte by byte, anything else as integers.
def bitwise (onBytes : List UInt8 → List UInt8 → List UInt8)
    (onWords : Int64 → Int64 → Int64) (a b : Value) : Value :=
  match a, b with
  | string s, string t => ofBytes (onBytes (bytes s) (bytes t))
  | _, _ =>
    match a.toNumber?, b.toNumber? with
    | some x, some y => int (onWords x.toWord y.toWord)
    | _, _ => integralShape a b

-- From the width of a word on no bit is left but copies of the sign. A shift by itself
-- would take such amounts modulo the width.
def wordShiftLeft (x amount : Int64) : Int64 :=
  if 64 ≤ amount then 0 else x <<< amount

def wordShiftRight (x amount : Int64) : Int64 :=
  if 64 ≤ amount then (if x < 0 then -1 else 0) else x >>> amount

-- A negative amount would stop the program.
def shift (onWords : Int64 → Int64 → Int64) (a b : Value) : Value :=
  match a.toNumber?, b.toNumber? with
  | some x, some y => if y.toWord < 0 then unknown else int (onWords x.toWord y.toWord)
  | _, _ => integralShape a b

-- The right operand does not matter once the left one decides.
def conjunction (a b : Value) : Value :=
  ofBool? (a.truthy?.bind fun x => if x then b.truthy? else some false)

def disjunction (a b : Value) : Value :=
  ofBool? (a.truthy?.bind fun x => if x then some true else b.truthy?)

def exclusion (a b : Value) : Value :=
  ofBool? (a.truthy?.bind fun x => b.truthy?.map (x != ·))

-- A comparison has a content only when both operands have one.
def relation (holds : Value → Value → Bool) (a b : Value) : Value :=
  if a.isKnown && b.isKnown then bool (holds a b) else any .bool

-- Values that are not comparable order like a greater one.
def threeWay (a b : Value) : Value :=
  if a.isKnown && b.isKnown then
    match a.compare? b with
    | some .lt => int (-1)
    | some .eq => int 0
    | some .gt | none => int 1
  else any .int

def binary (op : BinaryOp) (a b : Value) : Outcome :=
  match op with
  | .divide => divide a b
  | .modulo => modulo a b
  | .add => { value := arithmetic (· + ·) (· + ·) a b }
  | .subtract => { value := arithmetic (· - ·) (· - ·) a b }
  | .multiply => { value := arithmetic (· * ·) (· * ·) a b }
  | .power => { value := power a b }
  | .concat => { value := concat a b }
  | .bitwiseAnd => { value := bitwise (List.zipWith (· &&& ·)) (· &&& ·) a b }
  | .bitwiseOr => { value := bitwise (zipPadded (· ||| ·)) (· ||| ·) a b }
  | .bitwiseXor => { value := bitwise (List.zipWith (· ^^^ ·)) (· ^^^ ·) a b }
  | .shiftLeft => { value := shift wordShiftLeft a b }
  | .shiftRight => { value := shift wordShiftRight a b }
  | .booleanAnd | .logicalAnd => { value := conjunction a b }
  | .booleanOr | .logicalOr => { value := disjunction a b }
  | .logicalXor => { value := exclusion a b }
  | .identical => { value := relation isIdentical a b }
  | .notIdentical => { value := relation (fun a b => !isIdentical a b) a b }
  | .equal => { value := relation (fun a b => a.compare? b == some .eq) a b }
  | .notEqual => { value := relation (fun a b => a.compare? b != some .eq) a b }
  | .smaller => { value := relation (fun a b => a.compare? b == some .lt) a b }
  | .smallerOrEqual =>
    { value := relation (fun a b => a.compare? b == some .lt || a.compare? b == some .eq) a b }
  | .greater => { value := relation (fun a b => a.compare? b == some .gt) a b }
  | .greaterOrEqual =>
    { value := relation (fun a b => a.compare? b == some .gt || a.compare? b == some .eq) a b }
  | .spaceship => { value := threeWay a b }

def negate : Number → Value
  | .int n => (Number.word? (-n.toInt)).elim (float (-Number.floatOfWord n)) int
  | .float x => float (-x)

def complement : Value → Value
  | int n => int (~~~n)
  | float x => int (~~~(Number.wordOfFloat x))
  | string s => ofBytes ((bytes s).map (~~~·))
  | any .int | any .float => any .int
  | any .string => any .string
  | _ => unknown

def unary (op : UnaryOp) (a : Value) : Value :=
  match op with
  | .booleanNot => ofBool? (a.truthy?.map (!·))
  | .plus => a.toNumber?.elim (arithmeticShape a a) ofNumber
  | .minus => a.toNumber?.elim (arithmeticShape a a) negate
  | .bitwiseNot => complement a

-- A scalar becomes the only element of an array.
def toArray : Value → Value
  | null => array []
  | array entries => array entries
  | value => array [(.int 0, value)]

def castKnown (type : CastType) (a : Value) : Value :=
  match type with
  | .int => ofInt? a.toInt?
  | .float => ofFloat? a.toFloat?
  | .string => ofString? a.toText?
  | .bool => ofBool? a.truthy?
  | .array => toArray a
  | .object => object "stdClass"
  | .unset => null

-- Without a content the shape is all that a conversion tells, except that objects
-- are true and that nothing is left of an unset value.
def castUnknown (type : CastType) (a : Value) : Value :=
  match type with
  | .int => any .int
  | .float => any .float
  | .string => any .string
  | .bool => ofBool? a.truthy?
  | .array => any .array
  | .object => any .object
  | .unset => null

def cast (type : CastType) (a : Value) : Value :=
  if a.isKnown then castKnown type a else castUnknown type a

end Value

end PhpLint
