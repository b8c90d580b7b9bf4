import PhpLint.Proofs.Step
import PhpLint.Syntax.Program

namespace PhpLint.Syntax

open PhpLint.Syntax.Parser

-- The grammar is told how many levels are left. Here the same grammar runs beside a counter
-- that each nested parser raises and lowers, and that alone says where nesting is too deep.

-- A parser together with a counter of the levels it is in.
abbrev Counting := EStateM SyntaxError (Stream × Nat)

namespace Counting

variable {α : Type}

def descend : Counting Unit := do
  let (s, depth) ← get
  if maxDepth ≤ depth then throw (.tooDeep s.last) else set (s, depth + 1)

-- There is no level below zero. The alarm stands for whatever would happen then.
def ascend (alarm : SyntaxError) : Counting Unit := do
  match ← get with
  | (_, 0) => throw alarm
  | (s, depth + 1) => set (s, depth)

-- One level: down again in any case, and then the result or the error of the parser.
def level (alarm : SyntaxError) (inner : Counting α) : Counting α := do
  descend
  fun s =>
    match inner s with
    | .ok a t => (do ascend alarm; return a : Counting α) t
    | .error e t => (do ascend alarm; throw e : Counting α) t

-- What a parser at the given depth sees of one that it calls. The counter has to be back
-- where it was, since the next call goes on from there.
def call (alarm : SyntaxError) (depth : Nat) (x : Counting α) : Parser α := fun s =>
  match x (s, depth) with
  | .ok a (t, after) => if after = depth then .ok a t else .error alarm t
  | .error e (t, after) => if after = depth then .error e t else .error alarm t

-- An outcome with the counter beside it.
def beside (depth : Nat) : EStateM.Result SyntaxError Stream α →
    EStateM.Result SyntaxError (Stream × Nat) α
  | .ok a t => .ok a (t, depth)
  | .error e t => .error e (t, depth)

-- A parser that leaves the counter to those that it calls, each of which brings it back.
def ofCalls (p : Nat → Parser α) : Counting α := fun (s, depth) =>
  beside depth (p depth s)

-- The parsers for what is nested, each of which takes a level.
structure Nested where
  expression : Counting Expr
  operand : Counting Expr
  assigned : Counting Expr

def Nested.seenFrom (alarm : SyntaxError) (nested : Counting.Nested) (depth : Nat) :
    Syntax.Nested where
  expression := call alarm depth nested.expression
  operand := call alarm depth nested.operand
  assigned := call alarm depth nested.assigned

-- Only the counter limits the depth: a call that it lets pass and that is not covered here
-- would raise the alarm.
def nested (alarm : SyntaxError) : Nat → Counting.Nested
  | 0 => ⟨throw alarm, throw alarm, throw alarm⟩
  | calls + 1 =>
    let inner := (nested alarm calls).seenFrom alarm
    ⟨level alarm (ofCalls fun depth => climb (inner depth) levels),
      level alarm (ofCalls fun depth => unary (inner depth)),
      level alarm (ofCalls fun depth => climb (inner depth) tightLevels)⟩

def statement (alarm : SyntaxError) : Nat → Counting (Option Stmt)
  | 0 => throw alarm
  | calls + 1 => level alarm (ofCalls fun depth => Syntax.statement
      ⟨call alarm depth (nested alarm calls).expression, call alarm depth (statement alarm calls)⟩)

section Balance

variable {alarm : SyntaxError} {depth : Nat}

theorem level_maxDepth (inner : Counting α) (s : Stream) :
    level alarm inner (s, maxDepth) = beside maxDepth (tooDeep s) := rfl

theorem level_of_lt (p : Nat → Parser α) (h : depth < maxDepth) (s : Stream) :
    level alarm (ofCalls p) (s, depth) = beside depth (p (depth + 1) s) := by
  have hdescend : descend (s, depth) = .ok () (s, depth + 1) := by
    have hroom : ¬maxDepth ≤ depth := by omega
    show (if maxDepth ≤ depth then throw _ else set _ : Counting Unit) (s, depth) = _
    rw [if_neg hroom]
    rfl
  apply (EStateM.bind_of_ok hdescend).trans
  show (match beside (depth + 1) (p (depth + 1) s) with
    | .ok a t => (do ascend alarm; return a : Counting α) t
    | .error e t => (do ascend alarm; throw e : Counting α) t) = _
  cases p (depth + 1) s <;> rfl

-- A parser with a balanced counter is seen as the one without it.
theorem call_eq {x : Counting α} {p : Parser α} (h : ∀ s, x (s, depth) = beside depth (p s)) :
    call alarm depth x = p := by
  funext s
  rw [call, h s]
  cases p s with
  | ok a t => exact if_pos rfl
  | error e t => exact if_pos rfl

theorem call_level_maxDepth (inner : Counting α) :
    call alarm maxDepth (level alarm inner) = tooDeep :=
  call_eq fun s => level_maxDepth inner s

theorem call_level_of_lt (p : Nat → Parser α) (h : depth < maxDepth) :
    call alarm depth (level alarm (ofCalls p)) = p (depth + 1) :=
  call_eq fun s => level_of_lt p h s

-- The induction is on the calls that are left. Those one level deeper are seen from there,
-- with the counter one higher.
theorem seenFrom_nested {calls : Nat} (hdepth : depth ≤ maxDepth)
    (hcalls : maxDepth - depth < calls) :
    (nested alarm calls).seenFrom alarm depth = nestedAt (maxDepth - depth) := by
  induction calls generalizing depth with
  | zero => omega
  | succ calls ih =>
      rw [Nested.seenFrom, nested]
      by_cases hfull : depth = maxDepth
      · subst hfull
        simp only [call_level_maxDepth, Nat.sub_self, nestedAt]
      · have hlt : depth < maxDepth := by omega
        have hinner : (nested alarm calls).seenFrom alarm (depth + 1) =
            nestedAt (maxDepth - (depth + 1)) := ih (by omega) (by omega)
        have hleft : maxDepth - depth = maxDepth - (depth + 1) + 1 := by omega
        simp only [call_level_of_lt _ hlt, hinner]
        rw [hleft, nestedAt]

-- The same for statements, whose expressions are one level deeper too.
theorem statement_eq {calls : Nat} (hdepth : depth ≤ maxDepth) (hcalls : maxDepth - depth < calls)
    (s : Stream) :
    statement alarm calls (s, depth) = beside depth (statementAt (maxDepth - depth) s) := by
  induction calls generalizing depth s with
  | zero => omega
  | succ calls ih =>
      rw [statement]
      by_cases hfull : depth = maxDepth
      · subst hfull
        rw [level_maxDepth, Nat.sub_self, statementAt]
      · have hlt : depth < maxDepth := by omega
        have hnested : (nested alarm calls).seenFrom alarm (depth + 1) =
            nestedAt (maxDepth - (depth + 1)) := seenFrom_nested (by omega) (by omega)
        have hexpression : call alarm (depth + 1) (nested alarm calls).expression =
            (nestedAt (maxDepth - (depth + 1))).expression :=
          congrArg Syntax.Nested.expression hnested
        have hstatement : call alarm (depth + 1) (statement alarm calls) =
            statementAt (maxDepth - (depth + 1)) := call_eq fun s => ih (by omega) (by omega) s
        have hleft : maxDepth - depth = maxDepth - (depth + 1) + 1 := by omega
        rw [level_of_lt _ hlt, hexpression, hstatement, hleft, statementAt]

end Balance

end Counting

end PhpLint.Syntax
