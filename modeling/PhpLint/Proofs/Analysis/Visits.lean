import PhpLint.Proofs.Syntax.Pieces

namespace PhpLint

-- The expressions that are evaluated with an expression, in that order. The place that an
-- assignment writes to is none of them.
mutual
def Expr.visited (e : Expr) : List Expr :=
  match e with
  | .literal .. | .var .. | .constant .. | .interpolated .. => [e]
  | .assign _ target value _ => target.visitedPlace ++ value.visited ++ [e]
  | .binary _ left right _ _ => left.visited ++ right.visited ++ [e]
  | .unary _ operand _ _ => operand.visited ++ [e]
  | .cast _ operand _ => operand.visited ++ [e]
  | .array items _ _ => visitedItems items ++ [e]
  | .call _ arguments _ => visitedList arguments ++ [e]
  | .staticCall _ _ arguments _ => visitedList arguments ++ [e]
  | .new _ arguments _ => visitedList arguments ++ [e]
  | .methodCall object _ arguments _ => object.visited ++ visitedList arguments ++ [e]
  | .property object _ _ => object.visited ++ [e]
  | .element container index _ => container.visited ++ index.visited ++ [e]
  | .slot .. | .invalid .. => []

def Expr.visitedPlace : Expr → List Expr
  | .property object _ _ => object.visited
  | .element container index _ => container.visitedPlace ++ index.visited
  | .slot container _ => container.visitedPlace
  | _ => []

def visitedList : List Expr → List Expr
  | [] => []
  | e :: es => e.visited ++ visitedList es

def visitedItems : List ArrayItem → List Expr
  | [] => []
  | .plain value :: items => value.visited ++ visitedItems items
  | .keyed key value :: items => key.visited ++ value.visited ++ visitedItems items
end

-- The expressions that an expression is made of and that are not evaluated with it: the
-- places that are written to, and what an access to an element starts from there if it is
-- neither a variable nor a property.
mutual
def Expr.unread (e : Expr) : List Expr :=
  match e with
  | .literal .. | .var .. | .constant .. | .interpolated .. => []
  | .assign _ target value _ => target.unreadPlace ++ value.unread
  | .binary _ left right _ _ => left.unread ++ right.unread
  | .unary _ operand _ _ => operand.unread
  | .cast _ operand _ => operand.unread
  | .array items _ _ => unreadItems items
  | .call _ arguments _ => unreadList arguments
  | .staticCall _ _ arguments _ => unreadList arguments
  | .new _ arguments _ => unreadList arguments
  | .methodCall object _ arguments _ => object.unread ++ unreadList arguments
  | .property object _ _ => object.unread
  | .element container index _ => container.unread ++ index.unread
  | .slot container _ => e :: container.parts
  | .invalid .. => [e]

def Expr.unreadPlace (e : Expr) : List Expr :=
  match e with
  | .property object _ _ => e :: object.unread
  | .element container index _ => e :: container.unreadPlace ++ index.unread
  | .slot container _ => e :: container.unreadPlace
  | _ => e.parts

def unreadList : List Expr → List Expr
  | [] => []
  | e :: es => e.unread ++ unreadList es

def unreadItems : List ArrayItem → List Expr
  | [] => []
  | .plain value :: items => value.unread ++ unreadItems items
  | .keyed key value :: items => key.unread ++ value.unread ++ unreadItems items
end

mutual
def Stmt.visited : Stmt → List Expr
  | .expr e _ => e.visited
  | .echo es _ => visitedList es
  | .ret value _ => visitedList value.toList
  | .ifThen condition thenBranch _ => condition.visited ++ thenBranch.visited
  | .ifElse condition thenBranch elseBranch _ =>
    condition.visited ++ thenBranch.visited ++ elseBranch.visited
  | .loop condition body _ => condition.visited ++ body.visited
  | .block ⟨statements, _⟩ => visitedBlock statements
  | .functionDecl signature ⟨statements, _⟩ _ =>
    visitedList signature.defaults ++ visitedBlock statements
  | .classDecl _ methods _ => visitedMethods methods
  | .constDecl _ e _ => e.visited
  | .html _ | .invalid _ => []

def visitedBlock : List Stmt → List Expr
  | [] => []
  | s :: ss => s.visited ++ visitedBlock ss

def visitedMethods : List Method → List Expr
  | [] => []
  | ⟨_, _, none, _⟩ :: methods => visitedMethods methods
  | ⟨signature, _, some ⟨statements, _⟩, _⟩ :: methods =>
    visitedList signature.defaults ++ visitedBlock statements ++ visitedMethods methods
end

-- The defaults of a method without a body are not evaluated either.
mutual
def Stmt.unread : Stmt → List Expr
  | .expr e _ => e.unread
  | .echo es _ => unreadList es
  | .ret value _ => unreadList value.toList
  | .ifThen condition thenBranch _ => condition.unread ++ thenBranch.unread
  | .ifElse condition thenBranch elseBranch _ =>
    condition.unread ++ thenBranch.unread ++ elseBranch.unread
  | .loop condition body _ => condition.unread ++ body.unread
  | .block ⟨statements, _⟩ => unreadBlock statements
  | .functionDecl signature ⟨statements, _⟩ _ =>
    unreadList signature.defaults ++ unreadBlock statements
  | .classDecl _ methods _ => unreadMethods methods
  | .constDecl _ e _ => e.unread
  | .html _ | .invalid _ => []

def unreadBlock : List Stmt → List Expr
  | [] => []
  | s :: ss => s.unread ++ unreadBlock ss

def unreadMethods : List Method → List Expr
  | [] => []
  | ⟨signature, _, none, _⟩ :: methods => listParts signature.defaults ++ unreadMethods methods
  | ⟨signature, _, some ⟨statements, _⟩, _⟩ :: methods =>
    unreadList signature.defaults ++ unreadBlock statements ++ unreadMethods methods
end

section Partition

variable (p : Expr → Bool)

-- An expression is made of what is evaluated and what is not. By counting, along the
-- constructors.
mutual
theorem countP_visited : ∀ e : Expr,
    e.parts.countP p = e.visited.countP p + e.unread.countP p
  | .literal .. | .var .. | .constant .. | .interpolated .. | .invalid .. => by
      simp [Expr.parts, Expr.visited, Expr.unread]
  | .assign op target value location => by
      have htarget := countP_visitedPlace target
      have hvalue := countP_visited value
      simp only [Expr.parts, Expr.visited, Expr.unread, List.countP_cons, List.countP_append,
        List.countP_nil]
      omega
  | .binary op left right location opLocation => by
      have hleft := countP_visited left
      have hright := countP_visited right
      simp only [Expr.parts, Expr.visited, Expr.unread, List.countP_cons, List.countP_append,
        List.countP_nil]
      omega
  | .unary _ operand _ _ | .cast _ operand _ | .property operand _ _ => by
      have hoperand := countP_visited operand
      simp only [Expr.parts, Expr.visited, Expr.unread, List.countP_cons, List.countP_append,
        List.countP_nil]
      omega
  | .array items style location => by
      have hitems := countP_visitedItems items
      simp only [Expr.parts, Expr.visited, Expr.unread, List.countP_cons, List.countP_append,
        List.countP_nil]
      omega
  | .call _ arguments _ | .staticCall _ _ arguments _ | .new _ arguments _ => by
      have harguments := countP_visitedList arguments
      simp only [Expr.parts, Expr.visited, Expr.unread, List.countP_cons, List.countP_append,
        List.countP_nil]
      omega
  | .methodCall object method arguments location => by
      have hobject := countP_visited object
      have harguments := countP_visitedList arguments
      simp only [Expr.parts, Expr.visited, Expr.unread, List.countP_cons, List.countP_append,
        List.countP_nil]
      omega
  | .element container index location => by
      have hcontainer := countP_visited container
      have hindex := countP_visited index
      simp only [Expr.parts, Expr.visited, Expr.unread, List.countP_cons, List.countP_append,
        List.countP_nil]
      omega
  | .slot container location => by
      simp [Expr.parts, Expr.visited, Expr.unread]

theorem countP_visitedPlace : ∀ e : Expr,
    e.parts.countP p = e.visitedPlace.countP p + e.unreadPlace.countP p
  | .property object name location => by
      have hobject := countP_visited object
      simp only [Expr.parts, Expr.visitedPlace, Expr.unreadPlace, List.countP_cons]
      omega
  | .element container index location => by
      have hcontainer := countP_visitedPlace container
      have hindex := countP_visited index
      simp only [Expr.parts, Expr.visitedPlace, Expr.unreadPlace, List.countP_cons,
        List.countP_append, List.cons_append]
      omega
  | .slot container location => by
      have hcontainer := countP_visitedPlace container
      simp only [Expr.parts, Expr.visitedPlace, Expr.unreadPlace, List.countP_cons]
      omega
  | .literal .. | .var .. | .constant .. | .assign .. | .binary .. | .unary .. | .cast ..
  | .array .. | .call .. | .methodCall .. | .staticCall .. | .new .. | .interpolated ..
  | .invalid .. => by
      simp [Expr.visitedPlace, Expr.unreadPlace]

theorem countP_visitedList : ∀ es : List Expr,
    (listParts es).countP p = (visitedList es).countP p + (unreadList es).countP p
  | [] => rfl
  | e :: es => by
      have he := countP_visited e
      have hes := countP_visitedList es
      simp only [listParts, visitedList, unreadList, List.countP_append]
      omega

theorem countP_visitedItems : ∀ items : List ArrayItem,
    (itemParts items).countP p = (visitedItems items).countP p + (unreadItems items).countP p
  | [] => rfl
  | .plain value :: items => by
      have hvalue := countP_visited value
      have hitems := countP_visitedItems items
      simp only [itemParts, visitedItems, unreadItems, List.countP_append]
      omega
  | .keyed key value :: items => by
      have hkey := countP_visited key
      have hvalue := countP_visited value
      have hitems := countP_visitedItems items
      simp only [itemParts, visitedItems, unreadItems, List.countP_append]
      omega
end

mutual
theorem countP_expressions : ∀ s : Stmt,
    s.expressions.countP p = s.visited.countP p + s.unread.countP p
  | .expr e _ | .constDecl _ e _ => by
      simp only [Stmt.expressions, Stmt.pieces, expressionsIn_stmt_cons, expressionsIn_pieces,
        Stmt.visited, Stmt.unread]
      exact countP_visited p e
  | .echo es _ => by
      simp only [Stmt.expressions, Stmt.pieces, expressionsIn_stmt_cons,
        expressionsIn_flatMap_pieces, Stmt.visited, Stmt.unread]
      exact countP_visitedList p es
  | .ret value _ => by
      simp only [Stmt.expressions, Stmt.pieces, expressionsIn_stmt_cons,
        expressionsIn_flatMap_pieces, Stmt.visited, Stmt.unread]
      exact countP_visitedList p value.toList
  | .ifThen condition thenBranch _ => by
      have hcondition := countP_visited p condition
      have hthen := countP_expressions thenBranch
      simp only [Stmt.expressions, Stmt.pieces, expressionsIn_stmt_cons, expressionsIn_append,
        expressionsIn_pieces, Stmt.visited, Stmt.unread, List.countP_append] at hthen ⊢
      omega
  | .ifElse condition thenBranch elseBranch _ => by
      have hcondition := countP_visited p condition
      have hthen := countP_expressions thenBranch
      have helse := countP_expressions elseBranch
      simp only [Stmt.expressions, Stmt.pieces, expressionsIn_stmt_cons, expressionsIn_append,
        expressionsIn_pieces, Stmt.visited, Stmt.unread, List.countP_append] at hthen helse ⊢
      omega
  | .loop condition body _ => by
      have hcondition := countP_visited p condition
      have hbody := countP_expressions body
      simp only [Stmt.expressions, Stmt.pieces, expressionsIn_stmt_cons, expressionsIn_append,
        expressionsIn_pieces, Stmt.visited, Stmt.unread, List.countP_append] at hbody ⊢
      omega
  | .block ⟨statements, _⟩ => by
      simp only [Stmt.expressions, Stmt.pieces, expressionsIn_stmt_cons, Stmt.visited, Stmt.unread]
      exact countP_blockPieces statements
  | .functionDecl signature ⟨statements, _⟩ _ => by
      have hdefaults := countP_visitedList p signature.defaults
      have hbody := countP_blockPieces statements
      simp only [Stmt.expressions, Stmt.pieces, expressionsIn_stmt_cons, expressionsIn_append,
        signature.expressionsIn_pieces, Stmt.visited, Stmt.unread, List.countP_append]
      omega
  | .classDecl _ methods _ => by
      simp only [Stmt.expressions, Stmt.pieces, expressionsIn_stmt_cons, Stmt.visited, Stmt.unread]
      exact countP_methodPieces methods
  | .html _ | .invalid _ => rfl

theorem countP_blockPieces : ∀ ss : List Stmt,
    (expressionsIn (blockPieces ss)).countP p =
      (visitedBlock ss).countP p + (unreadBlock ss).countP p
  | [] => rfl
  | s :: ss => by
      have hs := countP_expressions s
      have hss := countP_blockPieces ss
      simp only [Stmt.expressions, blockPieces, expressionsIn_append, visitedBlock, unreadBlock,
        List.countP_append] at hs ⊢
      omega

theorem countP_methodPieces : ∀ methods : List Method,
    (expressionsIn (methodPieces methods)).countP p =
      (visitedMethods methods).countP p + (unreadMethods methods).countP p
  | [] => rfl
  | ⟨signature, _, none, _⟩ :: methods => by
      have hmethods := countP_methodPieces methods
      simp only [methodPieces, expressionsIn_append, signature.expressionsIn_pieces, visitedMethods,
        unreadMethods, List.countP_append]
      omega
  | ⟨signature, _, some ⟨statements, _⟩, _⟩ :: methods => by
      have hdefaults := countP_visitedList p signature.defaults
      have hbody := countP_blockPieces statements
      have hmethods := countP_methodPieces methods
      simp only [methodPieces, expressionsIn_append, signature.expressionsIn_pieces, visitedMethods,
        unreadMethods, List.countP_append]
      omega
end

end Partition

-- Every expression in a statement is either evaluated once or left out.
theorem visited_append_unread_perm (s : Stmt) : (s.visited ++ s.unread).Perm s.expressions := by
  classical
  rw [List.perm_iff_count]
  intro e
  rw [List.count_append]
  exact (countP_expressions (· == e) s).symm

end PhpLint
