import PhpLint.Proofs.Syntax.Pieces

namespace PhpLint

-- What has a place of its own in the source: a node of a syntax tree or a part of one.
inductive Region where
  | name (identifier : Identifier)
  | operator (location : Location)
  | expr (e : Expr)
  | stmt (s : Stmt)
  | body (block : Block)
  | parameter (p : Parameter)
  | method (m : Method)

def ArrayItem.inner : ArrayItem → List Region
  | plain value => [.expr value]
  | keyed key value => [.expr key, .expr value]

-- The regions that an expression is made of, in the order of the source.
def Expr.inner : Expr → List Region
  | assign _ target value _ => [.expr target, .expr value]
  | binary _ left right _ opLocation => [.expr left, .operator opLocation, .expr right]
  | unary _ operand _ opLocation => [.operator opLocation, .expr operand]
  | cast _ operand _ => [.expr operand]
  | array items _ _ => items.flatMap ArrayItem.inner
  | call name arguments _ => .name name :: arguments.map .expr
  | methodCall object method arguments _ => .expr object :: .name method :: arguments.map .expr
  | staticCall owner method arguments _ => .name owner :: .name method :: arguments.map .expr
  | new owner arguments _ => .name owner :: arguments.map .expr
  | property object name _ => [.expr object, .name name]
  | element container index _ => [.expr container, .expr index]
  | slot container _ => [.expr container]
  | literal .. | var .. | constant .. | interpolated _ | invalid _ => []

def Signature.inner (signature : Signature) : List Region :=
  .name signature.name :: signature.parameters.map .parameter

def ClassHeader.inner (header : ClassHeader) : List Region :=
  .name header.name :: header.parent.toList.map .name

def Stmt.inner : Stmt → List Region
  | expr e _ => [.expr e]
  | echo es _ => es.map .expr
  | ret value _ => value.toList.map .expr
  | ifThen condition thenBranch _ => [.expr condition, .stmt thenBranch]
  | ifElse condition thenBranch elseBranch _ =>
    [.expr condition, .stmt thenBranch, .stmt elseBranch]
  | loop condition body _ => [.expr condition, .stmt body]
  | block body => body.statements.map .stmt
  | functionDecl signature body _ => signature.inner ++ [.body body]
  | classDecl header methods _ => header.inner ++ methods.map .method
  | constDecl name value _ => [.name name, .expr value]
  | html _ | invalid _ => []

namespace Region

def location : Region → Location
  | name identifier => identifier.location
  | operator location => location
  | expr e => e.location
  | stmt s => s.location
  | body block => block.location
  | parameter p => p.location
  | method m => m.location

@[simp] theorem location_expr (e : Expr) : (expr e).location = e.location := rfl

def inner : Region → List Region
  | name _ | operator _ => []
  | expr e => e.inner
  | stmt s => s.inner
  | body block => block.statements.map .stmt
  | parameter p => p.default.toList.map .expr
  | method m => m.signature.inner ++ m.body.toList.map .body

-- The comment that documents a declaration.
def doc? : Region → Option DocComment
  | stmt (.functionDecl signature _ _) => signature.doc
  | stmt (.classDecl header _ _) => header.doc
  | method m => m.signature.doc
  | _ => none

-- Functions, classes and methods are declared.
def isDeclaration : Region → Bool
  | stmt (.functionDecl ..) | stmt (.classDecl ..) | method _ => true
  | _ => false

theorem doc?_eq_none {r : Region} (h : r.isDeclaration = false) : r.doc? = none := by
  fun_cases doc? r with
  | case4 => rfl
  | _ => cases h

theorem forall_doc {r : Region} (h : r.doc? = none) {P : DocComment → Prop} :
    ∀ doc, r.doc? = some doc → P doc := by
  simp [h]

-- A region of the tree whose root is another one, which may be that root.
inductive IsIn (r : Region) : Region → Prop where
  | refl : IsIn r r
  | inner {x root : Region} : x ∈ root.inner → IsIn r x → IsIn r root

-- A property of the region and of all that it is made of.
def Throughout (P : Region → Prop) (root : Region) : Prop :=
  ∀ r : Region, r.IsIn root → P r

section Throughout

variable {P : Region → Prop} {root : Region}

theorem Throughout.self (h : root.Throughout P) : P root :=
  h root .refl

theorem Throughout.inner (h : root.Throughout P) {x : Region} (hx : x ∈ root.inner) :
    x.Throughout P :=
  fun r hr => h r (.inner hx hr)

theorem Throughout.intro (hself : P root) (hinner : ∀ x ∈ root.inner, x.Throughout P) :
    root.Throughout P := by
  intro r hr
  cases hr with
  | refl => exact hself
  | inner hx hr => exact hinner _ hx r hr

end Throughout

-- The nodes of a region, each in front of what it is made of.
def pieces : Region → List Piece
  | name _ | operator _ => []
  | expr e => e.pieces
  | stmt s => s.pieces
  | body block => blockPieces block.statements
  | parameter p => p.pieces
  | method m => m.pieces

def piece? : Region → Option Piece
  | expr e => some (.expr e)
  | stmt s => some (.stmt s)
  | name _ | operator _ | body _ | parameter _ | method _ => none

def isPlain (r : Region) : Bool :=
  r.piece?.all Piece.isPlain

theorem flatMap_pieces_items (items : List ArrayItem) :
    (items.flatMap ArrayItem.inner).flatMap pieces = items.flatMap ArrayItem.pieces := by
  rw [List.flatMap_assoc]
  congr 1
  funext item
  cases item <;> simp [ArrayItem.inner, ArrayItem.pieces, pieces]

theorem flatMap_pieces_signature (signature : Signature) :
    signature.inner.flatMap pieces = signature.pieces := by
  simp [Signature.inner, Signature.pieces, pieces, List.flatMap_map]

theorem pieces_expr (e : Expr) : e.pieces = .expr e :: e.inner.flatMap pieces := by
  have hparts (e : Expr) : e.parts.map Piece.expr = e.pieces := rfl
  rw [← hparts]
  cases e <;> simp [Expr.parts, Expr.inner, pieces, hparts, List.flatMap_map, map_listParts,
    map_itemParts, flatMap_pieces_items]

theorem pieces_stmt (s : Stmt) : s.pieces = .stmt s :: s.inner.flatMap pieces := by
  cases s with
  | ret value _ => cases value <;> simp [Stmt.pieces, Stmt.inner, pieces]
  | functionDecl signature body _ =>
      obtain ⟨statements, location⟩ := body
      simp [Stmt.pieces, Stmt.inner, pieces, flatMap_pieces_signature]
  | classDecl header methods _ =>
      have hheader : header.inner.flatMap pieces = [] := by
        simp [ClassHeader.inner, pieces, List.flatMap_map]
      simp [Stmt.pieces, Stmt.inner, hheader, pieces, List.flatMap_map, methodPieces_eq]
  | block body =>
      obtain ⟨statements, location⟩ := body
      simp [Stmt.pieces, Stmt.inner, pieces, List.flatMap_map, blockPieces_eq]
  | _ => simp [Stmt.pieces, Stmt.inner, pieces, List.flatMap_map]

theorem pieces_eq (r : Region) : r.pieces = r.piece?.toList ++ r.inner.flatMap pieces := by
  cases r with
  | name | operator => rfl
  | expr e => exact pieces_expr e
  | stmt s => exact pieces_stmt s
  | body block => simp [pieces, piece?, inner, List.flatMap_map, blockPieces_eq]
  | parameter p => simp [pieces, piece?, inner, List.flatMap_map, Parameter.pieces]
  | method m =>
      obtain ⟨signature, modifiers, body, location⟩ := m
      cases body <;> simp [pieces, piece?, inner, Method.pieces, flatMap_pieces_signature]

-- By induction on the way down from the root.
theorem IsIn.trans {r middle root : Region} (h : r.IsIn middle) (hmiddle : middle.IsIn root) :
    r.IsIn root := by
  induction hmiddle with
  | refl => exact h
  | inner hx _ ih => exact .inner hx ih

theorem IsIn.mem_pieces {r root : Region} (h : r.IsIn root) {piece : Piece}
    (hpiece : r.piece? = some piece) : piece ∈ root.pieces := by
  induction h with
  | refl => simp [pieces_eq r, hpiece]
  | @inner x root hx _ ih =>
      rw [pieces_eq root]
      exact List.mem_append_right _ (List.mem_flatMap.mpr ⟨x, hx, ih⟩)

theorem IsIn.mem_expressions {e : Expr} {s : Stmt} (h : (expr e).IsIn (stmt s)) :
    e ∈ s.expressions :=
  mem_expressionsIn.mpr (h.mem_pieces rfl)

end Region

end PhpLint
