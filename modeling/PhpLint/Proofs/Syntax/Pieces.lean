import PhpLint.Proofs.Syntax.Parts

namespace PhpLint

-- A node of a syntax tree.
inductive Piece where
  | expr (e : Expr)
  | stmt (s : Stmt)

namespace Piece

-- Whether a node only stands for something that could not be read.
def isInvalid : Piece → Bool
  | expr (.invalid _) | stmt (.invalid _) => true
  | _ => false

-- Neither a placeholder nor the call of a function.
def isPlain : Piece → Bool
  | expr (.call ..) => false
  | piece => !piece.isInvalid

theorem isPlain_iff {piece : Piece} :
    piece.isPlain ↔ piece.isInvalid = false ∧
      ∀ name arguments location, piece ≠ .expr (.call name arguments location) := by
  fun_cases isPlain piece <;> simp_all

def expr? : Piece → Option Expr
  | expr e => some e
  | stmt _ => none

end Piece

def Expr.pieces (e : Expr) : List Piece :=
  e.parts.map .expr

def ArrayItem.pieces : ArrayItem → List Piece
  | .plain value => value.pieces
  | .keyed key value => key.pieces ++ value.pieces

def Parameter.pieces (parameter : Parameter) : List Piece :=
  parameter.default.toList.flatMap Expr.pieces

def Signature.pieces (signature : Signature) : List Piece :=
  signature.parameters.flatMap Parameter.pieces

-- All nodes of a statement in the order of the source, each in front of what it is made
-- of. The defaults of parameters belong to it whether or not there is a body.
mutual
def Stmt.pieces (s : Stmt) : List Piece :=
  .stmt s :: match s with
    | .expr e _ => e.pieces
    | .echo es _ => es.flatMap Expr.pieces
    | .ret value _ => value.toList.flatMap Expr.pieces
    | .ifThen condition thenBranch _ => condition.pieces ++ thenBranch.pieces
    | .ifElse condition thenBranch elseBranch _ =>
      condition.pieces ++ thenBranch.pieces ++ elseBranch.pieces
    | .loop condition body _ => condition.pieces ++ body.pieces
    | .block ⟨statements, _⟩ => blockPieces statements
    | .functionDecl signature ⟨statements, _⟩ _ => signature.pieces ++ blockPieces statements
    | .classDecl _ methods _ => methodPieces methods
    | .constDecl _ e _ => e.pieces
    | .html _ | .invalid _ => []

def blockPieces : List Stmt → List Piece
  | [] => []
  | s :: ss => s.pieces ++ blockPieces ss

def methodPieces : List Method → List Piece
  | [] => []
  | ⟨signature, _, none, _⟩ :: methods => signature.pieces ++ methodPieces methods
  | ⟨signature, _, some ⟨statements, _⟩, _⟩ :: methods =>
    signature.pieces ++ blockPieces statements ++ methodPieces methods
end

def Method.pieces (method : Method) : List Piece :=
  method.signature.pieces ++ method.body.elim [] fun body => blockPieces body.statements

def expressionsIn (pieces : List Piece) : List Expr :=
  pieces.filterMap Piece.expr?

-- All expressions in a statement.
def Stmt.expressions (s : Stmt) : List Expr :=
  expressionsIn s.pieces

def Signature.defaults (signature : Signature) : List Expr :=
  signature.parameters.filterMap (·.default)

-- An expression stands in front of the pieces of its operands.
theorem map_listParts (es : List Expr) :
    (listParts es).map Piece.expr = es.flatMap Expr.pieces := by
  induction es with
  | nil => rfl
  | cons e es ih => simp [listParts, ih, Expr.pieces]

theorem map_itemParts (items : List ArrayItem) :
    (itemParts items).map Piece.expr = items.flatMap ArrayItem.pieces := by
  induction items with
  | nil => rfl
  | cons item items ih => cases item <;> simp [itemParts, ih, Expr.pieces, ArrayItem.pieces]

theorem mem_expressionsIn {e : Expr} {pieces : List Piece} :
    e ∈ expressionsIn pieces ↔ .expr e ∈ pieces := by
  rw [expressionsIn, List.mem_filterMap]
  constructor
  · rintro ⟨piece, hmem, he⟩
    cases piece <;> cases he
    exact hmem
  · exact fun hmem => ⟨.expr e, hmem, rfl⟩

theorem expressionsIn_append (v w : List Piece) :
    expressionsIn (v ++ w) = expressionsIn v ++ expressionsIn w := by
  simp [expressionsIn]

theorem expressionsIn_stmt_cons (s : Stmt) (pieces : List Piece) :
    expressionsIn (.stmt s :: pieces) = expressionsIn pieces := rfl

theorem expressionsIn_pieces (e : Expr) : expressionsIn e.pieces = e.parts := by
  simp [expressionsIn, Expr.pieces, List.filterMap_map, Function.comp_def, Piece.expr?]

theorem expressionsIn_flatMap_pieces (es : List Expr) :
    expressionsIn (es.flatMap Expr.pieces) = listParts es := by
  induction es with
  | nil => rfl
  | cons e es ih =>
      rw [List.flatMap_cons, expressionsIn_append, ih, expressionsIn_pieces, listParts]

theorem Signature.expressionsIn_pieces (signature : Signature) :
    expressionsIn signature.pieces = listParts signature.defaults := by
  rw [← expressionsIn_flatMap_pieces, Signature.pieces, Signature.defaults]
  congr 1
  induction signature.parameters with
  | nil => rfl
  | cons parameter rest ih =>
      cases hdefault : parameter.default <;> simp [Parameter.pieces, hdefault, ih]

theorem blockPieces_eq (ss : List Stmt) : blockPieces ss = ss.flatMap Stmt.pieces := by
  induction ss with
  | nil => rfl
  | cons s ss ih => simp [blockPieces, ih]

theorem methodPieces_eq (methods : List Method) :
    methodPieces methods = methods.flatMap Method.pieces := by
  induction methods with
  | nil => rfl
  | cons method methods ih =>
      obtain ⟨signature, modifiers, body, location⟩ := method
      cases body with
      | none => simp [methodPieces, Method.pieces, ih]
      | some body =>
          obtain ⟨statements, bodyLocation⟩ := body
          simp [methodPieces, Method.pieces, ih]

end PhpLint
