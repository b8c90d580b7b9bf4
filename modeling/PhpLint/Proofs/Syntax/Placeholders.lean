import PhpLint.Proofs.Syntax.Content

namespace PhpLint

-- The place of a node that could not be read.
def Piece.place? : Piece → Option Location
  | expr (.invalid l) | stmt (.invalid l) => some l
  | _ => none

theorem Piece.place?_eq_none_iff {piece : Piece} :
    piece.place? = none ↔ piece.isInvalid = false := by
  fun_cases Piece.isInvalid piece <;> simp_all [Piece.place?]

-- A statement without placeholders, wherever they could stand in it.
def Stmt.IsWhole (s : Stmt) : Prop :=
  ∀ piece ∈ s.pieces, piece.isInvalid = false

namespace Syntax

-- The errors for the placeholders among some nodes, in the order of the source.
def missingOperands (pieces : List Piece) : List SyntaxError :=
  (pieces.filterMap Piece.place?).map (.unexpectedToken .expression)

theorem missingOperands_append (v w : List Piece) :
    missingOperands (v ++ w) = missingOperands v ++ missingOperands w := by
  simp [missingOperands]

theorem missingOperands_eq_nil_iff {pieces : List Piece} :
    missingOperands pieces = [] ↔ ∀ piece ∈ pieces, piece.isInvalid = false := by
  simp [missingOperands, Piece.place?_eq_none_iff]

-- What is reported while nodes are built is the placeholders among them.
def Reported (s : Stream) (pieces : List Piece) (t : Stream) : Prop :=
  t.errors = (missingOperands pieces).reverse ++ s.errors

instance : Track Reported where
  refl _ := rfl
  trans {s t u v w} hst htu := by
    rw [Reported] at hst htu ⊢
    rw [htu, hst, missingOperands_append, List.reverse_append, List.append_assoc]
  taken _ _ _ _ _ := rfl
  withdrawn _ _ _ _ _ := rfl
  missing _ _ _ _ _ := rfl
  plain {piece s w t} hpiece h := by
    have hnone : missingOperands [piece] = [] := by
      rw [missingOperands_eq_nil_iff]
      intro other hother
      rw [List.mem_singleton.mp hother]
      exact (Piece.isPlain_iff.mp hpiece).1
    rwa [Reported, ← List.singleton_append, missingOperands_append, hnone]
  called _ h := h

-- By induction on the rounds. A statement that succeeds adds the errors for its
-- placeholders, and one that fails adds an error and a placeholder.
theorem errors_program (rounds : Nat) (s : Stream) :
    ∃ errors, (program rounds s).2 = s.errors.reverse ++ errors ∧
      (errors = [] ↔ ∀ statement ∈ (program rounds s).1, statement.IsWhole) := by
  induction rounds generalizing s with
  | zero => exact ⟨[], by simp [program]⟩
  | succ rounds ih =>
      by_cases hitems : s.items = []
      · exact ⟨[], by simp [program, hitems]⟩
      · cases h : statementAt maxDepth s with
        | ok statement t =>
            have hreported : Reported s (statement.toList.flatMap Stmt.pieces) t :=
              track_statementAt h
            obtain ⟨errors, herrors, hwhole⟩ := ih t
            rw [program_of_ok hitems h]
            refine ⟨missingOperands (statement.toList.flatMap Stmt.pieces) ++ errors, ?_, ?_⟩
            · rw [herrors, hreported]
              simp
            · rw [List.append_eq_nil_iff, hwhole, missingOperands_eq_nil_iff]
              cases statement <;> simp [Stmt.IsWhole]
        | error error t =>
            obtain ⟨errors, herrors, -⟩ := ih (resume s t error)
            obtain ⟨location, hprogram⟩ := exists_program_of_error hitems h
            obtain ⟨more, hmore⟩ : s.errors <:+ t.errors := by
              have hsuffix := errors_suffix (statementAt maxDepth) s
              rwa [EStateM.after, h] at hsuffix
            rw [hprogram]
            refine ⟨more.reverse ++ error :: errors, ?_, ?_⟩
            · rw [herrors, errors_resume, ← hmore]
              simp
            · have hinvalid : ¬ (Stmt.invalid location).IsWhole := by
                simp [Stmt.IsWhole, Stmt.pieces, Piece.isInvalid]
              simp [hinvalid]

end Syntax

-- Parsing reports no error exactly if no placeholder stands anywhere in the statements.
theorem errors_parse_eq_nil_iff (lexemes : List Lexeme) :
    (parse lexemes).2 = [] ↔ ∀ statement ∈ (parse lexemes).1, statement.IsWhole := by
  obtain ⟨errors, herrors, hwhole⟩ := Syntax.errors_program _ (Syntax.Stream.ofLexemes lexemes)
  rw [parse, herrors, ← hwhole]
  simp [Syntax.Stream.ofLexemes]

end PhpLint
