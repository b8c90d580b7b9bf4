import PhpLint.Proofs.Syntax.Seams

namespace PhpLint.Syntax

open EStateM (bind_eq_ok_iff bind_of_ok)
open PhpLint.Syntax.Parser

section Terminated

variable {seam : Seam}

-- What is done with the item in front where a statement should end.
theorem terminator_front (item : Item) :
    (∀ rest last docs errors a t, terminator ⟨item :: rest, last, docs, errors⟩ ≠ .ok a t) ∨ ∃ a,
      (∀ rest last docs errors,
        terminator ⟨item :: rest, last, docs, errors⟩ =
          .ok a ⟨rest, item.location, docs, errors⟩) ∨
      ∀ rest last docs errors,
        terminator ⟨item :: rest, last, docs, errors⟩ =
          .ok a ⟨item :: rest, last, docs, errors⟩ := by
  by_cases hclose : item.token? = some .closeTag
  · exact .inr ⟨(), .inr (terminator_of_closeTag hclose)⟩
  by_cases hsemicolon : item.token? = some (.symbol .semicolon)
  · exact .inr ⟨(), .inl (terminator_of_semicolon hsemicolon)⟩
  left
  intro rest last docs errors a t hend
  rw [terminator, bind_of_ok (isNext_of_ne hclose rest last docs errors)] at hend
  obtain ⟨content, location⟩ := item
  cases content with
  | error error => cases hend
  | ok token =>
      have hne : token ≠ .symbol .semicolon := fun heq => hsemicolon (congrArg some heq)
      have hexpect := @expect_of_ne token _ .semicolon ⟨.ok token, location⟩ rfl hne rest last
        docs errors
      have hfails := hend.symm.trans hexpect
      cases hfails

theorem blind_terminator : Blind seam terminator := by
  apply blind_of_front _ terminator_front
  intro last docs a hstays
  rw [Seam.ended, terminator_of_semicolon seam.isSemicolon] at hstays
  exact seam.ne_ended last seam.semicolon.location docs docs (EStateM.Result.ok.inj hstays).2

-- A statement that is ended by the semicolon is ended by the closing tag as well, which is
-- left.
structure Parser.Terminated (seam : Seam) (p : Parser Stmt) : Prop where
  blind : Blind seam p
  ends : ∀ ⦃front last docs a t⦄, p ⟨front ++ seam.ended, last, docs, []⟩ = .ok a t →
    t.errors = [] → t.items.length = seam.rest.length →
      ∃ b u, p ⟨front ++ seam.closed, last, docs, []⟩ = .ok b u ∧
        seam.Joined Stmt.placeless seam.Beyond a t b u

theorem terminated_terminator {make : Location → Stmt} (start : Option Location)
    (hmake : ∀ last place, (make last).placeless = (make place).placeless) :
    Terminated seam (do terminator; return make (← spanFrom start)) where
  blind := blind_terminator.bind fun _ =>
    blind_of_eq (k := fun last => make (start.elim last (·.cover last))) fun _ => rfl
  ends front last docs a t h ht hlength := by
    obtain ⟨⟨⟩, u, hend, h⟩ := bind_eq_ok_iff.mp h
    cases h
    cases front with
    | nil =>
        rw [List.nil_append, Seam.ended, terminator_of_semicolon seam.isSemicolon] at hend
        cases hend
        refine ⟨make (start.elim last (·.cover last)), ⟨seam.closed, last, docs, []⟩, ?_,
          fun _ => hmake _ _, .left (fun _ => ⟨_, rfl⟩) _⟩
        have hclose :=
          terminator_of_closeTag seam.isClosing (seam.opening :: seam.rest) last docs []
        rw [List.nil_append, Seam.closed, bind_of_ok hclose]
        rfl
    | cons item front =>
        rw [List.cons_append] at hend
        rcases terminator_front item with hfails | ⟨b, htakes | hleaves⟩
        · exact absurd hend (hfails _ _ _ _ _ _)
        · rw [htakes] at hend
          cases hend
          simp only [List.length_append, Seam.length_ended] at hlength
          omega
        · rw [hleaves] at hend
          cases hend
          simp only [List.length_cons, List.length_append, Seam.length_ended] at hlength
          omega

theorem Parser.Halts.terminated {α : Type} {p : Parser α}
    [Moves (fun s t => s.errors <:+ t.errors) p] {f : α → Parser Stmt} (hp : Halts p)
    (hf : ∀ a, Terminated seam (f a)) : Terminated seam (p >>= f) where
  blind := hp.blind.bind fun a => (hf a).blind
  ends front last docs c v h hv hlength := by
    obtain ⟨a, t, ha, hc⟩ := bind_eq_ok_iff.mp h
    have herrors := errors_nil_of_ok (hf a).blind.moves hc hv
    obtain ⟨left, hstream, hclosed⟩ := hp.exists_front ha herrors
    rw [bind_of_ok hclosed]
    rw [hstream] at hc
    exact (hf a).ends hc hv hlength

end Terminated

section Statements

variable {seam : Seam} {parts : Parts}

variable [Parts.Moves (fun s t => s.errors <:+ t.errors) parts] (h : Halts parts.expression)
include h

theorem terminated_constantDeclaration (start : Option Location) :
    Terminated seam (constantDeclaration parts start) := by
  apply Halts.terminated halts_identifier
  intro name
  apply Halts.terminated (halts_expect rfl)
  intro _
  apply Halts.terminated h
  intro value
  exact terminated_terminator start fun _ _ => rfl

theorem terminated_expressionStatement (start : Option Location) :
    Terminated seam (expressionStatement parts start) := by
  apply Halts.terminated h
  intro e
  exact terminated_terminator start fun _ _ => rfl

theorem terminated_returnedWith (start : Option Location) (isEmpty : Bool) :
    Terminated seam (returnedWith parts start isEmpty) := by
  have hend (value : Option Expr) : Terminated seam (do
      terminator
      return .ret value (← spanFrom start)) :=
    terminated_terminator start fun _ _ => rfl
  unfold returnedWith
  cases isEmpty with
  | true => exact Halts.terminated (halts_pure none) hend
  | false =>
      simp only [Bool.false_eq_true, if_false, map_eq_pure_bind, bind_assoc, pure_bind]
      exact Halts.terminated h fun value => hend (some value)

-- The semicolon and the closing tag both show that no value follows.
theorem terminated_returned (start : Option Location) : Terminated seam (returned parts start) := by
  have hfront (item : Item) (rest : List Item) (last : Location) (docs : Docs)
      (errors : List SyntaxError) :
      returned parts start ⟨item :: rest, last, docs, errors⟩ =
        returnedWith parts start
          ((item.token? == some (Token.symbol .semicolon)) || (item.token? == some Token.closeTag))
          ⟨item :: rest, last, docs, errors⟩ := rfl
  have hended (last : Location) (docs : Docs) : returned parts start ⟨seam.ended, last, docs, []⟩ =
      returnedWith parts start true ⟨seam.ended, last, docs, []⟩ := by
    rw [Seam.ended, hfront, seam.isSemicolon]
    rfl
  have hclosed (last : Location) (docs : Docs) :
      returned parts start ⟨seam.closed, last, docs, []⟩ =
        returnedWith parts start true ⟨seam.closed, last, docs, []⟩ := by
    rw [Seam.closed, hfront, seam.isClosing]
    rfl
  constructor
  · refine Lockstep.ofFront (fun _ _ _ _ _ hend => hend) (.inr ?_) ?_
    · exact ⟨_, _, (terminated_returnedWith h start true).blind, fun last docs =>
        ⟨hended last docs, hended last docs, hclosed last docs⟩⟩
    · exact fun item docs => ⟨_, _, docs, (terminated_returnedWith h start _).blind,
        fun rest last errors =>
          ⟨hfront item rest last docs errors, hfront item rest last docs errors⟩⟩
  · rintro (_ | ⟨item, front⟩) last docs a t hreturned
    · rw [List.nil_append, hended] at hreturned
      rw [List.nil_append, hclosed]
      exact @Terminated.ends _ _ (terminated_returnedWith h start true) [] _ _ _ _ hreturned
    · rw [List.cons_append, hfront, ← List.cons_append] at hreturned
      rw [List.cons_append, hfront, ← List.cons_append]
      exact (terminated_returnedWith h start _).ends hreturned

theorem terminated_echo [Parts.Moves (fun s t => t.items <:+ s.items) parts]
    (start : Option Location) : Terminated seam (echo parts start) := by
  apply Halts.terminated h
  intro first
  apply Halts.terminated (halts_moreExpressions h first)
  intro expressions
  exact terminated_terminator start fun _ _ => rfl

end Statements

end PhpLint.Syntax
