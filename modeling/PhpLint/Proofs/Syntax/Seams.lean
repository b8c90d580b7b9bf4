import PhpLint.Proofs.Syntax.Lockstep

namespace PhpLint

-- A statement without the places of the statements in it. Those of its expressions stay.
mutual
def Stmt.placeless : Stmt → Stmt
  | .expr e _ => .expr e default
  | .echo es _ => .echo es default
  | .ret value _ => .ret value default
  | .ifThen condition body _ => .ifThen condition body.placeless default
  | .ifElse condition body alternative _ =>
    .ifElse condition body.placeless alternative.placeless default
  | .loop condition body _ => .loop condition body.placeless default
  | .block body => .block body.placeless
  | .html _ => .html default
  | .functionDecl signature body _ => .functionDecl signature body.placeless default
  | .classDecl header methods _ => .classDecl header (placelessMethods methods) default
  | .constDecl name value _ => .constDecl name value default
  | .invalid _ => .invalid default

def Block.placeless : Block → Block
  | ⟨statements, _⟩ => ⟨placelessAll statements, default⟩

def Method.placeless : Method → Method
  | ⟨signature, modifiers, some body, _⟩ => ⟨signature, modifiers, some body.placeless, default⟩
  | ⟨signature, modifiers, none, _⟩ => ⟨signature, modifiers, none, default⟩

def placelessAll : List Stmt → List Stmt
  | [] => []
  | s :: ss => s.placeless :: placelessAll ss

def placelessMethods : List Method → List Method
  | [] => []
  | m :: ms => m.placeless :: placelessMethods ms
end

theorem placelessAll_eq_map (ss : List Stmt) : placelessAll ss = ss.map Stmt.placeless := by
  induction ss with
  | nil => rfl
  | cons s ss ih => rw [placelessAll, ih, List.map_cons]

theorem placelessMethods_eq_map (ms : List Method) :
    placelessMethods ms = ms.map Method.placeless := by
  induction ms with
  | nil => rfl
  | cons m ms ih => rw [placelessMethods, ih, List.map_cons]

namespace Syntax

open EStateM (bind_eq_ok_iff bind_of_ok)
open PhpLint.Syntax.Parser

def Clause.placeless (clause : Clause) : Clause :=
  ⟨none, clause.condition, clause.body.placeless⟩

theorem Clause.placeless_toStmt {clause other : Clause} {next following : Option Stmt}
    (hclause : clause.placeless = other.placeless)
    (hnext : next.map Stmt.placeless = following.map Stmt.placeless) (last place : Location) :
    (clause.toStmt last next).placeless = (other.toStmt place following).placeless := by
  obtain ⟨-, hcondition, hbody⟩ := Clause.mk.inj hclause
  cases next with
  | none =>
      cases following with
      | none => simp only [Clause.toStmt, Stmt.placeless, hcondition, hbody]
      | some _ => cases hnext
  | some alternative =>
      cases following with
      | none => cases hnext
      | some _ =>
          have halternative := Option.some.inj hnext
          simp only [Clause.toStmt, Stmt.placeless, hcondition, hbody, halternative]

theorem placeless_foldr {clauses others : List Clause} {final another : Option Stmt}
    (hclauses : clauses.map Clause.placeless = others.map Clause.placeless)
    (hfinal : final.map Stmt.placeless = another.map Stmt.placeless) (last place : Location) :
    (clauses.foldr (fun clause next => some (clause.toStmt last next)) final).map Stmt.placeless =
      (others.foldr (fun clause next => some (clause.toStmt place next)) another).map
        Stmt.placeless := by
  induction clauses generalizing others with
  | nil =>
      rw [List.map_nil, eq_comm, List.map_eq_nil_iff] at hclauses
      rw [hclauses]
      exact hfinal
  | cons clause clauses ih =>
      cases others with
      | nil => cases hclauses
      | cons second others =>
          obtain ⟨hclause, hrest⟩ := List.cons.inj hclauses
          exact congrArg some (Clause.placeless_toStmt hclause (ih hrest) last place)

-- Behind a statement that ended at the seam both runs have what comes after it, except that
-- with the tags one or both of these may still be there. An alternative behind the tags is
-- not reached, whatever the other run does with it.
inductive Seam.Beyond (seam : Seam) : Stream → Stream → Prop where
  | left {t : Stream} {docs : Docs}
      (ht : Follows seam.rest → ∃ last, t = ⟨seam.rest, last, docs, []⟩) (place : Location) :
      seam.Beyond t ⟨seam.closed, place, docs, []⟩
  | opened {t : Stream} {docs : Docs}
      (ht : Follows seam.rest → ∃ last, t = ⟨seam.rest, last, docs, []⟩) (place : Location) :
      seam.Beyond t ⟨seam.opening :: seam.rest, place, docs, []⟩
  | same (hfollows : Follows seam.rest) (s : Stream) : seam.Beyond s s

-- Behind a body nothing of the seam is left. With an alternative behind the tags it has no end.
def Seam.Same (seam : Seam) (t u : Stream) : Prop :=
  Follows seam.rest ∧ t = u

-- Results that are the same up to places, if the runs go on alike.
def Seam.Joined (seam : Seam) {α β : Type} (placeless : α → β) (Streams : Stream → Stream → Prop)
    (a : α) (t : Stream) (b : α) (u : Stream) : Prop :=
  (Follows seam.rest → placeless a = placeless b) ∧ Streams t u

section Rules

variable {α β γ δ : Type} {seam : Seam} {p q : Parser α} {e : α → β} {e' : γ → δ}
  {Streams : Stream → Stream → Prop} {f : α → Parser γ} {k : α → Location → γ}

-- What only adds the last place to the result takes nothing more.
theorem Seam.Joined.resume (hf : ∀ a t, f a t = .ok (k a t.last) t)
    (hk : ∀ a b last place, e a = e b → e' (k a last) = e' (k b place)) {a b : α} {t u v : Stream}
    {c : γ} (h : seam.Joined e Streams a t b u) (hc : f a t = .ok c v) :
    seam.Reaches (fun d w => f b u = .ok d w) (seam.Joined e' Streams c v) := by
  obtain ⟨rfl, rfl⟩ := EStateM.Result.ok.inj ((hf a t).symm.trans hc)
  exact .inl ⟨_, _, hf b u, fun hfollows => hk a b t.last u.last (h.1 hfollows), h.2⟩

theorem blind_of_eq {r : Parser γ} {k : Location → γ} (hr : ∀ t, r t = .ok (k t.last) t)
    [hmoves : Moves (fun s t => s.errors <:+ t.errors) r] : Blind seam r := by
  apply blind_of hmoves
  intro front last docs c left place filed h
  obtain ⟨rfl, hstream⟩ := EStateM.Result.ok.inj ((hr _).symm.trans h)
  obtain ⟨hitems, rfl, rfl, -⟩ := Stream.mk.inj hstream
  rw [List.append_cancel_right hitems]
  exact hr _

theorem Lockstep.finish (hp : Lockstep seam (seam.Joined e Streams) p q)
    (hf : ∀ a t, f a t = .ok (k a t.last) t)
    (hk : ∀ a b last place, e a = e b → e' (k a last) = e' (k b place))
    (hmoves : ∀ a, Moves (fun s t => s.errors <:+ t.errors) (f a)) :
    Lockstep seam (seam.Joined e' Streams) (p >>= f) (q >>= f) := by
  apply hp.bind
  · intro a
    have hmoves := hmoves a
    exact (blind_of_eq (hf a)).lockstep
  · intro a t b u hjoined c v hc hv
    exact hjoined.resume hf hk hc

end Rules

section Loops

variable {α σ γ : Type}

-- A loop that puts together what its rounds read gives the same up to what is put together.
theorem rounds_gather {next : Parser γ} {push : σ → γ → σ ⊕ α} {β δ : Type} {e : σ → β} {e' : α → δ}
    (hpush : ∀ state other x, e state = e other →
      Sum.map e e' (push state x) = Sum.map e e' (push other x))
    {fuel : Nat} {state other : σ} {s t : Stream} {a : α} (hstate : e state = e other)
    (h : rounds (fun state => next >>= fun x => pure (push state x)) fuel state s = .ok a t) :
    ∃ b, rounds (fun state => next >>= fun x => pure (push state x)) fuel other s = .ok b t ∧
      e' a = e' b := by
  induction fuel generalizing state other s with
  | zero => cases h
  | succ fuel ih =>
      rw [rounds_succ, bind_assoc] at h ⊢
      obtain ⟨x, u, hx, h⟩ := bind_eq_ok_iff.mp h
      rw [pure_bind] at h
      have hsame := hpush state other x hstate
      rw [bind_of_ok hx, pure_bind]
      cases hone : push state x with
      | inl after =>
          cases htwo : push other x with
          | inl following =>
              rw [hone, htwo] at hsame
              rw [hone] at h
              exact ih (Sum.inl.inj hsame) h
          | inr _ =>
              rw [hone, htwo] at hsame
              cases hsame
      | inr after =>
          cases htwo : push other x with
          | inl _ =>
              rw [hone, htwo] at hsame
              cases hsame
          | inr following =>
              rw [hone, htwo] at hsame
              rw [hone] at h
              cases h
              exact ⟨following, rfl, Sum.inr.inj hsame⟩

end Loops

-- What is put together in a block or a class. Nothing is read behind the last round.
def gather {α : Type} (made : List α) : Option (Option α) → List α ⊕ List α
  | none => .inr made.reverse
  | some read => .inl (read.toList ++ made)

section Gathering

variable {α β : Type} {seam : Seam} {e : α → β} {Streams : Stream → Stream → Prop}
  {made others : List α}

theorem map_toList_append {read another : Option α} (hmade : made.map e = others.map e)
    (hread : read.map e = another.map e) :
    (read.toList ++ made).map e = (another.toList ++ others).map e := by
  rw [List.map_append, List.map_append, ← Option.toList_map, ← Option.toList_map, hmade, hread]

theorem map_gather (hmade : made.map e = others.map e) (x : Option (Option α)) :
    Sum.map (List.map e) (List.map e) (gather made x) =
      Sum.map (List.map e) (List.map e) (gather others x) := by
  cases x with
  | none => simp only [gather, Sum.map_inr, List.map_reverse, hmade]
  | some read => exact congrArg Sum.inl (map_toList_append hmade rfl)

-- A round in which something is read.
def Another (Past : α → Stream → α → Stream → Prop) (x : Option α) (t : Stream) (y : Option α)
    (u : Stream) : Prop :=
  ∃ a b, x = some a ∧ y = some b ∧ Past a t b u

-- A round after which the loop goes on with what it has put together.
def Seam.Onward (seam : Seam) (e : α → β) (Streams : Stream → Stream → Prop)
    (x : List α ⊕ List α) (t : Stream) (y : List α ⊕ List α) (u : Stream) : Prop :=
  ∃ made others, x = .inl made ∧ y = .inl others ∧ seam.Joined (List.map e) Streams made t others u

theorem lockstep_some {Past : α → Stream → α → Stream → Prop} {p q : Parser α}
    (hp : Lockstep seam Past p q) :
    Lockstep seam (Another Past) (do return some (← p)) (do return some (← q)) := by
  apply hp.bind
  · exact fun a => (blind_pure (some a)).lockstep
  · intro a t b u hpast c v hc hv
    cases hc
    exact .inl ⟨some b, u, rfl, a, b, rfl, rfl, hpast⟩

theorem lockstep_gather {next other : Parser (Option (Option α))}
    (hnext : Lockstep seam (Another (seam.Joined (Option.map e) Streams)) next other)
    (made : List α) :
    Lockstep seam (seam.Onward e Streams) (next >>= fun x => pure (gather made x))
      (other >>= fun x => pure (gather made x)) := by
  apply hnext.bind
  · exact fun x => (blind_pure _).lockstep
  · rintro _ t _ u ⟨read, another, rfl, rfl, hread, hstreams⟩ c v hc hv
    cases hc
    exact .inl ⟨.inl (another.toList ++ made), u, rfl, read.toList ++ made, another.toList ++ made,
      rfl, rfl, fun hfollows => map_toList_append rfl (hread hfollows), hstreams⟩

end Gathering

-- What one round of the alternatives reads, whatever there was before.
def clauseAfterElse (parts : Parts) : Parser (Clause ⊕ Option Stmt) := do
  let start ← location?
  if ← skip (.keyword .If) then return .inl (← clause parts start)
  return .inr (some (← controlled parts))

def nextClause (parts : Parts) : Parser (Clause ⊕ Option Stmt) := do
  let start ← location?
  if ← skip (.keyword .Elseif) then return .inl (← clause parts start)
  if ← skip (.keyword .Else) then clauseAfterElse parts else return .inr none

def addClause (clauses : List Clause) :
    Clause ⊕ Option Stmt → List Clause ⊕ (List Clause × Option Stmt)
  | .inl clause => .inl (clause :: clauses)
  | .inr final => .inr (clauses.reverse, final)

theorem anotherClause_eq (parts : Parts) : anotherClause parts =
    fun clauses => nextClause parts >>= fun x => pure (addClause clauses x) := by
  funext clauses
  unfold anotherClause nextClause
  simp only [bind_assoc]
  congr
  funext start
  congr
  funext isElseif
  cases isElseif with
  | true => simp only [if_true, bind_assoc, pure_bind, addClause]
  | false =>
      simp only [Bool.false_eq_true, if_false, bind_assoc]
      congr
      funext isElse
      cases isElse with
      | false => rfl
      | true =>
          simp only [clauseAfterElse, if_true, bind_assoc]
          congr
          funext start
          congr
          funext isIf
          cases isIf <;>
            simp only [if_true, Bool.false_eq_true, if_false, bind_assoc, pure_bind, addClause]

theorem nextClause_of_follows {parts : Parts} {items : List Item} (hitems : Follows items)
    (last : Location) (docs : Docs) (errors : List SyntaxError) :
    nextClause parts ⟨items, last, docs, errors⟩ = .ok (.inr none) ⟨items, last, docs, errors⟩ := by
  have h := @anotherClause_of_follows parts _ hitems [] last docs errors
  rw [anotherClause_eq] at h
  obtain ⟨x, t, hx, h⟩ := bind_eq_ok_iff.mp h
  cases x with
  | inl _ => cases h
  | inr final =>
      cases h
      exact hx

-- What one round of a block or a class reads.
def nextStatement (parts : Parts) : Parser (Option (Option Stmt)) := do
  if ← skip (.symbol .braceRight) then return none
  if (← get).items.isEmpty then throw (.endOfFile .rightBrace (← last))
  return some (← parts.statement)

def nextMember (parts : Parts) : Parser (Option (Option Method)) := do
  if ← skip (.symbol .braceRight) then return none
  return some (← classMember parts)

theorem anotherStatement_eq (parts : Parts) : anotherStatement parts =
    fun made => nextStatement parts >>= fun x => pure (gather made x) := by
  funext made
  unfold anotherStatement nextStatement
  simp only [bind_assoc]
  congr
  funext isClosed
  cases isClosed with
  | true => rfl
  | false =>
      simp only [Bool.false_eq_true, if_false, bind_assoc]
      congr
      funext now
      split
      · simp only [bind_assoc]
        rfl
      · simp only [bind_assoc, pure_bind]
        congr
        funext statement
        cases statement <;> rfl

theorem anotherMember_eq (parts : Parts) : anotherMember parts =
    fun made => nextMember parts >>= fun x => pure (gather made x) := by
  funext made
  unfold anotherMember nextMember
  simp only [bind_assoc]
  congr
  funext isClosed
  cases isClosed with
  | true => rfl
  | false =>
      simp only [Bool.false_eq_true, if_false, bind_assoc, pure_bind]
      congr
      funext member
      cases member <;> rfl

section Instances

variable {R : Stream → Stream → Prop} [Passage R] {parts other : Parts}

instance [Parts.Moves R parts] : Moves R (clauseAfterElse parts) := by
  unfold clauseAfterElse
  infer_instance

instance [Parts.Moves R parts] : Moves R (nextClause parts) := by
  unfold nextClause
  infer_instance

instance [Parts.Agrees parts other] : Agrees (clauseAfterElse parts) (clauseAfterElse other) := by
  unfold clauseAfterElse
  infer_instance

instance [Parts.Agrees parts other] : Agrees (nextClause parts) (nextClause other) := by
  unfold nextClause
  infer_instance

instance [Parts.Moves R parts] : Moves R (nextStatement parts) := by
  refine Moves.bind fun isClosed => ?_
  cases isClosed with
  | true => exact inferInstanceAs (Moves R (pure _))
  | false =>
      have hend : Moves R (do throw (.endOfFile .rightBrace (← last)) :
          Parser (Option (Option Stmt))) := Moves.throwLast fun _ => rfl
      exact Moves.ofFront hend (fun _ _ _ => rfl) fun _ =>
        ⟨_, Moves.bind (p := parts.statement) fun _ => inferInstance, fun _ _ _ _ => rfl⟩

instance [Filing R] [Parts.Moves R parts] : Moves R (nextMember parts) := by
  unfold nextMember
  infer_instance

instance [Parts.Agrees parts other] : Agrees (nextStatement parts) (nextStatement other) := by
  unfold nextStatement
  infer_instance

end Instances

theorem addClause_placeless {clauses others : List Clause} {x y : Clause ⊕ Option Stmt}
    (hclauses : clauses.map Clause.placeless = others.map Clause.placeless)
    (hx : Sum.map Clause.placeless (Option.map Stmt.placeless) x =
      Sum.map Clause.placeless (Option.map Stmt.placeless) y) :
    Sum.map (List.map Clause.placeless)
        (Prod.map (List.map Clause.placeless) (Option.map Stmt.placeless)) (addClause clauses x) =
      Sum.map (List.map Clause.placeless)
        (Prod.map (List.map Clause.placeless) (Option.map Stmt.placeless))
        (addClause others y) := by
  cases x with
  | inl clause =>
      cases y with
      | inl other =>
          have hclause := Sum.inl.inj hx
          simp only [addClause, Sum.map_inl, List.map_cons, hclauses, hclause]
      | inr _ => cases hx
  | inr final =>
      cases y with
      | inl _ => cases hx
      | inr other =>
          have hfinal := Sum.inr.inj hx
          simp only [addClause, Sum.map_inr, Prod.map_apply, List.map_reverse, hclauses, hfinal]

end Syntax

end PhpLint
