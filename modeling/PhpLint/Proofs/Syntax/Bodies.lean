import PhpLint.Proofs.Syntax.Seams

namespace PhpLint.Syntax

open EStateM (bind_eq_ok_iff bind_of_ok)
open PhpLint.Syntax.Parser

section Fronts

variable {seam : Seam} {parts : Parts}

theorem Seam.follows_ended (seam : Seam) : Follows seam.ended := by
  rintro _ ⟨⟩
  rw [seam.isSemicolon]
  exact ⟨by decide, by decide⟩

theorem Seam.follows_closed (seam : Seam) : Follows seam.closed := by
  rintro _ ⟨⟩
  rw [seam.isClosing]
  exact ⟨by decide, by decide⟩

theorem Seam.follows_opening (seam : Seam) : Follows (seam.opening :: seam.rest) := by
  rintro _ ⟨⟩
  rw [seam.isOpening]
  exact ⟨by decide, by decide⟩

theorem Seam.Beyond.of_not_follows {t u : Stream} (h : seam.Beyond t u)
    (hfollows : ¬Follows seam.rest) (v : Stream) : seam.Beyond v u := by
  cases h with
  | left ht place => exact .left (fun hrest => absurd hrest hfollows) place
  | opened ht place => exact .opened (fun hrest => absurd hrest hfollows) place
  | same hrest => exact absurd hrest hfollows

-- With a tag in front the conditional is complete. Otherwise both sides take the same
-- alternatives.
theorem Seam.Beyond.resume_clauses {t u : Stream} (h : seam.Beyond t u)
    {clauses others : List Clause} {fuel : Nat} {c : List Clause × Option Stmt} {v : Stream}
    (hread : Follows seam.rest → clauses.map Clause.placeless = others.map Clause.placeless ∧
      rounds (anotherClause parts) fuel clauses t = .ok c v) :
    ∃ more d w, rounds (anotherClause parts) more others u = .ok d w ∧
      seam.Joined (Prod.map (List.map Clause.placeless) (Option.map Stmt.placeless)) seam.Beyond
        c v d w := by
  have htag {items : List Item} {place : Location} {docs : Docs} (hitems : Follows items)
      (ht : Follows seam.rest → ∃ last, t = ⟨seam.rest, last, docs, []⟩)
      (hbeyond : ∀ v, (Follows seam.rest → ∃ last, v = ⟨seam.rest, last, docs, []⟩) →
        seam.Beyond v ⟨items, place, docs, []⟩) :
      ∃ more d w, rounds (anotherClause parts) more others ⟨items, place, docs, []⟩ = .ok d w ∧
        seam.Joined (Prod.map (List.map Clause.placeless) (Option.map Stmt.placeless)) seam.Beyond
          c v d w := by
    have hdone (hfollows : Follows seam.rest) : c = (clauses.reverse, none) ∧ v = t := by
      obtain ⟨last, rfl⟩ := ht hfollows
      have hrounds := (hread hfollows).2
      cases fuel with
      | zero => cases hrounds
      | succ fuel =>
          rw [rounds_succ, bind_of_ok (anotherClause_of_follows hfollows clauses last docs [])]
            at hrounds
          cases hrounds
          exact ⟨rfl, rfl⟩
    refine ⟨1, (others.reverse, none), ⟨items, place, docs, []⟩, ?_, ?_, hbeyond v ?_⟩
    · rw [rounds_succ, bind_of_ok (anotherClause_of_follows hitems others place docs [])]
      rfl
    · intro hfollows
      rw [(hdone hfollows).1]
      simp only [Prod.map_apply, List.map_reverse, (hread hfollows).1]
    · intro hfollows
      rw [(hdone hfollows).2]
      exact ht hfollows
  cases h with
  | left ht place => exact htag seam.follows_closed ht fun v hv => .left hv place
  | opened ht place => exact htag seam.follows_opening ht fun v hv => .opened hv place
  | same hfollows =>
      obtain ⟨hclauses, hrounds⟩ := hread hfollows
      rw [anotherClause_eq] at hrounds ⊢
      have hpush (state other : List Clause) (x : Clause ⊕ Option Stmt)
          (hstate : state.map Clause.placeless = other.map Clause.placeless) :=
        addClause_placeless hstate (Eq.refl (Sum.map Clause.placeless (Option.map Stmt.placeless) x))
      obtain ⟨d, hd, hsame⟩ := rounds_gather hpush hclauses hrounds
      exact ⟨fuel, d, v, hd, fun _ => hsame, .same hfollows v⟩

theorem nextStatement_of_ne {item : Item} (hitem : item.token? ≠ some (.symbol .braceRight))
    (rest : List Item) (last : Location) (docs : Docs) (errors : List SyntaxError) :
    nextStatement parts ⟨item :: rest, last, docs, errors⟩ =
      (do return some (← parts.statement)) ⟨item :: rest, last, docs, errors⟩ := by
  rw [nextStatement, bind_of_ok (skip_of_ne hitem rest last docs errors)]
  rfl

theorem nextStatement_of_eq {item : Item} (hitem : item.token? = some (.symbol .braceRight))
    (rest : List Item) (last : Location) (docs : Docs) (errors : List SyntaxError) :
    nextStatement parts ⟨item :: rest, last, docs, errors⟩ =
      .ok none ⟨rest, item.location, docs, errors⟩ := by
  rw [nextStatement, bind_of_ok (skip_of_eq hitem rest last docs errors)]
  rfl

theorem blind_skipField : Blind seam skipField := by
  have hmoves : Moves (fun s t => s.errors <:+ t.errors) (anotherToken ()) := by
    refine Moves.bind fun found => ?_
    split <;> infer_instance
  have hstep : Blind seam (anotherToken ()) := by
    apply blind_of_front
    · intro last docs a hstays
      have hlength := length_anotherToken hstays
      exact Nat.lt_irrefl _ hlength
    · rintro ⟨content, location⟩
      cases content with
      | error error => exact .inl (by rintro _ _ _ _ _ _ ⟨⟩)
      | ok token =>
          cases token with
          | symbol symbol => cases symbol <;> exact .inr ⟨_, .inl fun _ _ _ _ => rfl⟩
          | _ => exact .inr ⟨_, .inl fun _ _ _ _ => rfl⟩
  have hadvances : Advances anotherToken := fun _ _ _ _ => length_anotherToken
  exact Lockstep.iterate (fun _ => hstep) hadvances (fun _ _ _ _ => False.elim) ()

theorem classMember_ne_ok {item : Item} (hitem : item.IsStop) (parts : Parts)
    (rest : List Item) (last : Location) (docs : Docs) (errors : List SyntaxError)
    (made : Option Method) (t : Stream) :
    classMember parts ⟨item :: rest, last, docs, errors⟩ ≠ .ok made t := by
  obtain ⟨token, htoken, hstops⟩ := hitem.exists_token
  rw [eq_of_token? htoken]
  rcases eq_of_stops hstops with rfl | rfl <;> rintro ⟨⟩

theorem fieldOrNone_of_isStop {item : Item} (hitem : item.IsStop) (rest : List Item)
    (last : Location) (docs : Docs) (errors : List SyntaxError) :
    fieldOrNone ⟨item :: rest, last, docs, errors⟩ =
      noMember ⟨item :: rest, last, docs, errors⟩ := by
  obtain ⟨token, htoken, hstops⟩ := hitem.exists_token
  rw [eq_of_token? htoken]
  rcases eq_of_stops hstops with rfl | rfl <;> rfl

theorem blind_noMember : Blind seam noMember :=
  Halts.blind (halts_take (fun _ _ _ => rfl) fun _ _ => halts_throw _)

theorem blind_fieldOrNone : Blind seam fieldOrNone := by
  have hfront (isField : Bool) : Blind seam (if isField = true then do
      skipField
      return none else noMember) := by
    cases isField with
    | true => exact blind_skipField.bind fun _ => blind_pure none
    | false => exact blind_noMember
  refine Lockstep.ofFront (fun _ _ _ _ _ hend => hend) (.inr ?_) ?_
  · exact ⟨_, _, blind_noMember, fun last docs =>
      ⟨fieldOrNone_of_isStop seam.isStop_semicolon _ last docs _,
        fieldOrNone_of_isStop seam.isStop_semicolon _ last docs _,
        fieldOrNone_of_isStop seam.isStop_closing _ last docs _⟩⟩
  · exact fun item docs => ⟨_, _, docs, hfront (item.token?.any startsField),
      fun _ _ _ => ⟨rfl, rfl⟩⟩

end Fronts

def Parts.ReadsTags (parts : Parts) : Prop :=
  ∀ ⦃item⦄, item.token? = some .closeTag ∨ item.token? = some .openTag → ∀ rest last docs errors,
    parts.statement ⟨item :: rest, last, docs, errors⟩ =
      .ok none ⟨rest, item.location, docs, errors⟩

-- Where nested statements end at the seam both runs go on alike.
structure Parts.Lockstep (seam : Seam) (parts other : Parts) : Prop where
  expression : Halts parts.expression
  same : other.expression = parts.expression
  statement : Parser.Lockstep seam (seam.Joined (Option.map Stmt.placeless) seam.Beyond)
    parts.statement other.statement
  advances : ∀ ⦃s made t⦄, parts.statement s = .ok made t → t.items.length < s.items.length
  afresh : ∀ ⦃item rest last docs errors made t⦄,
    parts.statement ⟨item :: rest, last, docs, errors⟩ = .ok made t →
      ∀ place, parts.statement ⟨item :: rest, place, docs, errors⟩ = .ok made t
  readsTags : ∀ ⦃s made t⦄, parts.statement s = .ok made t → parts.ReadsTags
  refuses : ∀ ⦃items⦄, ¬Follows items → ∀ last docs errors made t,
    parts.statement ⟨items, last, docs, errors⟩ ≠ .ok made t

-- A statement that has been read shows that a tag can be, too.
def Seam.Resumed (seam : Seam) (parts : Parts) (t u : Stream) : Prop :=
  parts.ReadsTags ∧ seam.Beyond t u

section Bodies

variable {seam : Seam} {parts other : Parts} (h : parts.Lockstep seam other)
include h

theorem Parts.Lockstep.agrees : Parts.Agrees other parts where
  expression := h.same ▸ inferInstance
  statement := h.statement.agrees

theorem Parts.Lockstep.condition_eq : condition other = condition parts := by
  rw [condition, condition, h.same]

theorem Parts.Lockstep.signature_eq : signature other = signature parts := by
  unfold signature parameters parameter
  rw [h.same]

theorem lockstep_controlled :
    Lockstep seam (seam.Joined Stmt.placeless seam.Beyond) (controlled parts)
      (controlled other) := by
  refine Lockstep.finish (k := fun made last => made.getD (.block ⟨[], last⟩)) h.statement ?_ ?_ ?_
  · rintro (_ | statement) t <;> rfl
  · rintro (_ | statement) (_ | another) last place hsame
    · rfl
    · cases hsame
    · cases hsame
    · exact Option.some.inj hsame
  · rintro (_ | statement) <;> infer_instance

theorem nextStatement_afresh {items : List Item} {last : Location} {docs : Docs}
    {errors : List SyntaxError} {x : Option (Option Stmt)} {t : Stream}
    (hx : nextStatement parts ⟨items, last, docs, errors⟩ = .ok x t) (place : Location) :
    nextStatement parts ⟨items, place, docs, errors⟩ = .ok x t := by
  cases items with
  | nil => cases hx
  | cons item rest =>
      by_cases hitem : item.token? = some (.symbol .braceRight)
      · rw [nextStatement_of_eq hitem] at hx ⊢
        exact hx
      · rw [nextStatement_of_ne hitem] at hx ⊢
        obtain ⟨made, u, hmade, hx⟩ := bind_eq_ok_iff.mp hx
        rw [bind_of_ok (h.afresh hmade place)]
        exact hx

theorem nextStatement_refuses {items : List Item} (hitems : ¬Follows items) {last : Location}
    {docs : Docs} {errors : List SyntaxError} {x : Option (Option Stmt)} {t : Stream} :
    nextStatement parts ⟨items, last, docs, errors⟩ ≠ .ok x t := by
  intro hx
  cases items with
  | nil => cases hx
  | cons item rest =>
      have hbrace : item.token? ≠ some (.symbol .braceRight) := by
        intro hitem
        apply hitems
        rintro _ ⟨⟩
        rw [hitem]
        exact ⟨by decide, by decide⟩
      rw [nextStatement_of_ne hbrace] at hx
      obtain ⟨made, u, hmade, -⟩ := bind_eq_ok_iff.mp hx
      exact h.refuses hitems _ _ _ _ _ hmade

omit h in
-- A tag that is still there is read in a round of its own.
theorem exists_rounds_tag (htags : parts.ReadsTags) {item : Item}
    (hitem : item.token? = some .closeTag ∨ item.token? = some .openTag) (rest : List Item)
    (place : Location) (docs : Docs) (made : List Stmt) {d : List Stmt} {w : Stream} :
    (∃ more, rounds (anotherStatement parts) more made ⟨rest, item.location, docs, []⟩ = .ok d w) ↔
      ∃ more,
        rounds (anotherStatement parts) more made ⟨item :: rest, place, docs, []⟩ = .ok d w := by
  have hbrace : item.token? ≠ some (.symbol .braceRight) := by
    rcases hitem with hitem | hitem <;> rw [hitem] <;> decide
  have hnext : nextStatement parts ⟨item :: rest, place, docs, []⟩ =
      .ok (some none) ⟨rest, item.location, docs, []⟩ := by
    rw [nextStatement_of_ne hbrace, bind_of_ok (htags hitem rest place docs [])]
    rfl
  have hone : anotherStatement parts made ⟨item :: rest, place, docs, []⟩ =
      .ok (.inl made) ⟨rest, item.location, docs, []⟩ := by
    have hstep := congrFun (anotherStatement_eq parts) made
    rw [hstep, bind_of_ok hnext]
    rfl
  exact exists_rounds_of_ok hone

-- Where no tag is left the loop finds the same statements on both sides, or an alternative
-- with which it cannot go on.
theorem reaches_rest {t : Stream} {docs : Docs}
    (ht : Follows seam.rest → ∃ last, t = ⟨seam.rest, last, docs, []⟩) {made others : List Stmt}
    (hmade : Follows seam.rest → made.map Stmt.placeless = others.map Stmt.placeless) {fuel : Nat}
    {c : List Stmt} {v : Stream} (hrounds : rounds (anotherStatement parts) fuel made t = .ok c v)
    (place : Location) :
    seam.Reaches
      (fun d w => ∃ more,
        rounds (anotherStatement parts) more others ⟨seam.rest, place, docs, []⟩ = .ok d w)
      (seam.Joined (List.map Stmt.placeless) seam.Same c v) := by
  by_cases hfollows : Follows seam.rest
  · left
    obtain ⟨last, rfl⟩ := ht hfollows
    have hafresh : rounds (anotherStatement parts) fuel made ⟨seam.rest, place, docs, []⟩ =
        .ok c v := by
      rw [anotherStatement_eq] at hrounds ⊢
      cases fuel with
      | zero => cases hrounds
      | succ fuel =>
          rw [rounds_succ, bind_assoc] at hrounds ⊢
          obtain ⟨x, s, hx, hrest⟩ := bind_eq_ok_iff.mp hrounds
          rw [bind_of_ok (nextStatement_afresh h hx place)]
          exact hrest
    rw [anotherStatement_eq] at hafresh ⊢
    obtain ⟨d, hd, hsame⟩ :=
      rounds_gather (fun _ _ x hstate => map_gather hstate x) (hmade hfollows) hafresh
    exact ⟨d, v, ⟨fuel, hd⟩, fun _ => hsame, hfollows, rfl⟩
  · refine .inr ⟨hfollows, ?_⟩
    intro d w hd
    obtain ⟨y, u, hy, -⟩ := exists_rounds_iff.mp hd
    have hstep := congrFun (anotherStatement_eq parts) others
    rw [hstep] at hy
    obtain ⟨x, u', hx, -⟩ := bind_eq_ok_iff.mp hy
    exact nextStatement_refuses h hfollows hx

theorem Seam.Beyond.resume_statements {t u : Stream} (hbeyond : seam.Beyond t u)
    (htags : parts.ReadsTags) {made others : List Stmt}
    (hmade : Follows seam.rest → made.map Stmt.placeless = others.map Stmt.placeless) {fuel : Nat}
    {c : List Stmt} {v : Stream} (hrounds : rounds (anotherStatement parts) fuel made t = .ok c v) :
    seam.Reaches (fun d w => ∃ more, rounds (anotherStatement parts) more others u = .ok d w)
      (seam.Joined (List.map Stmt.placeless) seam.Same c v) := by
  cases hbeyond with
  | left ht place =>
      have hrest := reaches_rest h ht hmade hrounds seam.opening.location
      have hopened := hrest.congr fun d w =>
        exists_rounds_tag htags (.inr seam.isOpening) seam.rest seam.closing.location _ others
      exact hopened.congr fun d w => exists_rounds_tag htags (.inl seam.isClosing) _ place _ others
  | opened ht place =>
      have hrest := reaches_rest h ht hmade hrounds seam.opening.location
      exact hrest.congr fun d w => exists_rounds_tag htags (.inr seam.isOpening) _ place _ others
  | same hfollows =>
      rw [anotherStatement_eq] at hrounds ⊢
      obtain ⟨d, hd, hsame⟩ :=
        rounds_gather (fun _ _ x hstate => map_gather hstate x) (hmade hfollows) hrounds
      exact .inl ⟨d, v, ⟨fuel, hd⟩, fun _ => hsame, hfollows, rfl⟩

variable [Parts.Moves (fun s t => s.errors <:+ t.errors) parts]

theorem lockstep_clause (start : Option Location) :
    Lockstep seam (seam.Joined Clause.placeless seam.Beyond) (clause parts start)
      (clause other start) := by
  rw [clause, clause, h.condition_eq]
  apply (halts_condition h.expression).blind.bind
  intro e
  refine Lockstep.finish (k := fun body _ => ⟨start, e, body⟩) (lockstep_controlled h)
    (fun _ _ => rfl) ?_ inferInstance
  intro body another last place hsame
  simp only [Clause.placeless, hsame]

theorem lockstep_inl_clause (start : Option Location) :
    Lockstep seam (seam.Joined (Sum.map Clause.placeless (Option.map Stmt.placeless)) seam.Beyond)
      (do return Sum.inl (← clause parts start)) (do return Sum.inl (← clause other start)) := by
  refine Lockstep.finish (k := fun clause _ => .inl clause) (lockstep_clause h start)
    (fun _ _ => rfl) ?_ inferInstance
  intro clause another last place hsame
  simp only [Sum.map_inl, hsame]

-- The place in front does not matter where no condition follows.
theorem lockstep_clauseAfterElse :
    Lockstep seam (seam.Joined (Sum.map Clause.placeless (Option.map Stmt.placeless)) seam.Beyond)
      (clauseAfterElse parts) (clauseAfterElse other) := by
  have hagrees := h.agrees
  have hfinal : Lockstep seam
      (seam.Joined (Sum.map Clause.placeless (Option.map Stmt.placeless)) seam.Beyond)
      (do return Sum.inr (some (← controlled parts)))
      (do return Sum.inr (some (← controlled other))) := by
    refine Lockstep.finish (k := fun body _ => .inr (some body)) (lockstep_controlled h)
      (fun _ _ => rfl) ?_ inferInstance
    intro body another last place hsame
    simp only [Sum.map_inr, Option.map_some, hsame]
  have hfront (start : Option Location) : Lockstep seam
      (seam.Joined (Sum.map Clause.placeless (Option.map Stmt.placeless)) seam.Beyond)
      (do
        if ← skip (.keyword .If) then return .inl (← clause parts start)
        return .inr (some (← controlled parts)))
      (do
        if ← skip (.keyword .If) then return .inl (← clause other start)
        return .inr (some (← controlled other))) := by
    apply Blind.bind (halts_skip rfl).blind
    intro isIf
    cases isIf with
    | true => exact lockstep_inl_clause h start
    | false => exact hfinal
  have hother {item : Item} (hitem : item.token? ≠ some (.keyword .If)) (parts : Parts)
      (rest : List Item) (last : Location) (docs : Docs) :
      clauseAfterElse parts ⟨item :: rest, last, docs, []⟩ =
        (do return Sum.inr (some (← controlled parts))) ⟨item :: rest, last, docs, []⟩ := by
    change (skip (.keyword .If) >>= _) _ = _
    rw [bind_of_ok (skip_of_ne hitem rest last docs [])]
    rfl
  have hsemicolon : seam.semicolon.token? ≠ some (.keyword .If) := by
    rw [seam.isSemicolon]
    decide
  have hclosing : seam.closing.token? ≠ some (.keyword .If) := by
    rw [seam.isClosing]
    decide
  refine Lockstep.ofFront (fun _ _ _ _ _ hend => hfinal.late hend (Nat.zero_le _)) (.inr ?_) ?_
  · exact ⟨_, _, hfinal, fun last docs => ⟨hother hsemicolon parts _ last docs,
      hother hsemicolon other _ last docs, hother hclosing parts _ last docs⟩⟩
  · intro item docs
    exact ⟨_, _, docs, hfront (some item.location), fun _ _ _ => ⟨rfl, rfl⟩⟩

theorem lockstep_nextClause :
    Lockstep seam (seam.Joined (Sum.map Clause.placeless (Option.map Stmt.placeless)) seam.Beyond)
      (nextClause parts) (nextClause other) := by
  have hagrees := h.agrees
  have hfront (start : Option Location) : Lockstep seam
      (seam.Joined (Sum.map Clause.placeless (Option.map Stmt.placeless)) seam.Beyond)
      (do
        if ← skip (.keyword .Elseif) then return .inl (← clause parts start)
        if ← skip (.keyword .Else) then clauseAfterElse parts else return .inr none)
      (do
        if ← skip (.keyword .Elseif) then return .inl (← clause other start)
        if ← skip (.keyword .Else) then clauseAfterElse other else return .inr none) := by
    apply Blind.bind (halts_skip rfl).blind
    intro isElseif
    cases isElseif with
    | true => exact lockstep_inl_clause h start
    | false =>
        apply Blind.bind (halts_skip rfl).blind
        intro isElse
        cases isElse with
        | true => exact lockstep_clauseAfterElse h
        | false => exact (blind_pure _).lockstep
  refine Lockstep.ofFront (fun _ _ _ _ _ hend => hend) (.inr ?_) ?_
  · exact ⟨_, _, (blind_pure (Sum.inr none)).lockstep, fun last docs =>
      ⟨nextClause_of_follows seam.follows_ended last docs [],
        nextClause_of_follows seam.follows_ended last docs [],
        nextClause_of_follows seam.follows_closed last docs []⟩⟩
  · intro item docs
    exact ⟨_, _, docs, hfront (some item.location), fun _ _ _ => ⟨rfl, rfl⟩⟩

theorem lockstep_whileLoop (start : Option Location) :
    Lockstep seam (seam.Joined Stmt.placeless seam.Beyond) (whileLoop parts start)
      (whileLoop other start) := by
  rw [whileLoop, whileLoop, h.condition_eq]
  apply (halts_condition h.expression).blind.bind
  intro e
  refine Lockstep.finish (k := fun body last => .loop e body (start.elim last (·.cover last)))
    (lockstep_controlled h) (fun _ _ => rfl) ?_ inferInstance
  intro body another last place hsame
  simp only [Stmt.placeless, hsame]

theorem lockstep_nextStatement :
    Lockstep seam (Another (seam.Joined (Option.map Stmt.placeless) (seam.Resumed parts)))
      (nextStatement parts) (nextStatement other) := by
  have hagrees := h.agrees
  have hstatement : Lockstep seam (seam.Joined (Option.map Stmt.placeless) (seam.Resumed parts))
      parts.statement other.statement :=
    h.statement.mono fun _ _ _ _ _ hread hjoined => ⟨hjoined.1, h.readsTags hread, hjoined.2⟩
  have hclosed : Lockstep seam
      (Another (seam.Joined (Option.map Stmt.placeless) (seam.Resumed parts)))
      (do
        if ← skip (.symbol .braceRight) then return none
        return some (← parts.statement))
      (do
        if ← skip (.symbol .braceRight) then return none
        return some (← other.statement)) := by
    apply Blind.bind (halts_skip rfl).blind
    intro isClosed
    cases isClosed with
    | true => exact (blind_pure none).lockstep
    | false => exact lockstep_some hstatement
  have heq (parts : Parts) (item : Item) (rest : List Item) (last : Location) (docs : Docs)
      (errors : List SyntaxError) : nextStatement parts ⟨item :: rest, last, docs, errors⟩ =
        (do
          if ← skip (.symbol .braceRight) then return none
          return some (← parts.statement) : Parser _) ⟨item :: rest, last, docs, errors⟩ := by
    by_cases hitem : item.token? = some (.symbol .braceRight)
    · rw [nextStatement_of_eq hitem, bind_of_ok (skip_of_eq hitem rest last docs errors)]
      rfl
    · rw [nextStatement_of_ne hitem, bind_of_ok (skip_of_ne hitem rest last docs errors)]
      rfl
  refine hclosed.of_eq ?_ fun item rest last docs errors =>
    ⟨heq parts item rest last docs errors, heq other item rest last docs errors⟩
  rintro last docs errors a t ⟨⟩

theorem lockstep_block (start : Location) :
    Lockstep seam (seam.Joined Block.placeless seam.Same) (block parts start)
      (block other start) := by
  have hstep (made : List Stmt) : Lockstep seam (seam.Onward Stmt.placeless (seam.Resumed parts))
      (anotherStatement parts made) (anotherStatement other made) := by
    rw [anotherStatement_eq, anotherStatement_eq]
    exact lockstep_gather (lockstep_nextStatement h) made
  have hloop : Lockstep seam (seam.Joined (List.map Stmt.placeless) seam.Same)
      (iterate (anotherStatement parts) []) (iterate (anotherStatement other) []) := by
    refine Lockstep.iterate hstep (advances_anotherStatement h.advances) ?_ []
    rintro _ t _ u ⟨made, others, rfl, rfl, hmade, htags, hbeyond⟩ fuel c v hrest hv
    exact hbeyond.resume_statements h htags hmade hrest
  refine Lockstep.finish (k := fun made last => ⟨made, start.cover last⟩) hloop (fun _ _ => rfl) ?_
    inferInstance
  intro made others last place hsame
  simp only [Block.placeless, placelessAll_eq_map, hsame]

theorem lockstep_body (expected : Expectation) :
    Lockstep seam (seam.Joined Block.placeless seam.Same) (body parts expected)
      (body other expected) := by
  apply Blind.bind (halts_expect rfl).blind
  intro _
  apply blind_last.bind
  intro start
  exact lockstep_block h start

variable [Parts.Moves (fun s t => t.items <:+ s.items) parts]

theorem lockstep_alternatives :
    Lockstep seam (seam.Joined (Prod.map (List.map Clause.placeless) (Option.map Stmt.placeless))
      seam.Beyond) (alternatives parts) (alternatives other) := by
  have hstep (clauses : List Clause) : Lockstep seam
      (seam.Joined (Sum.map (List.map Clause.placeless)
        (Prod.map (List.map Clause.placeless) (Option.map Stmt.placeless))) seam.Beyond)
      (anotherClause parts clauses) (anotherClause other clauses) := by
    rw [anotherClause_eq, anotherClause_eq]
    refine Lockstep.finish (k := fun x _ => addClause clauses x) (lockstep_nextClause h)
      (fun _ _ => rfl) ?_ inferInstance
    intro x y last place hsame
    exact addClause_placeless rfl hsame
  refine Lockstep.iterate hstep advances_anotherClause ?_ []
  rintro (clauses | read) t (others | another) u ⟨hsame, hbeyond⟩ fuel c v hrest hv
  · obtain ⟨more, d, w, hd, hjoined⟩ := hbeyond.resume_clauses fun hfollows =>
      ⟨Sum.inl.inj (hsame hfollows), hrest⟩
    exact .inl ⟨d, w, ⟨more, hd⟩, hjoined⟩
  · have hfollows : ¬Follows seam.rest := by
      intro hfollows
      cases hsame hfollows
    exact .inl ⟨another, u, ⟨0, rfl⟩, fun hrest => absurd hrest hfollows,
      hbeyond.of_not_follows hfollows v⟩
  · have hnone (hfollows : Follows seam.rest) :
        ([] : List Clause).map Clause.placeless = others.map Clause.placeless ∧
          rounds (anotherClause parts) 0 [] t = .ok c v := by
      cases hsame hfollows
    obtain ⟨more, d, w, hd, hjoined⟩ := hbeyond.resume_clauses hnone
    exact .inl ⟨d, w, ⟨more, hd⟩, hjoined⟩
  · cases hrest
    exact .inl ⟨another, u, ⟨0, rfl⟩, fun hfollows => Sum.inr.inj (hsame hfollows), hbeyond⟩

theorem lockstep_conditional (start : Option Location) :
    Lockstep seam (seam.Joined Stmt.placeless seam.Beyond) (conditional parts start)
      (conditional other start) := by
  apply (lockstep_clause h start).bind
  · intro first
    refine Lockstep.finish (k := fun read last => first.toStmt last
      (read.1.foldr (fun clause next => some (clause.toStmt last next)) read.2))
      (lockstep_alternatives h) (fun _ _ => rfl) ?_ inferInstance
    intro read another last place hsame
    exact Clause.placeless_toStmt rfl (placeless_foldr (congrArg Prod.fst hsame)
      (congrArg Prod.snd hsame) last place) last place
  · rintro first t second u ⟨hfirst, hbeyond⟩ c v hc hv
    obtain ⟨read, t', hread, hc⟩ := bind_eq_ok_iff.mp hc
    cases hc
    obtain ⟨more, another, u', hanother, hsame, hbeyond⟩ :=
      hbeyond.resume_clauses fun _ => ⟨rfl, hread⟩
    have hiterate := advances_anotherClause.iterate_of_rounds hanother
    refine .inl ⟨_, u', (bind_of_ok hiterate).trans rfl, fun hfollows => ?_, hbeyond⟩
    exact Clause.placeless_toStmt (hfirst hfollows) (placeless_foldr
      (congrArg Prod.fst (hsame hfollows)) (congrArg Prod.snd (hsame hfollows)) v.last u'.last)
      v.last u'.last

theorem lockstep_functionDeclaration (doc : Option DocComment) (start : Option Location) :
    Lockstep seam (seam.Joined Stmt.placeless seam.Same) (functionDeclaration parts doc start)
      (functionDeclaration other doc start) := by
  rw [functionDeclaration, functionDeclaration, h.signature_eq]
  apply (halts_signature h.expression doc .functionName).blind.bind
  intro signature
  refine Lockstep.finish
    (k := fun body last => .functionDecl signature body (start.elim last (·.cover last)))
    (lockstep_body h .functionBody) (fun _ _ => rfl) ?_ inferInstance
  intro body another last place hsame
  simp only [Stmt.placeless, hsame]

theorem lockstep_method (doc : Option DocComment) (modifiers : List Modifier)
    (start : Option Location) :
    Lockstep seam (seam.Joined Method.placeless seam.Same) (method parts doc modifiers start)
      (method other doc modifiers start) := by
  rw [method, method, h.signature_eq]
  apply (halts_signature h.expression doc .methodName).blind.bind
  intro signature
  have hspan (body : Option Block) : Blind seam
      (do return (⟨signature, modifiers, body, ← spanFrom start⟩ : Method)) :=
    blind_of_eq (k := fun last => ⟨signature, modifiers, body, start.elim last (·.cover last)⟩)
      fun _ => rfl
  apply blind_skipSemicolon.bind
  intro isAbstract
  cases isAbstract with
  | true => exact (blind_pure none).bind fun body => (hspan body).lockstep
  | false =>
      simp only [Bool.false_eq_true, if_false, map_eq_pure_bind, bind_assoc, pure_bind]
      refine Lockstep.finish (k := fun body last =>
        ⟨signature, modifiers, some body, start.elim last (·.cover last)⟩)
        (lockstep_body h .methodBody) (fun _ _ => rfl) ?_ inferInstance
      intro body another last place hsame
      simp only [Method.placeless, hsame]

theorem lockstep_memberFrom (start : Option Location) (doc : Option DocComment) :
    Lockstep seam (seam.Joined (Option.map Method.placeless) seam.Same) (memberFrom parts start doc)
      (memberFrom other start doc) := by
  have hmodifiers : Halts (modifiers methodModifier?) := by
    apply halts_modifiers
    intro token hstops
    rcases eq_of_stops hstops with rfl | rfl <;> rfl
  apply hmodifiers.blind.bind
  intro modifiers
  apply Blind.bind (halts_skip rfl).blind
  intro isMethod
  cases isMethod with
  | true =>
      refine Lockstep.finish (k := fun made _ => some made) (lockstep_method h doc modifiers start)
        (fun _ _ => rfl) ?_ inferInstance
      intro made another last place hsame
      exact congrArg some hsame
  | false => exact blind_fieldOrNone.lockstep

-- With the semicolon or a tag in front there is no member.
theorem lockstep_classMember :
    Lockstep seam (seam.Joined (Option.map Method.placeless) seam.Same) (classMember parts)
      (classMember other) := by
  have hagrees := h.agrees
  refine Lockstep.ofFront (fun last docs errors _ _ hend => ?_) (.inl ?_) ?_
  · rw [classMember_nil] at hend
    cases hend
  · exact fun last docs => classMember_ne_ok seam.isStop_semicolon parts _ last docs []
  · exact fun item docs => LockstepAt.documented item docs
      fun doc => lockstep_memberFrom h (some item.location) doc

theorem lockstep_classMethods :
    Lockstep seam (seam.Joined (List.map Method.placeless) seam.Same) (classMethods parts)
      (classMethods other) := by
  have hnext : Lockstep seam (Another (seam.Joined (Option.map Method.placeless) seam.Same))
      (nextMember parts) (nextMember other) := by
    apply Blind.bind (halts_skip rfl).blind
    intro isClosed
    cases isClosed with
    | true => exact (blind_pure none).lockstep
    | false => exact lockstep_some (lockstep_classMember h)
  have hstep (made : List Method) : Lockstep seam (seam.Onward Method.placeless seam.Same)
      (anotherMember parts made) (anotherMember other made) := by
    rw [anotherMember_eq, anotherMember_eq]
    exact lockstep_gather hnext made
  refine Lockstep.iterate hstep advances_anotherMember ?_ []
  rintro _ t _ _ ⟨made, others, rfl, rfl, hmade, hfollows, rfl⟩ fuel c v hrest hv
  simp only [goOn, anotherMember_eq] at hrest ⊢
  obtain ⟨d, hd, hsame⟩ :=
    rounds_gather (fun _ _ x hstate => map_gather hstate x) (hmade hfollows) hrest
  exact .inl ⟨d, v, ⟨fuel, hd⟩, fun _ => hsame, hfollows, rfl⟩

theorem lockstep_classDeclaration (doc : Option DocComment) (start : Option Location) :
    Lockstep seam (seam.Joined Stmt.placeless seam.Same) (classDeclaration parts doc start)
      (classDeclaration other doc start) := by
  have hmodifiers : Halts (modifiers classModifier?) := by
    apply halts_modifiers
    intro token hstops
    rcases eq_of_stops hstops with rfl | rfl <;> rfl
  have hinterfaces : Halts (skipWhile isInterfacePart) := by
    apply halts_skipWhile
    intro token hstops
    rcases eq_of_stops hstops with rfl | rfl <;> rfl
  apply hmodifiers.blind.bind
  intro modifiers
  apply Blind.bind (halts_expect rfl).blind
  intro _
  apply Blind.bind halts_identifier.blind
  intro name
  apply Blind.bind halts_parentClass?.blind
  intro parent
  apply hinterfaces.blind.bind
  intro _
  apply Blind.bind (halts_expect rfl).blind
  intro _
  refine Lockstep.finish (k := fun methods last =>
    .classDecl ⟨name, parent, modifiers, doc⟩ methods (start.elim last (·.cover last)))
    (lockstep_classMethods h) (fun _ _ => rfl) ?_ inferInstance
  intro methods others last place hsame
  simp only [Stmt.placeless, placelessMethods_eq_map, hsame]

end Bodies

end PhpLint.Syntax
