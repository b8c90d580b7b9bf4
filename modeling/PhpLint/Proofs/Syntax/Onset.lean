import PhpLint.Proofs.Syntax.Movement

namespace PhpLint

namespace Syntax

open EStateM (bind_of_error bind_of_ok)
open PhpLint.Syntax.Parser

-- With the item in front, the parser does the same whatever has been taken before it, or
-- it succeeds with a result of this kind and takes no item.
def Parser.Onset {α : Type} (item : Item) (p : Parser α) (P : α → Prop) : Prop :=
  ∀ rest docs errors,
    (∃ outcome, ∀ last, p ⟨item :: rest, last, docs, errors⟩ = outcome) ∨
    ∃ a filed reported, P a ∧
      ∀ last, p ⟨item :: rest, last, docs, errors⟩ = .ok a ⟨item :: rest, last, filed, reported⟩

namespace Parser

section Rules

variable {α β σ : Type} {item : Item} {P : α → Prop} {Q : β → Prop}

theorem Onset.bind {p : Parser α} {f : α → Parser β} (hp : Onset item p P)
    (hf : ∀ a, P a → Onset item (f a) Q) : Onset item (p >>= f) Q := by
  intro rest docs errors
  rcases hp rest docs errors with ⟨outcome, hsame⟩ | ⟨a, filed, reported, ha, hidle⟩
  · left
    cases outcome with
    | ok a t => exact ⟨f a t, fun last => bind_of_ok (hsame last)⟩
    | error e t => exact ⟨.error e t, fun last => bind_of_error (hsame last)⟩
  · rcases hf a ha rest filed reported with ⟨outcome, hsame⟩ | ⟨b, left, later, hb, hidle'⟩
    · exact .inl ⟨outcome, fun last => (bind_of_ok (hidle last)).trans (hsame last)⟩
    · exact .inr ⟨b, left, later, hb, fun last => (bind_of_ok (hidle last)).trans (hidle' last)⟩

-- Once an item is taken, nothing more is asked.
theorem Onset.andThen {p : Parser α} {f : α → Parser β} (hp : Onset item p fun _ => False) :
    Onset item (p >>= f) Q :=
  hp.bind fun _ => False.elim

theorem onset_pure {a : α} (ha : P a) : Onset item (pure a) P :=
  fun _ docs errors => .inr ⟨a, docs, errors, ha, fun _ => rfl⟩

theorem onset_location? : Onset item location? (· = some item.location) :=
  fun _ docs errors => .inr ⟨_, docs, errors, rfl, fun _ => rfl⟩

theorem onset_takeDoc : Onset item takeDoc fun _ => True :=
  fun _ docs errors => .inr
    ⟨docs.get? item.location.start, docs.remove item.location.start, errors, trivial, fun _ => rfl⟩

theorem onset_peek? : Onset item peek? (· = item.token?) :=
  fun _ docs errors => .inr ⟨_, docs, errors, rfl, fun _ => rfl⟩

theorem onset_advance : Onset item advance fun _ => False :=
  fun rest docs errors => .inl ⟨.ok () ⟨rest, item.location, docs, errors⟩, fun _ => rfl⟩

theorem onset_take (expected : Expectation) : Onset item (take expected) fun _ => False := by
  obtain ⟨content, location⟩ := item
  intro rest docs errors
  left
  cases content with
  | ok token => exact ⟨.ok (token, location) ⟨rest, location, docs, errors⟩, fun _ => rfl⟩
  | error error =>
      exact ⟨.error (.lexical error expected location) ⟨rest, location, docs, errors⟩, fun _ => rfl⟩

theorem onset_isNext (token : Token) :
    Onset item (isNext token) (· = (item.token? == some token)) :=
  onset_peek?.bind fun _ htoken => onset_pure (by rw [htoken])

theorem onset_skip (token : Token) : Onset item (skip token) (· = false) := by
  refine (onset_isNext token).bind fun found _ => ?_
  cases found with
  | true => exact onset_advance.andThen
  | false => exact onset_pure rfl

-- Only the first round can be idle.
theorem onset_iterate {step : σ → Parser (σ ⊕ α)} {start : σ}
    (hstep : Onset item (step start) fun result => ∃ a, result = .inr a ∧ P a) :
    Onset item (Parser.iterate step start) P := by
  have hrounds (fuel : Nat) : Onset item (rounds step (fuel + 1) start) P := by
    refine hstep.bind ?_
    rintro _ ⟨a, rfl, ha⟩
    exact onset_pure ha
  exact fun rest docs errors => hrounds (rest.length + 1) rest docs errors

end Rules

end Parser

section Expressions

variable {item : Item} {nested : Nested}

theorem onset_primary :
    Onset item (primary nested) fun _ => item.token?.any endsOperand := by
  intro rest docs errors
  by_cases hends : item.token?.any endsOperand
  · exact .inr ⟨_, _, _, hends, fun last => primary_of_ends hends rest last docs errors⟩
  · have htake : Onset item (take .expression >>= operandOf nested) fun _ => False :=
      (onset_take .expression).andThen
    rcases htake rest docs errors with ⟨outcome, hsame⟩ | ⟨_, _, _, hfalse, _⟩
    · exact .inl ⟨outcome, fun last =>
        (primary_of_not_ends hends rest last docs errors).trans (hsame last)⟩
    · exact hfalse.elim

theorem onset_access? (object : Expr) : Onset item (access? nested object) (· = none) := by
  refine (onset_skip _).bind ?_
  rintro _ rfl
  refine (onset_skip _).bind ?_
  rintro _ rfl
  exact onset_pure rfl

theorem onset_accesses : Onset item (accesses nested) fun _ => item.token?.any endsOperand := by
  refine onset_primary.bind fun first hends => onset_iterate ((onset_access? first).bind ?_)
  rintro _ rfl
  exact onset_pure ⟨first, rfl, hends⟩

theorem onset_power : Onset item (power nested) fun _ => item.token?.any endsOperand := by
  refine onset_accesses.bind fun base hends => (onset_skip _).bind ?_
  rintro _ rfl
  exact onset_pure hends

theorem onset_unary : Onset item (unary nested) fun _ => item.token?.any endsOperand := by
  refine onset_peek?.bind fun token? _ => ?_
  split
  · exact onset_advance.andThen
  · split
    · exact onset_advance.andThen
    · exact onset_power

theorem onset_operation {table : List (Token × BinaryOp)} {operand : Parser Expr}
    (hoperand : Onset item operand fun _ => item.token?.any endsOperand) :
    Onset item (operation table operand) fun _ => item.token?.any endsOperand := by
  refine hoperand.bind fun left hends => onset_iterate (onset_peek?.bind fun token? _ => ?_)
  split
  · exact onset_pure ⟨left, rfl, hends⟩
  · exact onset_advance.andThen

theorem onset_assignment {operand : Parser Expr}
    (hoperand : Onset item operand fun _ => item.token?.any endsOperand) :
    Onset item (assignment nested operand) fun _ => item.token?.any endsOperand := by
  refine hoperand.bind fun target hends => onset_peek?.bind fun token? _ => ?_
  split
  · exact onset_pure hends
  · exact onset_advance.andThen

-- An expression takes nothing only in front of an item that ends it.
theorem onset_climb (levels : List Level) :
    Onset item (climb nested levels) fun _ => item.token?.any endsOperand := by
  induction levels with
  | nil => exact onset_unary
  | cons level tighter ih =>
      cases level with
      | assignments => exact onset_assignment ih
      | operators table => exact onset_operation ih

end Expressions

section Statements

variable {item : Item} {nested : Nested} {parts : Parts}

theorem onset_terminator (hitem : item.token? ≠ some .closeTag) :
    Onset item terminator fun _ => False := by
  refine (onset_isNext .closeTag).bind ?_
  rintro _ rfl
  rw [beq_eq_false_iff_ne.mpr hitem]
  exact (onset_take .semicolon).andThen

theorem onset_modifiers (modifier? : Token → Option Modifier) :
    Onset item (modifiers modifier?) fun _ => True := by
  refine onset_iterate (onset_peek?.bind fun token? _ => ?_)
  split
  · exact onset_advance.andThen
  · exact onset_pure ⟨_, rfl, trivial⟩

theorem onset_classDeclaration (doc : Option DocComment) (start : Option Location) :
    Onset item (classDeclaration parts doc start) fun _ => False :=
  (onset_modifiers _).bind fun _ _ => (onset_take .classKeyword).andThen.andThen

-- An expression that is missing is followed by a terminator, which takes an item.
theorem onset_statement (hexpression : Onset item parts.expression fun _ => True) :
    Onset item (statement parts) fun _ => False := by
  refine onset_location?.bind fun start _ => onset_peek?.bind fun token? htoken => ?_
  split
  case h_11 => exact onset_takeDoc.bind fun _ _ => onset_advance.andThen
  case h_12 | h_13 | h_14 =>
    exact onset_takeDoc.bind fun doc _ => (onset_classDeclaration doc start).andThen
  case h_15 hclose _ _ _ _ _ _ _ _ _ _ _ _ =>
    refine Onset.andThen (hexpression.bind fun _ _ => Onset.andThen (onset_terminator ?_))
    exact fun h => hclose (htoken.trans h)
  all_goals exact onset_advance.andThen

theorem onset_statementAt (depth : Nat) :
    Onset item (statementAt (depth + 2)) fun _ => False := by
  refine onset_statement fun rest docs errors => ?_
  have hclimb : Onset item (climb (nestedAt depth) levels) fun _ => item.token?.any endsOperand :=
    onset_climb levels
  rcases hclimb rest docs errors with h | ⟨e, filed, reported, -, h⟩
  · exact .inl h
  · exact .inr ⟨e, filed, reported, trivial, h⟩

end Statements

-- Nothing carries over to a statement from what has been taken before it.
theorem exists_statementAt_eq (item : Item) (rest : List Item) (docs : Docs)
    (errors : List SyntaxError) :
    ∃ outcome, ∀ last, statementAt maxDepth ⟨item :: rest, last, docs, errors⟩ = outcome := by
  rcases onset_statementAt 30 rest docs errors with hsame | ⟨_, _, _, hfalse, _⟩
  · exact hsame
  · exact hfalse.elim

-- The last place changes only when an item is taken.
def Stream.Stays (s t : Stream) : Prop :=
  t.items <:+ s.items ∧ (t.items = s.items → t.last = s.last)

instance : Passage Stream.Stays where
  refl s := ⟨List.suffix_rfl, fun _ => rfl⟩
  trans s t u hst htu := by
    refine ⟨htu.1.trans hst.1, fun hsame => ?_⟩
    have hitems : t.items = s.items := hst.1.eq_of_length_le (hsame ▸ htu.1.length_le)
    exact (htu.2 (hsame.trans hitems.symm)).trans (hst.2 hitems)
  taken item rest last docs errors :=
    ⟨List.suffix_cons item rest, fun h => absurd h.symm (List.cons_ne_self item rest)⟩

instance : Motion Stream.Stays where
  missing _ _ _ _ _ := ⟨List.suffix_rfl, fun _ => rfl⟩

instance : Filing Stream.Stays where
  withdrawn h _ := h

-- One that took nothing would leave the last place as it was, so that what it does would
-- depend on it.
theorem length_after_statementAt {s : Stream} (hitems : s.items ≠ []) :
    ((statementAt maxDepth).after s).items.length < s.items.length := by
  obtain ⟨items, last, docs, errors⟩ := s
  obtain ⟨item, rest, rfl⟩ := List.exists_cons_of_ne_nil hitems
  obtain ⟨outcome, hsame⟩ := exists_statementAt_eq item rest docs errors
  have hstays (last : Location) : Stream.Stays ⟨item :: rest, last, docs, errors⟩
      ((statementAt maxDepth).after ⟨item :: rest, last, docs, errors⟩) :=
    (inferInstance : Moves Stream.Stays (statementAt maxDepth)).keeps _
  have hafter (other : Location) : (statementAt maxDepth).after ⟨item :: rest, last, docs, errors⟩ =
      (statementAt maxDepth).after ⟨item :: rest, other, docs, errors⟩ := by
    simp only [EStateM.after, hsame]
  refine Nat.lt_of_not_le fun hle => ?_
  have hlast (other : Location) :
      ((statementAt maxDepth).after ⟨item :: rest, last, docs, errors⟩).last = other := by
    rw [hafter other] at hle ⊢
    exact (hstays other).2 ((hstays other).1.eq_of_length_le hle)
  have hfirst := hlast ⟨"", 0, 0, 0, 0⟩
  rw [hlast ⟨"", 1, 0, 0, 0⟩] at hfirst
  simp at hfirst

theorem length_of_ok {s t : Stream} {statement : Option Stmt} (hitems : s.items ≠ [])
    (h : statementAt maxDepth s = .ok statement t) : t.items.length < s.items.length := by
  have hlength := length_after_statementAt hitems
  rwa [EStateM.after, h] at hlength

theorem length_of_error {s t : Stream} {error : SyntaxError} (hitems : s.items ≠ [])
    (h : statementAt maxDepth s = .error error t) : t.items.length < s.items.length := by
  have hlength := length_after_statementAt hitems
  rwa [EStateM.after, h] at hlength

theorem resume_eq {s t : Stream} {error : SyntaxError} (hitems : s.items ≠ [])
    (h : statementAt maxDepth s = .error error t) :
    resume s t error = Stream.recover { t with errors := error :: t.errors } := by
  rw [resume, if_neg (Nat.ne_of_lt (length_of_error hitems h))]

theorem length_resume {s t : Stream} {error : SyntaxError} (hitems : s.items ≠ [])
    (h : statementAt maxDepth s = .error error t) :
    (resume s t error).items.length < s.items.length := by
  have hskip : (skipStatement t.items t.last).1 <:+ t.items :=
    moves_skipStatement (R := fun s t => t.items <:+ s.items) t.items t.last t.docs t.errors
  rw [resume_eq hitems h]
  exact Nat.lt_of_le_of_lt hskip.length_le (length_of_error hitems h)

-- The invalid statement is where the failed one was.
theorem program_cons_of_error {rounds : Nat} {item : Item} {rest : List Item} {last : Location}
    {docs : Docs} {errors : List SyntaxError} {t : Stream} {error : SyntaxError}
    (h : statementAt maxDepth ⟨item :: rest, last, docs, errors⟩ = .error error t) :
    program (rounds + 1) ⟨item :: rest, last, docs, errors⟩ =
      (.invalid (item.location.cover t.last) ::
          (program rounds (resume ⟨item :: rest, last, docs, errors⟩ t error)).1,
        (program rounds (resume ⟨item :: rest, last, docs, errors⟩ t error)).2) := by
  have hitems : item :: rest ≠ [] := List.cons_ne_nil item rest
  rw [program]
  simp only [h, if_neg (Nat.ne_of_lt (length_of_error hitems h)), resume_eq hitems h]

theorem program_of_nil {rounds : Nat} {s : Stream} (h : s.items = []) :
    program rounds s = ([], s.errors.reverse) := by
  cases rounds with
  | zero => rfl
  | succ rounds => rw [program, h]

theorem program_last (rounds : Nat) (items : List Item) (last other : Location) (docs : Docs)
    (errors : List SyntaxError) :
    program rounds ⟨items, last, docs, errors⟩ = program rounds ⟨items, other, docs, errors⟩ := by
  cases items with
  | nil => rw [program_of_nil rfl, program_of_nil rfl]
  | cons item rest =>
      obtain ⟨outcome, hsame⟩ := exists_statementAt_eq item rest docs errors
      cases rounds with
      | zero => rfl
      | succ rounds =>
        rw [program, program]
        simp only [hsame, List.length_cons]

-- More rounds than there are items make no difference. By induction on the rounds.
theorem program_rounds {rounds more : Nat} {s : Stream} (hrounds : s.items.length ≤ rounds)
    (hmore : s.items.length ≤ more) : program rounds s = program more s := by
  induction rounds generalizing s more with
  | zero =>
      have hnil : s.items = [] := List.length_eq_zero_iff.mp (Nat.le_zero.mp hrounds)
      rw [program_of_nil hnil, program_of_nil hnil]
  | succ rounds ih =>
      by_cases hitems : s.items = []
      · rw [program_of_nil hitems, program_of_nil hitems]
      · have hpos := List.length_pos_iff.mpr hitems
        obtain ⟨more, rfl⟩ : ∃ n, more = n + 1 := ⟨more - 1, by omega⟩
        cases h : statementAt maxDepth s with
        | ok statement t =>
            have ht := length_of_ok hitems h
            have hrest : program rounds t = program more t := ih (by omega) (by omega)
            rw [program_of_ok hitems h, program_of_ok hitems h, hrest]
        | error error t =>
            have ht := length_resume hitems h
            have hrest : program rounds (resume s t error) = program more (resume s t error) :=
              ih (by omega) (by omega)
            obtain ⟨items, last, docs, errors⟩ := s
            obtain ⟨item, rest, rfl⟩ := List.exists_cons_of_ne_nil hitems
            rw [program_cons_of_error h, program_cons_of_error h, hrest]

end Syntax

open Syntax

-- It does not matter which place comes before the first item.
theorem parse_eq (lexemes : List Lexeme) (last : Location) :
    parse lexemes =
      program (itemsOf lexemes).length ⟨itemsOf lexemes, last, fileDocs none [] lexemes, []⟩ :=
  program_last _ _ _ last _ []

end PhpLint
