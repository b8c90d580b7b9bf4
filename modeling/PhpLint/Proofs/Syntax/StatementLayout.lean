import PhpLint.Proofs.Syntax.Layout
import PhpLint.Proofs.Syntax.Progress

namespace PhpLint.Syntax

open EStateM (bind_eq_ok_iff bind_of_ok)
open PhpLint.Syntax.Parser

variable {parts : Parts}

-- Where there is no statement, an item that stands alone is taken.
def LaysStatement (s : Stream) : Option Stmt → Stream → Prop
  | some statement, t => Lays s [.stmt statement] t
  | none, t => ∃ item rest last docs errors,
    s = ⟨item :: rest, last, docs, errors⟩ ∧ t = ⟨rest, item.location, docs, errors⟩

theorem LaysStatement.lays {s t : Stream} {statement : Option Stmt}
    (h : LaysStatement s statement t) : Lays s (statement.toList.map .stmt) t := by
  cases statement with
  | some statement => exact h
  | none =>
      obtain ⟨item, rest, last, docs, errors, rfl, rfl⟩ := h
      exact .taken item rest last docs errors

structure Parts.Builds (parts : Parts) : Prop where
  expression : Parser.Builds parts.expression fun e => [.expr e]
  statement : ∀ s, Parser.Gives s parts.statement (LaysStatement s)

theorem builds_condition (hp : parts.Builds) : Builds (condition parts) fun e => [.expr e] := by
  refine Extends.builds fun s => Extends.after fun _ => hp.expression.andThen fun e => ?_
  exact Extends.after fun _ => extends_pure fun _ ht => ht

theorem builds_controlled (hp : parts.Builds) : Builds (controlled parts) fun s => [.stmt s] := by
  intro s result t h
  obtain ⟨statement, u, hstatement, h⟩ := bind_eq_ok_iff.mp h
  have hu := hp.statement s hstatement
  cases statement with
  | some statement =>
      cases h
      exact hu
  | none =>
      cases h
      obtain ⟨item, rest, last, docs, errors, rfl, rfl⟩ := hu
      exact .leaf rfl rfl rfl rfl

-- After a clause: those that follow with the final alternative. Each starts with an item.
inductive Chain : Stream → List Clause → Option Stmt → Stream → Prop where
  | nil {s t : Stream} {final : Option Stmt} :
      Lays s (final.toList.map .stmt) t → Chain s [] final t
  | cons {s u t : Stream} {item : Item} {rest : List Item} {last : Location} {docs : Docs}
      {errors : List SyntaxError} {clause : Clause} {clauses : List Clause}
      {final : Option Stmt} :
      Lays s [] ⟨item :: rest, last, docs, errors⟩ → clause.start = some item.location →
      Lays ⟨rest, item.location, docs, errors⟩ [.expr clause.condition, .stmt clause.body] u →
      Chain u clauses final t → Chain s (clause :: clauses) final t

theorem Clause.inner_toStmt (clause : Clause) (last : Location) (next : Option Stmt) :
    (clause.toStmt last next).inner =
      [.expr clause.condition, .stmt clause.body] ++ next.toList.map .stmt := by
  cases next <;> rfl

theorem Clause.location_toStmt (clause : Clause) (last : Location) (next : Option Stmt) :
    (clause.toStmt last next).location = clause.start.elim last (·.cover last) := by
  cases next <;> rfl

theorem Clause.isPlain_toStmt (clause : Clause) (last : Location) (next : Option Stmt) :
    (Region.stmt (clause.toStmt last next)).isPlain := by
  cases next <;> rfl

theorem Clause.isDeclaration_toStmt (clause : Clause) (last : Location) (next : Option Stmt) :
    (Region.stmt (clause.toStmt last next)).isDeclaration = false := by
  cases next <;> rfl

-- The alternatives are nested once all of them are read, the last one first.
theorem Chain.lays {s t : Stream} {clauses : List Clause} {final : Option Stmt}
    (h : Chain s clauses final t) :
    Lays s ((clauses.foldr (fun (clause : Clause) next => some (clause.toStmt t.last next))
      final).toList.map .stmt) t := by
  induction h with
  | nil h => exact h
  | @cons s u t item rest last docs errors clause clauses final hs hstart hclause _ ih =>
      refine hs.trans (.opened (hclause.trans ih) (clause.inner_toStmt _ _)
        (clause.isPlain_toStmt _ _) ?_ (clause.isDeclaration_toStmt _ _))
      rw [Region.location, Clause.location_toStmt, hstart]
      rfl

theorem lays_clause (hp : parts.Builds) {start : Option Location} {s t : Stream} {c : Clause}
    (h : clause parts start s = .ok c t) :
    c.start = start ∧ Lays s [.expr c.condition, .stmt c.body] t := by
  obtain ⟨condition, u, hcondition, h⟩ := bind_eq_ok_iff.mp h
  obtain ⟨body, _, hbody, ⟨⟩⟩ := bind_eq_ok_iff.mp h
  exact ⟨rfl, (builds_condition hp hcondition).trans (builds_controlled hp hbody)⟩

-- The first item of a clause is the word that was skipped.
theorem Chain.ofSkip (hp : parts.Builds) {token : Token} {s₀ s u v t : Stream} {c : Clause}
    {clauses : List Clause} {final : Option Stmt} (hs : Lays s₀ [] s)
    (hskip : skip token s = .ok true u)
    (hclause : clause parts (s.items.head?.map (·.location)) u = .ok c v)
    (hrest : Chain v clauses final t) : Chain s₀ (c :: clauses) final t := by
  obtain ⟨item, rest, hitem, -, rfl⟩ := exists_of_skip_true hskip
  obtain ⟨hstart, hlays⟩ := lays_clause hp hclause
  rw [hitem] at hs hstart
  exact .cons hs hstart hlays hrest

-- The clauses so far are kept with the latest first.
theorem gives_alternatives (hp : parts.Builds) (s : Stream) :
    Gives s (alternatives parts) fun read t => Chain s read.1 read.2 t := by
  intro read t h
  have hchain : ∃ more, read.1 = [].reverse ++ more ∧ Chain s more read.2 t := by
    refine gives_iterate (R := fun clauses s read t =>
      ∃ more, read.1 = clauses.reverse ++ more ∧ Chain s more read.2 t)
      (fun clauses s result u h => ?_) [] s h
    obtain ⟨_, _, ⟨⟩, h⟩ := bind_eq_ok_iff.mp h
    obtain ⟨isElseif, v, hskip, h⟩ := bind_eq_ok_iff.mp h
    cases isElseif with
    | true =>
        obtain ⟨c, _, hclause, ⟨⟩⟩ := bind_eq_ok_iff.mp h
        rintro b t ⟨more, hread, hmore⟩
        exact ⟨c :: more, by simpa using hread, .ofSkip hp (.refl s) hskip hclause hmore⟩
    | false =>
        cases eq_of_skip_false hskip
        obtain ⟨isElse, v, helse, h⟩ := bind_eq_ok_iff.mp h
        cases isElse with
        | true =>
            have hv := builds_quiet helse
            obtain ⟨_, _, ⟨⟩, h⟩ := bind_eq_ok_iff.mp h
            obtain ⟨isIf, w, hskip, h⟩ := bind_eq_ok_iff.mp h
            cases isIf with
            | true =>
                obtain ⟨c, _, hclause, ⟨⟩⟩ := bind_eq_ok_iff.mp h
                rintro b t ⟨more, hread, hmore⟩
                exact ⟨c :: more, by simpa using hread, .ofSkip hp hv hskip hclause hmore⟩
            | false =>
                cases eq_of_skip_false hskip
                obtain ⟨final, _, hfinal, ⟨⟩⟩ := bind_eq_ok_iff.mp h
                exact ⟨[], by simp, .nil (hv.trans (builds_controlled hp hfinal))⟩
        | false =>
            cases h
            cases eq_of_skip_false helse
            exact ⟨[], by simp, .nil (.refl s)⟩
  obtain ⟨more, hread, hmore⟩ := hchain
  rw [hread]
  exact hmore

section FirstItem

-- The item that the statement starts with has been taken.
variable {item : Item} {rest : List Item} {last : Location} {docs : Docs}
  {errors : List SyntaxError}

theorem gives_echo (hp : parts.Builds) :
    Gives ⟨rest, item.location, docs, errors⟩ (echo parts (some item.location)) fun s t =>
      Lays ⟨item :: rest, last, docs, errors⟩ [.stmt s] t := by
  have hmore (s₀ : Stream) (first : Expr) :
      Extends s₀ [.expr first] (iterate (anotherExpression parts) [first]) fun es t =>
        Lays s₀ (es.map .expr) t := by
    refine extends_iterate (fun es => es.reverse.map .expr) rfl fun es => ?_
    refine Extends.after fun isMore => ?_
    cases isMore with
    | true => exact hp.expression.andThen fun e => extends_pure fun _ ht => by simpa using ht
    | false => exact extends_pure fun _ ht => ht
  refine Extends.gives (hp.expression.andThen fun first => (hmore _ first).bind fun es => ?_)
  refine Extends.after fun _ => extends_span fun t ht => ?_
  exact .opened ht rfl rfl rfl rfl

theorem gives_returned (hp : parts.Builds) :
    Gives ⟨rest, item.location, docs, errors⟩ (returned parts (some item.location)) fun s t =>
      Lays ⟨item :: rest, last, docs, errors⟩ [.stmt s] t := by
  refine Extends.gives (Extends.after fun isSemicolon => Extends.after fun isCloseTag => ?_)
  cases isSemicolon || isCloseTag with
  | true =>
      refine Extends.ofNone (Extends.after fun _ => ?_)
      exact extends_span fun t ht => .opened ht rfl rfl rfl rfl
  | false =>
      refine hp.expression.ofSome fun value => Extends.after fun _ => ?_
      exact extends_span fun t ht => .opened ht rfl rfl rfl rfl

theorem gives_conditional (hp : parts.Builds) :
    Gives ⟨rest, item.location, docs, errors⟩ (conditional parts (some item.location)) fun s t =>
      Lays ⟨item :: rest, last, docs, errors⟩ [.stmt s] t := by
  intro s t h
  obtain ⟨first, u, hfirst, h⟩ := bind_eq_ok_iff.mp h
  obtain ⟨⟨clauses, final⟩, v, hread, h⟩ := bind_eq_ok_iff.mp h
  obtain ⟨_, _, ⟨⟩, ⟨⟩⟩ := bind_eq_ok_iff.mp h
  obtain ⟨hstart, hlays⟩ := lays_clause hp hfirst
  have hchain : Chain ⟨item :: rest, last, docs, errors⟩ (first :: clauses) final t :=
    .cons (.refl _) hstart hlays (gives_alternatives hp u hread)
  exact hchain.lays

theorem gives_whileLoop (hp : parts.Builds) :
    Gives ⟨rest, item.location, docs, errors⟩ (whileLoop parts (some item.location)) fun s t =>
      Lays ⟨item :: rest, last, docs, errors⟩ [.stmt s] t := by
  refine Extends.gives ((builds_condition hp).andThen fun condition => ?_)
  refine (builds_controlled hp).andThen fun body => ?_
  exact extends_span fun t ht => .opened ht rfl rfl rfl rfl

-- A block is a statement or the body of a declaration.
theorem gives_block (hp : parts.Builds) (region : Block → Region)
    (hinner : ∀ b, (region b).inner = b.statements.map .stmt) (hplain : ∀ b, (region b).isPlain)
    (hlocation : ∀ b, (region b).location = b.location)
    (hdeclaration : ∀ b, (region b).isDeclaration = false) :
    Gives ⟨rest, item.location, docs, errors⟩ (block parts item.location) fun b t =>
      Lays ⟨item :: rest, last, docs, errors⟩ [region b] t := by
  refine Extends.gives (Extends.bind (w := fun ss => ss.map .stmt) ?_ fun ss =>
    extends_last fun t ht => ?_)
  · refine extends_iterate (fun ss => ss.reverse.map .stmt) rfl fun ss => ?_
    refine Extends.after fun isClosed => ?_
    cases isClosed with
    | true => exact extends_pure fun _ ht => ht
    | false =>
        refine Extends.ofGet fun s => ?_
        split
        · exact Extends.after fun _ => extends_throw
        · have hstatement : Builds parts.statement fun s => s.toList.map .stmt :=
            fun s _ _ h => (hp.statement s h).lays
          refine hstatement.andThen fun statement => ?_
          cases statement <;> exact extends_pure fun _ ht => by simpa using ht
  · exact .opened ht (hinner _) (hplain _) (hlocation _) (hdeclaration _)

theorem gives_constantDeclaration (hp : parts.Builds) :
    Gives ⟨rest, item.location, docs, errors⟩ (constantDeclaration parts (some item.location))
      fun s t => Lays ⟨item :: rest, last, docs, errors⟩ [.stmt s] t := by
  refine Extends.gives (builds_identifier.andThen fun name => Extends.after fun _ => ?_)
  refine hp.expression.andThen fun value => Extends.after fun _ => ?_
  exact extends_span fun t ht => .opened ht rfl rfl rfl rfl

end FirstItem

theorem builds_body (hp : parts.Builds) (expected : Expectation) :
    Builds (body parts expected) fun b => [.body b] := by
  intro s b t h
  obtain ⟨_, u, hbrace, h⟩ := bind_eq_ok_iff.mp h
  obtain ⟨_, _, ⟨⟩, h⟩ := bind_eq_ok_iff.mp h
  obtain ⟨item, rest, hs, -, rfl⟩ := exists_of_expect hbrace
  rw [hs]
  exact gives_block hp .body (fun _ => rfl) (fun _ => rfl) (fun _ => rfl) (fun _ => rfl) h

-- Types and marks may stand in front of the variable.
theorem builds_parameter (hp : parts.Builds) :
    Builds (parameter parts) fun p => [.parameter p] := by
  intro s p t h
  obtain ⟨start, _, hstart, h⟩ := bind_eq_ok_iff.mp h
  obtain ⟨_, u, htypes, h⟩ := bind_eq_ok_iff.mp h
  obtain ⟨_, v, hmarks, h⟩ := bind_eq_ok_iff.mp h
  obtain ⟨found, w, hfound, h⟩ := bind_eq_ok_iff.mp h
  cases hstart
  have hv := (builds_quiet htypes).trans (builds_quiet hmarks)
  have hw := hv.trans (builds_quiet hfound)
  obtain ⟨_, _, hitem, -, -, rfl⟩ := exists_of_take hfound
  rw [hitem] at hv
  obtain ⟨item, rest, last, docs, errors, rfl, hrest⟩ := hv.exists_front
  split at h
  · refine Extends.lays .parameter (Extends.after fun hasDefault => ?_) (.refl _) h
    cases hasDefault with
    | true =>
        refine hp.expression.ofSome fun value => extends_span fun t ht => ?_
        exact .front (hw.trans ht) (ht.suffix.trans hrest) rfl rfl (by simp) rfl rfl
    | false =>
        refine Extends.ofNone (extends_span fun t ht => ?_)
        exact .front (hw.trans ht) (ht.suffix.trans hrest) rfl rfl (by simp) rfl rfl
  · cases h

theorem builds_signature (hp : parts.Builds) (doc : Option DocComment) (expected : Expectation) :
    Builds (signature parts doc expected) Signature.inner := by
  have hparameters : Builds (parameters parts) fun ps => ps.map .parameter := by
    refine Extends.builds fun s => Extends.after fun _ => ?_
    refine (builds_separated (builds_parameter hp)).andThen fun ps => Extends.after fun _ => ?_
    exact extends_pure fun t ht => by rwa [List.map_eq_flatMap]
  refine Extends.builds fun s => Extends.after fun _ => builds_identifier.andThen fun name => ?_
  refine hparameters.andThen fun ps => Extends.after fun _ => ?_
  exact extends_pure fun t ht => ht

theorem doc_of_signature {doc : Option DocComment} {expected : Expectation} {s t : Stream}
    {declared : Signature} (h : signature parts doc expected s = .ok declared t) :
    declared.doc = doc := by
  obtain ⟨_, _, _, h⟩ := bind_eq_ok_iff.mp h
  obtain ⟨_, _, _, h⟩ := bind_eq_ok_iff.mp h
  obtain ⟨_, _, _, h⟩ := bind_eq_ok_iff.mp h
  obtain ⟨_, _, _, ⟨⟩⟩ := bind_eq_ok_iff.mp h
  rfl

theorem gives_functionDeclaration (hp : parts.Builds) {item : Item} {rest : List Item}
    {last : Location} {docs : Docs} {errors : List SyntaxError}
    (hitem : item.token? = some (.keyword .Function)) :
    Gives ⟨rest, item.location, docs.remove item.location.start, errors⟩
      (functionDeclaration parts (docs.get? item.location.start) (some item.location))
      fun s t => Lays ⟨item :: rest, last, docs, errors⟩ [.stmt s] t := by
  intro s t h
  obtain ⟨declared, u, hdeclared, h⟩ := bind_eq_ok_iff.mp h
  have hu := builds_signature hp _ _ hdeclared
  refine Extends.lays .stmt ((builds_body hp _).andThen fun body => ?_) hu h
  exact extends_span fun t ht =>
    .declared ht rfl rfl rfl rfl ⟨doc_of_signature hdeclared, _, hitem, rfl⟩

-- How modifiers are read between two streams, each of them from the item in front.
inductive ReadsModifiers (modifier? : Token → Option Modifier) :
    Stream → List Modifier → Stream → Prop where
  | done (s : Stream) : ReadsModifiers modifier? s [] s
  | read {item : Item} {rest : List Item} {last : Location} {docs : Docs}
      {errors : List SyntaxError} {token : Token} {modifier : Modifier} {more : List Modifier}
      {t : Stream} :
      item.token? = some token → modifier? token = some modifier →
      ReadsModifiers modifier? ⟨rest, item.location, docs, errors⟩ more t →
      ReadsModifiers modifier? ⟨item :: rest, last, docs, errors⟩ (modifier :: more) t

section Modifiers

variable {modifier? : Token → Option Modifier} {keyword : Keyword} {s t u : Stream}
variable {read : List Modifier}

theorem ReadsModifiers.lays (h : ReadsModifiers modifier? s read t) : Lays s [] t := by
  induction h with
  | done s => exact .refl s
  | read _ _ _ ih => exact (Lays.taken ..).trans ih

theorem readsModifiers (h : modifiers modifier? s = .ok read t) :
    ReadsModifiers modifier? s read t := by
  -- The modifiers so far are kept with the latest first.
  have hrounds := gives_iterate (R := fun (sofar : List Modifier) s all t => ∃ read,
    all = sofar.reverse ++ read ∧ ReadsModifiers modifier? s read t)
    (fun sofar s result u h => ?_) [] s h
  · obtain ⟨_, rfl, hread⟩ := hrounds
    exact hread
  · obtain ⟨items, last, docs, errors⟩ := s
    obtain ⟨_, _, ⟨⟩, h⟩ := bind_eq_ok_iff.mp h
    cases hfront : (items.head?.bind Lexeme.token?).bind modifier? with
    | none =>
        rw [hfront] at h
        cases h
        exact ⟨[], by simp, .done _⟩
    | some modifier =>
        rw [hfront] at h
        obtain ⟨token, htoken, hmodifier⟩ := Option.bind_eq_some_iff.mp hfront
        obtain ⟨item, hitem, htoken⟩ := Option.bind_eq_some_iff.mp htoken
        obtain ⟨rest, rfl⟩ := List.head?_eq_some_iff.mp hitem
        cases h
        rintro all t ⟨read, rfl, hread⟩
        exact ⟨modifier :: read, by simp, .read htoken hmodifier hread⟩

-- Up to the keyword behind modifiers.
theorem ReadsModifiers.exists_first {item : Item} {rest : List Item} {last : Location} {docs : Docs}
    {errors : List SyntaxError}
    (h : ReadsModifiers modifier? s read ⟨item :: rest, last, docs, errors⟩)
    (hitem : item.token? = some (.keyword keyword)) :
    ∃ first more last' docs' errors' token, s = ⟨first :: more, last', docs', errors'⟩ ∧
      first.token? = some token ∧ isFirstWord modifier? keyword read token ∧
      Lays ⟨more, first.location, docs', errors'⟩ [] ⟨rest, item.location, docs, errors⟩ := by
  cases h with
  | done => exact ⟨item, rest, last, docs, errors, _, rfl, hitem, by simp [isFirstWord], .refl _⟩
  | read htoken hmodifier hmore =>
      exact ⟨_, _, _, _, _, _, rfl, htoken, by simp [isFirstWord, hmodifier],
        hmore.lays.trans (.taken ..)⟩

end Modifiers

theorem lays_method (hp : parts.Builds) {item : Item} {rest : List Item} {last : Location}
    {docs : Docs} {errors : List SyntaxError} {s t : Stream} {modifiers : List Modifier}
    {m : Method} {token : Token} (hitem : item.token? = some token)
    (htoken : isFirstWord methodModifier? .Function modifiers token)
    (hs : Lays ⟨rest, item.location, docs.remove item.location.start, errors⟩ [] s)
    (h : method parts (docs.get? item.location.start) modifiers (some item.location) s = .ok m t) :
    Lays ⟨item :: rest, last, docs, errors⟩ [.method m] t := by
  obtain ⟨declared, u, hdeclared, h⟩ := bind_eq_ok_iff.mp h
  have hu := builds_signature hp _ _ hdeclared
  have hopened (body : Option Block) {t : Stream}
      (ht : Lays s (declared.inner ++ body.toList.map .body) t) :
      Lays ⟨item :: rest, last, docs, errors⟩
        [.method ⟨declared, modifiers, body, item.location.cover t.last⟩] t := by
    exact .declared (hs.trans ht) rfl rfl rfl rfl
      ⟨doc_of_signature hdeclared, token, hitem, htoken⟩
  refine Extends.lays .method (Extends.after fun isAbstract => ?_) hu h
  cases isAbstract with
  | true => exact Extends.ofNone (extends_span fun t ht => hopened none (by simpa using ht))
  | false => exact (builds_body hp _).ofSome fun body => extends_span fun t ht => hopened body ht

theorem lays_fieldOrNone {s t : Stream} {m : Option Method} (h : fieldOrNone s = .ok m t) :
    m = none ∧ Lays s [] t ∧ t.items.length < s.items.length := by
  obtain ⟨token?, _, ⟨⟩, h⟩ := bind_eq_ok_iff.mp h
  split at h
  case isTrue =>
    obtain ⟨_, _, hskip, ⟨⟩⟩ := bind_eq_ok_iff.mp h
    exact ⟨rfl, builds_quiet hskip, length_skipField hskip⟩
  case isFalse =>
    obtain ⟨_, _, _, ⟨⟩⟩ := bind_eq_ok_iff.mp h

-- A comment on a field is lost.
theorem builds_classMember (hp : parts.Builds) :
    Builds (classMember parts) fun m => m.toList.map .method := by
  rintro ⟨items, last, docs, errors⟩ m t h
  cases items with
  | nil => cases (classMember_nil last docs errors).symm.trans h
  | cons item rest =>
      obtain ⟨_, _, ⟨⟩, h⟩ := bind_eq_ok_iff.mp h
      obtain ⟨_, _, ⟨⟩, h⟩ := bind_eq_ok_iff.mp h
      obtain ⟨modifiers, u, hmodifiers, h⟩ := bind_eq_ok_iff.mp h
      obtain ⟨isMethod, v, hskip, h⟩ := bind_eq_ok_iff.mp h
      cases isMethod with
      | true =>
          obtain ⟨m, _, hmethod, ⟨⟩⟩ := bind_eq_ok_iff.mp h
          obtain ⟨word, after, hword, hfunction, rfl⟩ := exists_of_skip_true hskip
          have hread := readsModifiers hmodifiers
          rw [hword] at hread
          obtain ⟨_, _, _, _, _, token, ⟨⟩, hitem, htoken, hlays⟩ := hread.exists_first hfunction
          exact lays_method hp hitem htoken hlays hmethod
      | false =>
          obtain ⟨rfl, hfield, hlength⟩ := lays_fieldOrNone h
          have hv := (builds_quiet hmodifiers).trans (builds_quiet hskip)
          refine .withdrawn (hv.trans hfield) ?_
          refine (List.suffix_cons_iff.mp (hv.trans hfield).suffix).resolve_left fun hsame => ?_
          have hle : v.items.length ≤ t.items.length := hsame ▸ hv.suffix.length_le
          omega

theorem builds_classMethods (hp : parts.Builds) :
    Builds (classMethods parts) fun ms => ms.map .method := by
  refine Extends.builds fun s => extends_iterate (fun ms => ms.reverse.map .method) rfl fun ms => ?_
  refine Extends.after fun isClosed => ?_
  cases isClosed with
  | true => exact extends_pure fun _ ht => ht
  | false =>
      refine (builds_classMember hp).andThen fun m => ?_
      cases m <;> exact extends_pure fun _ ht => by simpa using ht

section Front

variable {item : Item} {rest : List Item} {last : Location} {docs : Docs}
  {errors : List SyntaxError}

theorem builds_parentClass? : Builds parentClass? fun parent => parent.toList.map .name := by
  refine Extends.builds fun s => Extends.after fun isDerived => ?_
  cases isDerived with
  | true => exact builds_identifier.andThen fun name => extends_pure fun _ ht => ht
  | false => exact extends_pure fun _ ht => ht

theorem gives_classDeclaration (hp : parts.Builds) :
    Gives ⟨item :: rest, last, docs.remove item.location.start, errors⟩
      (classDeclaration parts (docs.get? item.location.start) (some item.location))
      fun s t => Lays ⟨item :: rest, last, docs, errors⟩ [.stmt s] t := by
  intro s t h
  obtain ⟨modifiers, u, hmodifiers, h⟩ := bind_eq_ok_iff.mp h
  obtain ⟨_, v, hclass, h⟩ := bind_eq_ok_iff.mp h
  obtain ⟨_, _, hword, hkeyword, rfl⟩ := exists_of_expect hclass
  have hread := readsModifiers hmodifiers
  rw [hword] at hread
  obtain ⟨_, _, _, _, _, token, ⟨⟩, hitem, htoken, hlays⟩ := hread.exists_first hkeyword
  refine Extends.lays .stmt (builds_identifier.andThen fun name => ?_) (.refl _) h
  refine builds_parentClass?.andThen fun parent => Extends.after fun _ => Extends.after fun _ => ?_
  refine (builds_classMethods hp).andThen fun methods => extends_span fun t ht => ?_
  exact .declared (hlays.trans ht) rfl rfl rfl rfl ⟨rfl, token, hitem, htoken⟩

theorem items_of_terminator {t : Stream} {u : Unit} (hitem : item.token? ≠ some .closeTag)
    (h : terminator ⟨item :: rest, last, docs, errors⟩ = .ok u t) : t.items = rest := by
  rw [terminator, bind_of_ok (isNext_of_ne hitem rest last docs errors)] at h
  obtain ⟨_, _, ⟨⟩, -, rfl⟩ := exists_of_expect h
  rfl

-- Where the expression is missing the terminator takes the item in front.
theorem gives_expressionStatement (hp : parts.Builds) (hitem : item.token? ≠ some .closeTag) :
    Gives ⟨item :: rest, last, docs, errors⟩
      (expressionStatement parts (some item.location))
      fun s t => Lays ⟨item :: rest, last, docs, errors⟩ [.stmt s] t := by
  intro s t h
  obtain ⟨e, u, he, h⟩ := bind_eq_ok_iff.mp h
  obtain ⟨_, _, hterminator, ⟨⟩⟩ := bind_eq_ok_iff.mp h
  have hu := hp.expression he
  have hv : Lays u [] t := builds_quiet hterminator
  refine .front (hu.trans hv) ?_ rfl rfl (by simp) rfl rfl
  rcases List.suffix_cons_iff.mp hu.suffix with hsame | hsuffix
  · obtain ⟨items, place, docs, reported⟩ := u
    cases hsame
    exact (items_of_terminator hitem hterminator) ▸ List.suffix_rfl
  · exact hv.suffix.trans hsuffix

end Front

section Dispatch

variable {item : Item} {rest : List Item} {last : Location} {docs : Docs}
  {errors : List SyntaxError}

theorem gives_front {α : Type} {Q : α → Stream → Prop}
    {f : Option Location → Option Token → Parser α}
    (hf : Gives ⟨item :: rest, last, docs, errors⟩ (f (some item.location) item.token?) Q) :
    Gives ⟨item :: rest, last, docs, errors⟩ (do f (← location?) (← peek?)) Q :=
  hf

theorem gives_some {s₀ s : Stream} {p : Parser Stmt}
    (hp : Gives s p fun result t => Lays s₀ [.stmt result] t) :
    Gives s (do return some (← p)) (LaysStatement s₀) := by
  intro result t h
  obtain ⟨statement, _, hstatement, ⟨⟩⟩ := bind_eq_ok_iff.mp h
  exact hp hstatement

-- Most statements are known from a word, which is taken.
theorem gives_word {p : Parser Stmt}
    (hp : Gives ⟨rest, item.location, docs, errors⟩ p fun result t =>
      Lays ⟨item :: rest, last, docs, errors⟩ [.stmt result] t) :
    Gives ⟨item :: rest, last, docs, errors⟩ (do advance; return some (← p))
      (LaysStatement ⟨item :: rest, last, docs, errors⟩) :=
  gives_some hp

theorem gives_alone : Gives ⟨item :: rest, last, docs, errors⟩ (do advance; return none)
    (LaysStatement ⟨item :: rest, last, docs, errors⟩) := by
  rintro _ _ ⟨⟩
  exact ⟨item, rest, last, docs, errors, rfl, rfl⟩

end Dispatch

theorem gives_statement (hp : parts.Builds) (s : Stream) :
    Gives s (statement parts) (LaysStatement s) := by
  obtain ⟨items, last, docs, errors⟩ := s
  cases items with
  | nil =>
      -- Without an item there is no expression.
      have hend : Gives ⟨[], last, docs, errors⟩ (do return some (← expressionStatement parts none))
          (LaysStatement ⟨[], last, docs, errors⟩) := by
        refine gives_some fun result t h => ?_
        obtain ⟨e, u, he, -⟩ := bind_eq_ok_iff.mp h
        exact absurd rfl ((hp.expression he).items_ne_nil (List.cons_ne_nil _ _))
      exact hend
  | cons item rest =>
      refine gives_front ?_
      generalize htoken : item.token? = token?
      split
      · exact gives_alone
      · exact gives_alone
      · exact gives_alone
      · rintro _ _ ⟨⟩
        exact .leaf rfl rfl rfl rfl
      · exact gives_word (gives_echo hp)
      · exact gives_word (gives_returned hp)
      · exact gives_word (gives_conditional hp)
      · exact gives_word (gives_whileLoop hp)
      · intro result t h
        obtain ⟨_, _, ⟨⟩, h⟩ := bind_eq_ok_iff.mp h
        obtain ⟨_, _, ⟨⟩, h⟩ := bind_eq_ok_iff.mp h
        obtain ⟨b, _, hblock, ⟨⟩⟩ := bind_eq_ok_iff.mp h
        exact gives_block hp (fun b => .stmt (.block b)) (fun _ => rfl) (fun _ => rfl)
          (fun b => by cases b; rfl) (fun _ => rfl) hblock
      · exact gives_word (gives_constantDeclaration hp)
      · exact gives_some (gives_functionDeclaration hp htoken)
      · exact gives_some (gives_classDeclaration hp)
      · exact gives_some (gives_classDeclaration hp)
      · exact gives_some (gives_classDeclaration hp)
      · exact gives_some (gives_expressionStatement hp (by simp_all))

theorem gives_statementAt (depth : Nat) (s : Stream) :
    Gives s (statementAt depth) (LaysStatement s) := by
  induction depth generalizing s with
  | zero => rintro _ _ ⟨⟩
  | succ depth ih => exact gives_statement ⟨(builds_nestedAt depth).expression, ih⟩ s

end PhpLint.Syntax
