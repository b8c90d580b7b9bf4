import PhpLint.Proofs.Step
import PhpLint.Proofs.Syntax.Rendering

namespace PhpLint.Syntax

open EStateM (bind_of_ok)
open PhpLint.Syntax.Parser

variable {α β σ : Type} {F G : Token → Prop} {tokens first second : List Token} {token : Token}

def Spells (items : List Item) (tokens : List Token) : Prop :=
  items.map Lexeme.content = tokens.map Except.ok

theorem spells_append_iff {items : List Item} :
    Spells items (first ++ second) ↔
      ∃ front back, items = front ++ back ∧ Spells front first ∧ Spells back second := by
  simp only [Spells, List.map_append]
  rw [List.map_eq_append_iff]

theorem spells_cons_iff {items : List Item} :
    Spells items (token :: tokens) ↔
      ∃ item rest, items = item :: rest ∧ item.content = .ok token ∧ Spells rest tokens := by
  simp only [Spells, List.map_cons]
  rw [List.map_eq_cons_iff]

-- The items go on with a token for which the condition holds.
def Ahead (F : Token → Prop) (items : List Item) : Prop :=
  ∃ item rest token, items = item :: rest ∧ item.content = .ok token ∧ F token

def TooDeep (result : EStateM.Result SyntaxError Stream α) : Prop :=
  ∃ location t, result = .error (.tooDeep location) t

-- The parser takes exactly the tokens in front of what may follow, and reports nothing,
-- unless something is nested too deep.
def Reads (F : Token → Prop) (p : Parser α) (tokens : List Token) (P : α → Prop) : Prop :=
  ∀ s items rest, Spells items tokens → Ahead F rest → s.items = items ++ rest →
    TooDeep (p s) ∨ ∃ a t, p s = .ok a t ∧ P a ∧ t.items = rest ∧ t.errors = s.errors

-- The tokens, or what may follow them where there are none, start with such a token.
def Starts (F : Token → Prop) (tokens : List Token) (G : Token → Prop) : Prop :=
  match tokens with
  | [] => ∀ token, G token → F token
  | token :: _ => F token

theorem starts_true : Starts (fun _ => True) tokens G := by
  cases tokens with
  | nil => exact fun _ _ => trivial
  | cons => exact trivial

-- The tokens start with such a token.
def Leads (F : Token → Prop) (tokens : List Token) : Prop :=
  ∃ token rest, tokens = token :: rest ∧ F token

theorem Leads.starts (h : Leads F tokens) : Starts F tokens G := by
  obtain ⟨token, rest, rfl, htoken⟩ := h
  exact htoken

theorem Leads.append (h : Leads F first) : Leads F (first ++ second) := by
  obtain ⟨token, rest, rfl, htoken⟩ := h
  exact ⟨token, rest ++ second, rfl, htoken⟩

theorem Leads.imp (h : Leads F tokens) (hG : ∀ token, F token → G token) : Leads G tokens := by
  obtain ⟨token, rest, rfl, htoken⟩ := h
  exact ⟨token, rest, rfl, hG token htoken⟩

theorem Starts.ahead {items rest : List Item} (h : Starts F tokens G) (hitems : Spells items tokens)
    (hrest : Ahead G rest) : Ahead F (items ++ rest) := by
  cases tokens with
  | nil =>
      obtain ⟨item, others, token, rfl, hcontent, htoken⟩ := hrest
      have hnil : items = [] := by simpa [Spells] using hitems
      exact ⟨item, others, token, by simp [hnil], hcontent, h token htoken⟩
  | cons token tokens =>
      obtain ⟨item, others, rfl, hcontent, _⟩ := spells_cons_iff.mp hitems
      exact ⟨item, others ++ rest, token, rfl, hcontent, h⟩

theorem bind_tooDeep {p : Parser α} {f : α → Parser β} {s : Stream} (h : TooDeep (p s)) :
    TooDeep ((p >>= f) s) := by
  obtain ⟨location, t, h⟩ := h
  exact ⟨location, t, by simp [bind, EStateM.bind, h]⟩

theorem Reads.bind {p : Parser α} {f : α → Parser β} {P : α → Prop} {Q : β → Prop}
    (hp : Reads F p first P) (hfollow : Starts F second G)
    (hf : ∀ a, P a → Reads G (f a) second Q) : Reads G (p >>= f) (first ++ second) Q := by
  intro s items rest hitems hrest hs
  obtain ⟨front, back, rfl, hfront, hback⟩ := spells_append_iff.mp hitems
  rcases hp s front (back ++ rest) hfront (hfollow.ahead hback hrest) (by simp [hs]) with
    hdeep | ⟨a, t, hok, hP, ht, herrors⟩
  · exact .inl (bind_tooDeep hdeep)
  · rw [bind_of_ok hok]
    rcases hf a hP t back rest hback hrest ht with hdeep | ⟨b, u, hok', hQ, hu, herrors'⟩
    · exact .inl hdeep
    · exact .inr ⟨b, u, hok', hQ, hu, herrors'.trans herrors⟩

-- What follows the parser reads nothing.
theorem Reads.bind_nil {p : Parser α} {f : α → Parser β} {P : α → Prop} {Q : β → Prop}
    (hp : Reads F p tokens P) (hG : ∀ token, G token → F token)
    (hf : ∀ a, P a → Reads G (f a) [] Q) : Reads G (p >>= f) tokens Q := by
  simpa using hp.bind (show Starts F [] G from hG) hf

theorem reads_pure {P : α → Prop} {a : α} (h : P a) : Reads F (pure a) [] P := by
  intro s items rest hitems _ hs
  have hnil : items = [] := by simpa [Spells] using hitems
  exact .inr ⟨a, s, rfl, h, by simp [hs, hnil], rfl⟩

theorem Reads.mono {p : Parser α} {P Q : α → Prop} (h : Reads F p tokens P)
    (hPQ : ∀ a, P a → Q a) : Reads F p tokens Q := by
  intro s items rest hitems hrest hs
  rcases h s items rest hitems hrest hs with hdeep | ⟨a, t, hok, hP, ht, herrors⟩
  · exact .inl hdeep
  · exact .inr ⟨a, t, hok, hPQ a hP, ht, herrors⟩

theorem Reads.imp {p : Parser α} {P : α → Prop} (h : Reads F p tokens P)
    (hG : ∀ token, G token → F token) : Reads G p tokens P := by
  intro s items rest hitems ⟨item, others, token, hitem, hcontent, htoken⟩ hs
  exact h s items rest hitems ⟨item, others, token, hitem, hcontent, hG token htoken⟩ hs

theorem reads_tooDeep {P : α → Prop} : Reads F tooDeep tokens P :=
  fun s _ _ _ _ _ => .inl ⟨s.last, s, rfl⟩

section Streams

variable {s : Stream} {item : Item} {rest : List Item}

theorem peek?_cons (hs : s.items = item :: rest) (hitem : item.content = .ok token) :
    peek? s = .ok (some token) s := by
  have hpeek : peek? s = .ok (s.items.head?.bind Lexeme.token?) s := rfl
  rw [hpeek, hs, List.head?_cons, Option.bind_some, Lexeme.token?, hitem]
  rfl

theorem advance_cons (hs : s.items = item :: rest) :
    advance s = .ok () ⟨rest, item.location, s.docs, s.errors⟩ := by
  obtain ⟨items, last, docs, errors⟩ := s
  cases hs
  rfl

theorem take_cons {expected : Expectation} (hs : s.items = item :: rest)
    (hitem : item.content = .ok token) :
    take expected s = .ok (token, item.location) ⟨rest, item.location, s.docs, s.errors⟩ := by
  obtain ⟨items, last, docs, errors⟩ := s
  obtain ⟨content, location⟩ := item
  cases hs
  cases hitem
  rfl

end Streams

section Primitives

variable {P : β → Prop}

theorem reads_checkHeight {f : Unit → Parser β} {height : Nat} (h : Reads F (f ()) tokens P) :
    Reads F (checkHeight height >>= f) tokens P := by
  unfold checkHeight
  split
  · intro s _ _ _ _ _
    exact .inl ⟨s.last, s, rfl⟩
  · exact h

theorem reads_last {f : Location → Parser β} (h : ∀ location, Reads F (f location) tokens P) :
    Reads F (last >>= f) tokens P :=
  fun s => h s.last s

theorem reads_peek {f : Option Token → Parser β} (hstart : Starts G tokens F)
    (h : ∀ token, G token → Reads F (f (some token)) tokens P) :
    Reads F (peek? >>= f) tokens P := by
  intro s items rest hitems hrest hs
  obtain ⟨item, others, token, hitem, hcontent, htoken⟩ := hstart.ahead hitems hrest
  rw [bind_of_ok (peek?_cons (hs.trans hitem) hcontent)]
  exact h token htoken s items rest hitems hrest hs

theorem reads_isNext {f : Bool → Parser β} (hstart : Starts (· = token) tokens F)
    (h : Reads F (f true) tokens P) : Reads F (isNext token >>= f) tokens P := by
  simp only [isNext, bind_assoc, pure_bind]
  refine reads_peek hstart ?_
  rintro _ rfl
  simpa using h

theorem reads_isNext_other {f : Bool → Parser β} (hstart : Starts (· ≠ token) tokens F)
    (h : Reads F (f false) tokens P) : Reads F (isNext token >>= f) tokens P := by
  simp only [isNext, bind_assoc, pure_bind]
  refine reads_peek hstart ?_
  intro other hother
  simpa [beq_false_of_ne hother] using h

theorem reads_advance {f : Unit → Parser β} (h : Reads F (f ()) tokens P) :
    Reads F (advance >>= f) (token :: tokens) P := by
  intro s items rest hitems hrest hs
  obtain ⟨item, others, rfl, _, hothers⟩ := spells_cons_iff.mp hitems
  rw [bind_of_ok (advance_cons hs)]
  exact h _ others rest hothers hrest rfl

theorem reads_skip {f : Bool → Parser β} (h : Reads F (f true) tokens P) :
    Reads F (skip token >>= f) (token :: tokens) P := by
  simp only [skip, bind_assoc]
  refine reads_isNext rfl ?_
  simpa using reads_advance h

theorem reads_skip_other {f : Bool → Parser β} (hstart : Starts (· ≠ token) tokens F)
    (h : Reads F (f false) tokens P) : Reads F (skip token >>= f) tokens P := by
  simp only [skip, bind_assoc]
  refine reads_isNext_other hstart ?_
  simpa using h

theorem reads_take {f : Token × Location → Parser β} {expected : Expectation}
    (h : ∀ location, Reads F (f (token, location)) tokens P) :
    Reads F (take expected >>= f) (token :: tokens) P := by
  intro s items rest hitems hrest hs
  obtain ⟨item, others, rfl, hcontent, hothers⟩ := spells_cons_iff.mp hitems
  rw [bind_of_ok (take_cons hs hcontent)]
  exact h item.location _ others rest hothers hrest rfl

theorem reads_expectSymbol {f : Unit → Parser β} {symbol : Symbol} {expected : Expectation}
    (h : Reads F (f ()) tokens P) :
    Reads F (expectSymbol symbol expected >>= f) (.symbol symbol :: tokens) P := by
  simp only [expectSymbol, expect, bind_assoc]
  refine reads_take fun location => ?_
  simpa using h

theorem reads_identifier {f : Identifier → Parser β} {name : String} {expected : Expectation}
    (h : ∀ location, Reads F (f ⟨name, location⟩) tokens P) :
    Reads F (identifier expected >>= f) (.identifier name :: tokens) P := by
  simp only [identifier, bind_assoc]
  exact reads_take fun location => h location

end Primitives

-- The parser has come to a loop of steps, and is left with its state and with rounds for
-- all that follows.
def Loops (F : Token → Prop) (p : Parser α) (step : σ → Parser (σ ⊕ α)) (tokens : List Token)
    (P : σ → Prop) : Prop :=
  ∀ s items rest, Spells items tokens → Ahead F rest → s.items = items ++ rest →
    TooDeep (p s) ∨ ∃ state t fuel, p s = rounds step fuel state t ∧ P state ∧
      t.items = rest ∧ t.errors = s.errors ∧ rest.length < fuel

section Loops

variable {p : Parser α} {step : σ → Parser (σ ⊕ α)} {P Q : σ → Prop} {R : α → Prop}

theorem loops_iterate {start : σ} (h : P start) : Loops F (iterate step start) step [] P := by
  intro s items rest hitems _ hs
  have hnil : items = [] := by simpa [Spells] using hitems
  have hrest : s.items = rest := by simp [hs, hnil]
  exact .inr ⟨start, s, s.items.length + 1, rfl, h, hrest, rfl, by simp [hrest]⟩

theorem Reads.loops {q : Parser β} {start : β → σ} {T : β → Prop} (hq : Reads F q tokens T)
    (hstart : ∀ b, T b → P (start b)) :
    Loops F (q >>= fun b => iterate step (start b)) step tokens P := by
  intro s items rest hitems hrest hs
  rcases hq s items rest hitems hrest hs with hdeep | ⟨b, t, hok, hT, ht, herrors⟩
  · exact .inl (bind_tooDeep hdeep)
  · rw [bind_of_ok hok]
    exact .inr ⟨start b, t, t.items.length + 1, rfl, hstart b hT, ht, herrors, by simp [ht]⟩

theorem rounds_tooDeep {fuel : Nat} {state : σ} {s : Stream} (h : TooDeep (step state s)) :
    TooDeep (rounds step (fuel + 1) state s) := by
  rw [rounds]
  exact bind_tooDeep h

-- The tokens in front are read, and there is a round left for the rest.
theorem Loops.round {s : Stream} {items rest : List Item} (h : Loops F p step first P)
    (hfollow : Starts F second G) (hitems : Spells items (first ++ second)) (hrest : Ahead G rest)
    (hs : s.items = items ++ rest) :
    TooDeep (p s) ∨ ∃ state t fuel back, p s = rounds step (fuel + 1) state t ∧ P state ∧
      Spells back second ∧ t.items = back ++ rest ∧ t.errors = s.errors ∧
      (back ++ rest).length ≤ fuel := by
  obtain ⟨front, back, rfl, hfront, hback⟩ := spells_append_iff.mp hitems
  rcases h s front (back ++ rest) hfront (hfollow.ahead hback hrest) (by simp [hs]) with
    hdeep | ⟨state, t, fuel, hrounds, hP, ht, herrors, hfuel⟩
  · exact .inl hdeep
  · obtain ⟨fuel, rfl⟩ := Nat.exists_eq_add_one_of_ne_zero (Nat.ne_zero_of_lt hfuel)
    exact .inr ⟨state, t, fuel, back, hrounds, hP, hback, ht, herrors, Nat.le_of_lt_succ hfuel⟩

-- One more round, which takes an item.
theorem Loops.next (h : Loops F p step first P) (hfollow : Starts F (token :: second) G)
    (hstep : ∀ state, P state →
      Reads G (step state) (token :: second) fun result => ∃ state, result = .inl state ∧ Q state) :
    Loops G p step (first ++ token :: second) Q := by
  intro s items rest hitems hrest hs
  rcases h.round hfollow hitems hrest hs with
    hdeep | ⟨state, t, fuel, back, hrounds, hP, hback, ht, herrors, hfuel⟩
  · exact .inl hdeep
  · rw [hrounds]
    rcases hstep state hP t back rest hback hrest ht with
      hdeep | ⟨_, u, hok, ⟨state', rfl, hQ⟩, hu, herrors'⟩
    · exact .inl (rounds_tooDeep hdeep)
    · refine .inr ⟨state', u, fuel, ?_, hQ, hu, herrors'.trans herrors, ?_⟩
      · rw [rounds, bind_of_ok hok]
      · obtain ⟨item, others, rfl, _, _⟩ := spells_cons_iff.mp hback
        simp only [List.length_append, List.length_cons] at hfuel
        omega

-- The last round.
theorem Loops.exit (h : Loops F p step first P) (hfollow : Starts F second G)
    (hstep : ∀ state, P state →
      Reads G (step state) second fun result => ∃ a, result = .inr a ∧ R a) :
    Reads G p (first ++ second) R := by
  intro s items rest hitems hrest hs
  rcases h.round hfollow hitems hrest hs with
    hdeep | ⟨state, t, fuel, back, hrounds, hP, hback, ht, herrors, _⟩
  · exact .inl hdeep
  · rw [hrounds]
    rcases hstep state hP t back rest hback hrest ht with
      hdeep | ⟨_, u, hok, ⟨a, rfl, hR⟩, hu, herrors'⟩
    · exact .inl (rounds_tooDeep hdeep)
    · refine .inr ⟨a, u, ?_, hR, hu, herrors'.trans herrors⟩
      rw [rounds, bind_of_ok hok]
      rfl

-- The last round reads nothing.
theorem Loops.exit_nil (h : Loops F p step tokens P) (hG : ∀ token, G token → F token)
    (hstep : ∀ state, P state →
      Reads G (step state) [] fun result => ∃ a, result = .inr a ∧ R a) :
    Reads G p tokens R := by
  simpa using h.exit (show Starts F [] G from hG) hstep

end Loops

theorem separated_eq (closing : Symbol) (thing : Parser α) :
    separated closing thing = iterate (anotherThing closing thing) [] := rfl

section Separated

variable {δ : Type} {closing : Symbol} {thing : Parser α} {text : α → List Token} {view : α → δ}
  {done things : List α}

-- The thing is read in front of a comma and of the end, and does not look like the end.
structure Listed (closing : Symbol) (thing : Parser α) (tokens : List Token) (P : α → Prop) :
    Prop where
  reads : Reads (· ∈ [.symbol .comma, .symbol closing]) thing tokens P
  leads : Leads (· ≠ .symbol closing) tokens

theorem anotherThing_end : Reads (· = .symbol closing) (anotherThing closing thing done) []
    fun result => ∃ things, result = .inr things ∧ things = done.reverse := by
  unfold anotherThing
  refine reads_isNext (fun _ h => h) ?_
  exact reads_pure ⟨_, rfl, rfl⟩

theorem anotherThing_last {P : α → Prop} (hclosing : closing ≠ .comma)
    (h : Listed closing thing tokens P) :
    Reads (· = .symbol closing) (anotherThing closing thing done) tokens
      fun result => ∃ things, result = .inr things ∧ ∃ x, P x ∧ things = (x :: done).reverse := by
  unfold anotherThing
  refine reads_isNext_other h.leads.starts ?_
  refine h.reads.bind_nil (by simp) fun x hx => ?_
  refine reads_skip_other (fun token htoken => by simp [htoken, hclosing]) ?_
  exact reads_pure ⟨_, rfl, x, hx, rfl⟩

theorem anotherThing_next {P : α → Prop} (h : Listed closing thing tokens P) :
    Reads F (anotherThing closing thing done) (tokens ++ [.symbol .comma])
      fun result => ∃ things, result = .inl things ∧ ∃ x, P x ∧ things = x :: done := by
  unfold anotherThing
  refine reads_isNext_other h.leads.append.starts ?_
  refine h.reads.bind (by simp [Starts]) fun x hx => ?_
  refine reads_skip ?_
  exact reads_pure ⟨_, rfl, x, hx, rfl⟩

-- By induction on the things that are left. The state holds those in front of them.
theorem reads_things {p : Parser (List α)} {before : List δ} (hclosing : closing ≠ .comma)
    (hp : Loops (fun _ => True) p (anotherThing closing thing) first
      fun done => done.reverse.map view = before)
    (hthings : ∀ x ∈ things, Listed closing thing (text x) (view · = view x)) :
    Reads (· = .symbol closing) p (first ++ commas (things.map text))
      (·.map view = before ++ things.map view) := by
  induction things generalizing first before with
  | nil =>
      refine hp.exit starts_true fun done hdone => ?_
      refine anotherThing_end.mono fun _ ⟨things, hresult, hthings⟩ => ?_
      exact ⟨things, hresult, by simp [hthings, ← hdone]⟩
  | cons x things ih =>
      have hx := hthings x (by simp)
      cases things with
      | nil =>
          rw [List.map_singleton, commas_singleton]
          refine hp.exit starts_true fun done hdone => ?_
          refine (anotherThing_last hclosing hx).mono ?_
          rintro _ ⟨things, hresult, y, hy, rfl⟩
          exact ⟨_, hresult, by simp [hy, ← hdone]⟩
      | cons y things =>
          obtain ⟨token, rest, htext, _⟩ := hx.leads
          have hnext : Loops (fun _ => True) p (anotherThing closing thing)
              (first ++ (text x ++ [.symbol .comma]))
              fun done => done.reverse.map view = before ++ [view x] := by
            simp only [htext, List.cons_append] at hx ⊢
            refine hp.next trivial fun done hdone => ?_
            refine (anotherThing_next hx).mono ?_
            rintro _ ⟨things, hresult, y, hy, rfl⟩
            exact ⟨_, hresult, by simp [hy, ← hdone]⟩
          have hreads := ih hnext fun x hx => hthings x (by simp [hx])
          simpa [commas_cons_cons] using hreads

theorem reads_separated (text : α → List Token) (view : α → δ) (hclosing : closing ≠ .comma)
    (hthings : ∀ x ∈ things, Listed closing thing (text x) (view · = view x)) :
    Reads (· = .symbol closing) (separated closing thing) (commas (things.map text))
      (·.map view = things.map view) := by
  rw [separated_eq]
  exact reads_things hclosing (loops_iterate rfl) hthings

end Separated

end PhpLint.Syntax
