import PhpLint.Proofs.Step
import PhpLint.Syntax.Program

namespace PhpLint.Syntax

open EStateM (Keeps after_congr after_of_ok bind_eq_ok_iff bind_of_error bind_of_ok)
open PhpLint.Syntax.Parser

-- What holds between a stream and any later one: a parser takes the item in front, again
-- and again.
class Passage (R : Stream → Stream → Prop) : Prop where
  refl : ∀ s, R s s
  trans : ∀ s t u, R s t → R t u → R s u
  taken : ∀ item rest last docs errors,
    R ⟨item :: rest, last, docs, errors⟩ ⟨rest, item.location, docs, errors⟩

-- It may find that an operand is missing in front of an item as well.
class Motion (R : Stream → Stream → Prop) [Passage R] : Prop where
  missing : ∀ item rest last docs errors, R ⟨item :: rest, last, docs, errors⟩
    ⟨item :: rest, last, docs, .unexpectedToken .expression item.location :: errors⟩

-- A declaration takes the comment that is filed under the item in front, and then the item.
class Filing (R : Stream → Stream → Prop) [Passage R] : Prop where
  withdrawn : ∀ {item rest last docs errors t},
    R ⟨item :: rest, last, docs.remove item.location.start, errors⟩ t → t.items <:+ rest →
    R ⟨item :: rest, last, docs, errors⟩ t

-- The same stream with more items behind.
def Stream.extend (s : Stream) (more : List Item) : Stream :=
  { s with items := s.items ++ more }

@[simp] theorem Stream.extend_mk (items more : List Item) (last : Location) (docs : Docs)
    (errors : List SyntaxError) :
    Stream.extend ⟨items, last, docs, errors⟩ more = ⟨items ++ more, last, docs, errors⟩ := rfl

theorem Parser.skip_of_eq {token : Token} {item : Item} (h : item.token? = some token)
    (rest : List Item) (last : Location) (docs : Docs) (errors : List SyntaxError) :
    skip token ⟨item :: rest, last, docs, errors⟩ =
      .ok true ⟨rest, item.location, docs, errors⟩ := by
  have hnext : isNext token ⟨item :: rest, last, docs, errors⟩ =
      .ok (item.token? == some token) ⟨item :: rest, last, docs, errors⟩ := rfl
  rw [h, beq_self_eq_true] at hnext
  rw [skip, bind_of_ok hnext]
  rfl

theorem Parser.isNext_of_ne {token : Token} {item : Item} (h : item.token? ≠ some token)
    (rest : List Item) (last : Location) (docs : Docs) (errors : List SyntaxError) :
    isNext token ⟨item :: rest, last, docs, errors⟩ =
      .ok false ⟨item :: rest, last, docs, errors⟩ := by
  have hnext : isNext token ⟨item :: rest, last, docs, errors⟩ =
      .ok (item.token? == some token) ⟨item :: rest, last, docs, errors⟩ := rfl
  rwa [beq_eq_false_iff_ne.mpr h] at hnext

theorem Parser.skip_of_ne {token : Token} {item : Item} (h : item.token? ≠ some token)
    (rest : List Item) (last : Location) (docs : Docs) (errors : List SyntaxError) :
    skip token ⟨item :: rest, last, docs, errors⟩ =
      .ok false ⟨item :: rest, last, docs, errors⟩ := by
  rw [skip, bind_of_ok (isNext_of_ne h rest last docs errors)]
  rfl

namespace Parser

-- What the parsers of single items have done where they succeed.
section Items

variable {s t : Stream}

theorem eq_of_skip_false {token : Token} (h : skip token s = .ok false t) : t = s := by
  obtain ⟨isNext, _, ⟨⟩, h⟩ := bind_eq_ok_iff.mp h
  split at h
  · obtain ⟨_, _, _, ⟨⟩⟩ := bind_eq_ok_iff.mp h
  · cases h
    rfl

theorem exists_of_skip_true {token : Token} (h : skip token s = .ok true t) :
    ∃ item rest, s = ⟨item :: rest, s.last, s.docs, s.errors⟩ ∧ item.token? = some token ∧
      t = ⟨rest, item.location, s.docs, s.errors⟩ := by
  obtain ⟨items, last, docs, errors⟩ := s
  cases items with
  | nil => cases h
  | cons item rest =>
      by_cases htoken : item.token? = some token
      · rw [skip_of_eq htoken] at h
        cases h
        exact ⟨item, rest, rfl, htoken, rfl⟩
      · rw [skip_of_ne htoken] at h
        cases h

theorem exists_of_take {expected : Expectation} {found : Token × Location}
    (h : take expected s = .ok found t) :
    ∃ item rest, s = ⟨item :: rest, s.last, s.docs, s.errors⟩ ∧ item.token? = some found.1 ∧
      item.location = found.2 ∧ t = ⟨rest, item.location, s.docs, s.errors⟩ := by
  obtain ⟨items, last, docs, errors⟩ := s
  cases items with
  | nil => cases h
  | cons item rest =>
      obtain ⟨content, place⟩ := item
      cases content with
      | ok token =>
          cases h
          exact ⟨_, rest, rfl, rfl, rfl, rfl⟩
      | error error => cases h

theorem exists_of_expect {token : Token} {expected : Expectation} {u : Unit}
    (h : expect token expected s = .ok u t) :
    ∃ item rest, s = ⟨item :: rest, s.last, s.docs, s.errors⟩ ∧ item.token? = some token ∧
      t = ⟨rest, item.location, s.docs, s.errors⟩ := by
  obtain ⟨⟨found, location⟩, u, htake, h⟩ := bind_eq_ok_iff.mp h
  obtain ⟨item, rest, hs, htoken, -, hu⟩ := exists_of_take htake
  by_cases hfound : found = token
  · simp only [hfound, ne_eq, not_true_eq_false, if_false] at h
    cases h
    exact ⟨item, rest, hs, hfound ▸ htoken, hu⟩
  · simp only [ne_eq, hfound, not_false_eq_true, if_true] at h
    cases h

theorem exists_of_identifier {expected : Expectation} {name : Identifier}
    (h : identifier expected s = .ok name t) :
    ∃ item rest, s = ⟨item :: rest, s.last, s.docs, s.errors⟩ ∧ name.location = item.location ∧
      t = ⟨rest, item.location, s.docs, s.errors⟩ := by
  obtain ⟨found, u, htake, h⟩ := bind_eq_ok_iff.mp h
  obtain ⟨item, rest, hs, -, hlocation, hu⟩ := exists_of_take htake
  split at h
  · cases h
    exact ⟨item, rest, hs, hlocation.symm, hu⟩
  · cases h

end Items

end Parser

-- A parser takes items from the front, whichever way it ends. It fails at the last item
-- it has taken, and while an item is left it has looked at nothing behind that one.
class Parser.Moves {α : Type} (R : Stream → Stream → Prop) (p : Parser α) : Prop where
  keeps : Keeps R p
  drops : Keeps (fun s t => t.items <:+ s.items) p
  failure : ∀ ⦃s error t⦄, p s = .error error t → error.location = t.last
  ahead : ∀ ⦃s a t⦄, p s = .ok a t → t.items ≠ [] →
    ∀ more, p (s.extend more) = .ok a (t.extend more)

instance : Passage fun s t => t.items <:+ s.items where
  refl _ := List.suffix_rfl
  trans _ _ _ hst htu := htu.trans hst
  taken item rest _ _ _ := List.suffix_cons item rest

instance : Filing fun s t => t.items <:+ s.items where
  withdrawn h _ := h

namespace Parser.Moves

variable {α β σ : Type} {R : Stream → Stream → Prop} [hR : Passage R]

omit hR in
theorem suffix_of_ok {p : Parser α} (hp : Moves R p) {s t : Stream} {a : α} (h : p s = .ok a t) :
    t.items <:+ s.items :=
  after_of_ok h ▸ hp.drops s

omit hR in
theorem weaken {p : Parser α} (hp : Moves R p) : Moves (fun s t => t.items <:+ s.items) p :=
  ⟨hp.drops, hp.drops, hp.failure, hp.ahead⟩

-- A parser that only looks at the stream.
theorem look {f : Stream → α} (h : ∀ s more, s.items ≠ [] → f (s.extend more) = f s) :
    Moves R (do return f (← get)) where
  keeps := hR.refl
  drops _ := List.suffix_rfl
  failure := by rintro _ _ _ ⟨⟩
  ahead := by
    rintro s _ _ ⟨⟩ hitems more
    exact congrArg (EStateM.Result.ok · (s.extend more)) (h s more hitems)

instance (a : α) : Moves R (pure a : Parser α) :=
  look fun _ _ _ => rfl

theorem bind_of {p : Parser α} {f : α → Parser β} (hp : Moves R p) (hf : ∀ a, Moves R (f a)) :
    Moves R (p >>= f) where
  keeps := hp.keeps.bind (fun a => (hf a).keeps) hR.trans
  drops := hp.drops.bind (fun a => (hf a).drops) fun _ _ _ hst htu => htu.trans hst
  failure s error t h := by
    cases hs : p s with
    | ok a u => exact (hf a).failure (bind_of_ok hs ▸ h)
    | error e u =>
        rw [bind_of_error hs] at h
        cases h
        exact hp.failure hs
  ahead s b u h hu more := by
    obtain ⟨a, t, hpt, hfu⟩ := bind_eq_ok_iff.mp h
    have ht : t.items ≠ [] := fun hnil =>
      hu (List.suffix_nil.mp (hnil ▸ (hf a).suffix_of_ok hfu))
    rw [bind_of_ok (hp.ahead hpt ht more)]
    exact (hf a).ahead hfu hu more

theorem bind {p : Parser α} {f : α → Parser β} [hp : Moves R p] (hf : ∀ a, Moves R (f a)) :
    Moves R (p >>= f) :=
  bind_of hp hf

instance (p : Parser α) (f : α → Parser β) [Moves R p] [hf : ∀ a, Moves R (f a)] :
    Moves R (p >>= f) :=
  bind hf

instance (f : α → β) (p : Parser α) [hp : Moves R p] : Moves R (f <$> p) := by
  rw [map_eq_pure_bind]
  infer_instance

instance (c : Prop) [Decidable c] (p q : Parser α) [hp : Moves R p] [hq : Moves R q] :
    Moves R (if c then p else q) := by
  split <;> assumption

theorem head?_extend {s : Stream} (more : List Item) (hitems : s.items ≠ []) :
    (s.extend more).items.head? = s.items.head? := by
  obtain ⟨item, rest, hcons⟩ := List.exists_cons_of_ne_nil hitems
  simp [Stream.extend, hcons]

instance : Moves R peek? :=
  look fun _ more hitems => by rw [head?_extend more hitems]

instance : Moves R location? :=
  look fun _ more hitems => by rw [head?_extend more hitems]

instance : Moves R last :=
  look fun _ _ _ => rfl

instance (start : Option Location) : Moves R (spanFrom start) := by
  unfold spanFrom
  infer_instance

instance : Moves R advance where
  keeps s := by
    obtain ⟨items, last, docs, errors⟩ := s
    cases items with
    | nil => exact hR.refl _
    | cons item rest => exact hR.taken item rest last docs errors
  drops s := by
    obtain ⟨items, last, docs, errors⟩ := s
    cases items with
    | nil => exact List.suffix_rfl
    | cons item rest => exact List.suffix_cons item rest
  failure s := by
    obtain ⟨items, last, docs, errors⟩ := s
    cases items <;> rintro _ _ ⟨⟩
  ahead s a t h ht more := by
    obtain ⟨items, last, docs, errors⟩ := s
    cases items with
    | nil =>
        cases h
        contradiction
    | cons item rest =>
        cases h
        rfl

-- The parser fails where it is.
theorem throwLast {e : Location → SyntaxError} (he : ∀ l, (e l).location = l) :
    Moves R (do throw (e (← last)) : Parser α) where
  keeps := hR.refl
  drops _ := List.suffix_rfl
  failure := by
    rintro s _ _ ⟨⟩
    exact he s.last
  ahead := by rintro _ _ _ ⟨⟩

instance : Moves R (tooDeep : Parser α) :=
  throwLast fun _ => rfl

-- Which parser it is may depend on the item in front.
omit hR in
theorem ofFront {p q : Parser α} (hend : Moves R q)
    (hnil : ∀ last docs errors, p ⟨[], last, docs, errors⟩ = q ⟨[], last, docs, errors⟩)
    (hcons : ∀ item, ∃ r, Moves R r ∧ ∀ rest last docs errors,
      p ⟨item :: rest, last, docs, errors⟩ = r ⟨item :: rest, last, docs, errors⟩) : Moves R p where
  keeps := by
    rintro ⟨_ | ⟨item, rest⟩, last, docs, errors⟩
    · exact after_congr (hnil last docs errors) ▸ hend.keeps _
    · obtain ⟨r, hr, heq⟩ := hcons item
      exact after_congr (heq rest last docs errors) ▸ hr.keeps _
  drops := by
    rintro ⟨_ | ⟨item, rest⟩, last, docs, errors⟩
    · exact after_congr (hnil last docs errors) ▸ hend.drops _
    · obtain ⟨r, hr, heq⟩ := hcons item
      exact after_congr (heq rest last docs errors) ▸ hr.drops _
  failure := by
    rintro ⟨_ | ⟨item, rest⟩, last, docs, errors⟩ error t h
    · exact hend.failure (hnil last docs errors ▸ h)
    · obtain ⟨r, hr, heq⟩ := hcons item
      exact hr.failure (heq rest last docs errors ▸ h)
  ahead := by
    rintro ⟨_ | ⟨item, rest⟩, last, docs, errors⟩ a t h ht more
    · have hsuffix := hend.suffix_of_ok (hnil last docs errors ▸ h)
      exact absurd (List.suffix_nil.mp hsuffix) ht
    · obtain ⟨r, hr, heq⟩ := hcons item
      have hahead := hr.ahead (heq rest last docs errors ▸ h) ht more
      exact (heq (rest ++ more) last docs errors).trans hahead

-- After an item is taken, a parser goes on from it or rejects it.
theorem bind_take {expected : Expectation} {f : Token × Location → Parser α}
    (hf : ∀ token location, Moves R (f (token, location)) ∨
      f (token, location) = throw (.unexpectedToken expected location)) :
    Moves R (take expected >>= f) := by
  refine ofFront (throwLast (e := .endOfFile expected) fun _ => rfl) (fun _ _ _ => rfl) ?_
  rintro ⟨content, location⟩
  cases content with
  | error error =>
      have hthrow : Moves R (do throw (.lexical error expected (← last)) : Parser α) :=
        throwLast fun _ => rfl
      exact ⟨_, bind (p := advance) fun _ => hthrow, fun _ _ _ _ => rfl⟩
  | ok token =>
      rcases hf token location with hmoves | hreject
      · exact ⟨_, bind (p := advance) fun _ => hmoves, fun _ _ _ _ => rfl⟩
      · have hthrow : Moves R (do throw (.unexpectedToken expected (← last)) : Parser α) :=
          throwLast fun _ => rfl
        exact ⟨_, bind (p := advance) fun _ => hthrow, fun rest last docs errors =>
          congrFun hreject ⟨rest, location, docs, errors⟩⟩

instance (expected : Expectation) : Moves R (take expected) := by
  rw [← bind_pure (take expected)]
  exact bind_take fun _ _ => .inl inferInstance

instance (token : Token) (expected : Expectation) : Moves R (expect token expected) := by
  refine bind_take fun found location => ?_
  by_cases h : found = token
  · exact .inl (by simp only [h, ne_eq, not_true_eq_false, if_false]; infer_instance)
  · exact .inr (by simp only [ne_eq, h, not_false_eq_true, if_true])

instance (symbol : Symbol) (expected : Expectation) : Moves R (expectSymbol symbol expected) := by
  unfold expectSymbol
  infer_instance

instance (expected : Expectation) : Moves R (identifier expected) := by
  refine bind_take fun found location => ?_
  cases found with
  | identifier name => exact .inl (inferInstanceAs (Moves R (pure _)))
  | _ => exact .inr rfl

instance (token : Token) : Moves R (isNext token) := by
  unfold isNext
  infer_instance

instance (token : Token) : Moves R (skip token) := by
  unfold skip
  infer_instance

theorem skipWhileIn (p : Token → Bool) (items : List Item) (last : Location) (docs : Docs)
    (errors : List SyntaxError) :
    R ⟨items, last, docs, errors⟩
      ⟨(Parser.skipWhileIn p items last).1, (Parser.skipWhileIn p items last).2, docs, errors⟩ := by
  induction items generalizing last with
  | nil => exact hR.refl _
  | cons item rest ih =>
      rw [Parser.skipWhileIn]
      split
      · exact hR.trans _ _ _ (hR.taken item rest last docs errors) (ih item.location)
      · exact hR.refl _

theorem skipWhileIn_append (p : Token → Bool) {items : List Item} {last : Location}
    (more : List Item) (h : (Parser.skipWhileIn p items last).1 ≠ []) :
    Parser.skipWhileIn p (items ++ more) last =
      ((Parser.skipWhileIn p items last).1 ++ more, (Parser.skipWhileIn p items last).2) := by
  induction items generalizing last with
  | nil => exact absurd rfl h
  | cons item rest ih =>
      rw [Parser.skipWhileIn] at h
      rw [List.cons_append, Parser.skipWhileIn, Parser.skipWhileIn]
      by_cases hitem : item.token?.any p
      · rw [if_pos hitem] at h ⊢
        rw [if_pos hitem]
        exact ih h
      · rw [if_neg hitem, if_neg hitem, List.cons_append]

instance (p : Token → Bool) : Moves R (skipWhile p) where
  keeps s := skipWhileIn p s.items s.last s.docs s.errors
  drops s := skipWhileIn (R := fun s t => t.items <:+ s.items) p s.items s.last s.docs s.errors
  failure := by rintro _ _ _ ⟨⟩
  ahead := by
    rintro s _ _ ⟨⟩ ht more
    have hmore := skipWhileIn_append p more ht
    exact congrArg (fun rest => EStateM.Result.ok () (⟨rest.1, rest.2, s.docs, s.errors⟩ : Stream))
      hmore

-- By induction on the rounds that are left.
theorem rounds {step : σ → Parser (σ ⊕ α)} (hstep : ∀ state, Moves R (step state)) (fuel : Nat)
    (state : σ) : Moves R (Parser.rounds step fuel state) := by
  induction fuel generalizing state with
  | zero => exact throwLast fun _ => rfl
  | succ fuel ih =>
      rw [Parser.rounds]
      refine bind fun result => ?_
      cases result with
      | inl state => exact ih state
      | inr result => infer_instance

-- A loop that ends with some rounds ends the same way with more of them.
theorem rounds_mono {step : σ → Parser (σ ⊕ α)} {fuel more : Nat} (hle : fuel ≤ more) {state : σ}
    {s t : Stream} {a : α} (h : Parser.rounds step fuel state s = .ok a t) :
    Parser.rounds step more state s = .ok a t := by
  induction fuel generalizing more state s with
  | zero => cases h
  | succ fuel ih =>
      obtain ⟨more, rfl⟩ := Nat.exists_eq_succ_of_ne_zero (Nat.ne_of_gt (Nat.lt_of_lt_of_le
        (Nat.succ_pos fuel) hle))
      obtain ⟨result, u, hstep, h⟩ := bind_eq_ok_iff.mp h
      rw [Parser.rounds, bind_of_ok hstep]
      cases result with
      | inl state => exact ih (Nat.le_of_succ_le_succ hle) h
      | inr result => exact h

theorem iterate {step : σ → Parser (σ ⊕ α)} {start : σ} (hstep : ∀ state, Moves R (step state)) :
    Moves R (Parser.iterate step start) where
  keeps s := (rounds hstep _ start).keeps s
  drops s := (rounds hstep _ start).drops s
  failure s _ _ h := (rounds hstep (s.items.length + 1) start).failure h
  ahead s a t h ht more := by
    have hmore := (rounds hstep _ start).ahead h ht more
    have hle : s.items.length + 1 ≤ (s.extend more).items.length + 1 := by
      simp [Stream.extend]
    exact rounds_mono hle hmore

instance (step : σ → Parser (σ ⊕ α)) [hstep : ∀ state, Moves R (step state)] (start : σ) :
    Moves R (Parser.iterate step start) :=
  iterate hstep

instance (closing : Symbol) (thing : Parser α) [Moves R thing] (things : List α) :
    Moves R (anotherThing closing thing things) := by
  unfold anotherThing
  infer_instance

instance (closing : Symbol) (thing : Parser α) [Moves R thing] :
    Moves R (separated closing thing) := by
  unfold separated
  infer_instance

end Parser.Moves

-- With an item in front, the parser takes it, whichever way it ends, or it succeeds with a
-- result of this kind and changes nothing.
def Parser.Takes {α : Type} (p : Parser α) (P : α → Prop) : Prop :=
  ∀ item rest last docs errors, (p.after ⟨item :: rest, last, docs, errors⟩).items <:+ rest ∨
    ∃ a, P a ∧ p ⟨item :: rest, last, docs, errors⟩ = .ok a ⟨item :: rest, last, docs, errors⟩

namespace Parser

variable {α β σ : Type}

theorem Takes.bind {p : Parser α} {f : α → Parser β} {P : α → Prop} {Q : β → Prop}
    (hp : Takes p P) (hf : ∀ a, P a → Takes (f a) Q)
    (hdrops : ∀ a, Keeps (fun s t => t.items <:+ s.items) (f a) := by
      exact fun _ => Moves.drops (R := fun s t => t.items <:+ s.items)) :
    Takes (p >>= f) Q := by
  intro item rest last docs errors
  rcases hp item rest last docs errors with htaken | ⟨a, ha, hidle⟩
  · left
    cases h : p ⟨item :: rest, last, docs, errors⟩ with
    | ok a t =>
        rw [after_of_ok h] at htaken
        rw [EStateM.after, bind_of_ok h]
        exact (hdrops a t).trans htaken
    | error e t =>
        rw [EStateM.after, h] at htaken
        rw [EStateM.after, bind_of_error h]
        exact htaken
  · rcases hf a ha item rest last docs errors with htaken | ⟨b, hb, hidle'⟩
    · exact .inl (after_congr (bind_of_ok hidle) ▸ htaken)
    · exact .inr ⟨b, hb, (bind_of_ok hidle).trans hidle'⟩

theorem Takes.andThen {p : Parser α} {f : α → Parser β} {Q : β → Prop}
    (hp : Takes p fun _ => False)
    (hdrops : ∀ a, Keeps (fun s t => t.items <:+ s.items) (f a) := by
      exact fun _ => Moves.drops (R := fun s t => t.items <:+ s.items)) :
    Takes (p >>= f) Q :=
  hp.bind (fun _ => False.elim) hdrops

theorem takes_pure {a : α} {P : α → Prop} (ha : P a) : Takes (pure a) P :=
  fun _ _ _ _ _ => .inr ⟨a, ha, rfl⟩

theorem takes_peek? : Takes peek? fun _ => True :=
  fun _ _ _ _ _ => .inr ⟨_, trivial, rfl⟩

theorem takes_advance : Takes advance fun _ => False :=
  fun _ _ _ _ _ => .inl List.suffix_rfl

theorem takes_take (expected : Expectation) : Takes (take expected) fun _ => False := by
  rintro ⟨content, location⟩ rest last docs errors
  left
  cases content <;> exact List.suffix_rfl

theorem takes_expect (token : Token) (expected : Expectation) :
    Takes (expect token expected) fun _ => False := by
  refine (takes_take expected).andThen fun (found, location) s => ?_
  dsimp only
  split <;> exact List.suffix_rfl

theorem takes_skip (token : Token) : Takes (skip token) (· = false) := by
  intro item rest last docs errors
  by_cases htoken : item.token? = some token
  · exact .inl (after_of_ok (skip_of_eq htoken rest last docs errors) ▸ List.suffix_rfl)
  · exact .inr ⟨false, rfl, skip_of_ne htoken rest last docs errors⟩

-- Only the first round can change nothing, and then it is the last one.
theorem takes_iterate {step : σ → Parser (σ ⊕ α)} {start : σ} {P : α → Prop}
    [hmoves : ∀ state, Moves (fun s t => t.items <:+ s.items) (step state)]
    (hstep : Takes (step start) fun result => ∃ a, result = .inr a ∧ P a) :
    Takes (iterate step start) P := by
  have hrounds (fuel : Nat) : Takes (rounds step (fuel + 1) start) P := by
    refine hstep.bind ?_ fun result => ?_
    · rintro _ ⟨a, rfl, ha⟩
      exact takes_pure ha
    · cases result with
      | inl state => exact (Moves.rounds hmoves fuel state).drops
      | inr a => exact fun _ => List.suffix_rfl
  exact fun item rest => hrounds (item :: rest).length item rest

-- After the comment the parser goes on from the item it is on, which it takes.
theorem Moves.documented {R : Stream → Stream → Prop} [Passage R] [hF : Filing R]
    {f : Option DocComment → Parser α} (hf : ∀ doc, Moves R (f doc))
    (htakes : ∀ doc, Takes (f doc) fun _ => False) :
    Moves R (takeDoc >>= f) where
  keeps := by
    rintro ⟨_ | ⟨item, rest⟩, last, docs, errors⟩
    · exact (hf none).keeps _
    · rcases htakes (docs.get? item.location.start) item rest last
        (docs.remove item.location.start) errors with htaken | ⟨_, hfalse, _⟩
      · exact hF.withdrawn ((hf _).keeps _) htaken
      · exact hfalse.elim
  drops := by
    rintro ⟨_ | ⟨item, rest⟩, last, docs, errors⟩
    · exact (hf none).drops _
    · exact (hf (docs.get? item.location.start)).drops
        ⟨item :: rest, last, docs.remove item.location.start, errors⟩
  failure := by
    rintro ⟨_ | ⟨item, rest⟩, last, docs, errors⟩ error t h
    · exact (hf none).failure h
    · exact (hf _).failure h
  ahead := by
    rintro ⟨_ | ⟨item, rest⟩, last, docs, errors⟩ a t h ht more
    · exact absurd (List.suffix_nil.mp ((hf none).suffix_of_ok h)) ht
    · exact (hf _).ahead h ht more

end Parser

-- What the grammar does without looking for an operand.
section Quiet

open Parser.Moves (bind)

variable {R : Stream → Stream → Prop} [hR : Passage R]

instance (height : Nat) : Moves R (checkHeight height) := by
  unfold checkHeight
  infer_instance

instance : Moves R ownerName := by
  unfold ownerName
  infer_instance

instance : Moves R terminator := by
  unfold terminator
  infer_instance

instance : Moves R returnType := by
  unfold returnType
  infer_instance

instance (modifier? : Token → Option Modifier) (read : List Modifier) :
    Moves R (anotherModifier modifier? read) := by
  refine bind fun token? => ?_
  split <;> infer_instance

instance (modifier? : Token → Option Modifier) : Moves R (modifiers modifier?) := by
  unfold modifiers
  infer_instance

instance (state : Unit) : Moves R (anotherToken state) := by
  refine bind fun found => ?_
  split <;> infer_instance

instance : Moves R skipField := by
  unfold skipField
  infer_instance

instance : Moves R noMember :=
  Moves.bind_take fun _ _ => .inr rfl

instance : Moves R fieldOrNone := by
  unfold fieldOrNone
  infer_instance

instance : Moves R parentClass? := by
  unfold parentClass?
  infer_instance

omit hR in
theorem takes_modifiers (modifier? : Token → Option Modifier) :
    Takes (modifiers modifier?) fun _ => True := by
  refine takes_iterate (takes_peek?.bind (fun token? _ => ?_) fun token? => ?_)
  · split
    · exact takes_advance.andThen
    · exact takes_pure ⟨_, rfl, trivial⟩
  · split <;> exact Moves.drops (R := fun s t => t.items <:+ s.items)

theorem takes_skipField : Takes skipField fun _ => False := by
  refine takes_iterate ((takes_take .semicolon).andThen fun found => ?_)
  split <;> exact fun _ => List.suffix_rfl

theorem takes_fieldOrNone : Takes fieldOrNone fun _ => False := by
  refine takes_peek?.bind fun token? _ => ?_
  split
  · exact takes_skipField.andThen
  · exact (takes_take .classMember).andThen fun _ _ => List.suffix_rfl

end Quiet

section Expressions

open Parser.Moves (bind bind_take)

variable {R : Stream → Stream → Prop} [hR : Passage R] {nested : Nested}

theorem operandOf_identifier {name : String} {location : Location} :
    operandOf nested (.identifier name, location) =
      if name.toLower == "array" then do
        if ← skip (.symbol .parenLeft) then
          let items ← arrayItems nested .parenRight
          return .array items .long (location.cover (← last))
        restOfName nested ⟨name, location⟩
      else restOfName nested ⟨name, location⟩ := rfl

class Nested.Moves (R : Stream → Stream → Prop) (nested : Nested) : Prop where
  expression : Parser.Moves R nested.expression
  operand : Parser.Moves R nested.operand
  assigned : Parser.Moves R nested.assigned

attribute [instance] Nested.Moves.expression Nested.Moves.operand Nested.Moves.assigned

variable [Nested.Moves R nested]

instance : Moves R (arguments nested) := by
  unfold arguments
  infer_instance

instance : Moves R (arrayItem nested) := by
  unfold arrayItem
  infer_instance

instance (closing : Symbol) : Moves R (arrayItems nested closing) := by
  unfold arrayItems
  infer_instance

instance (name : Identifier) : Moves R (restOfName nested name) := by
  refine bind fun isCall => ?_
  cases isCall <;> infer_instance

instance (start : Location) : Moves R (newObject nested start) := by
  unfold newObject
  infer_instance

theorem moves_operandOf (token : Token) (location : Location) :
    Moves R (operandOf nested (token, location)) ∨
      operandOf nested (token, location) = throw (.unexpectedToken .expression location) := by
  cases token with
  | symbol symbol =>
      cases symbol with
      | parenLeft => exact .inl (bind fun _ => inferInstance)
      | bracketLeft => exact .inl (bind fun _ => inferInstance)
      | _ => exact .inr rfl
  | keyword keyword =>
      cases keyword with
      | New => exact .inl (inferInstanceAs (Moves R (newObject _ _)))
      | Static => exact .inl (inferInstanceAs (Moves R (restOfName _ _)))
      | _ => exact .inr rfl
  | identifier name => exact .inl (operandOf_identifier ▸ inferInstance)
  | string text interpolated =>
      cases interpolated <;> exact .inl (inferInstanceAs (Moves R (pure _)))
  | var | int | float | bool | null => exact .inl (inferInstanceAs (Moves R (pure _)))
  | _ => exact .inr rfl

theorem primary_nil (last : Location) (docs : Docs) (errors : List SyntaxError) :
    primary nested ⟨[], last, docs, errors⟩ =
      .error (.endOfFile .expression last) ⟨[], last, docs, errors⟩ := rfl

theorem primary_of_ends {item : Item} (hends : item.token?.any endsOperand) (rest : List Item)
    (last : Location) (docs : Docs) (errors : List SyntaxError) :
    primary nested ⟨item :: rest, last, docs, errors⟩ = .ok (.invalid item.location)
      ⟨item :: rest, last, docs, .unexpectedToken .expression item.location :: errors⟩ := by
  have hmissing : missingOperand? ⟨item :: rest, last, docs, errors⟩ =
      .ok (if item.token?.any endsOperand then some item.location else none)
        ⟨item :: rest, last, docs, errors⟩ := rfl
  rw [if_pos hends] at hmissing
  rw [primary, bind_of_ok hmissing]
  rfl

theorem primary_of_not_ends {item : Item} (hends : ¬item.token?.any endsOperand)
    (rest : List Item) (last : Location) (docs : Docs) (errors : List SyntaxError) :
    primary nested ⟨item :: rest, last, docs, errors⟩ =
      (take .expression >>= operandOf nested) ⟨item :: rest, last, docs, errors⟩ := by
  have hmissing : missingOperand? ⟨item :: rest, last, docs, errors⟩ =
      .ok (if item.token?.any endsOperand then some item.location else none)
        ⟨item :: rest, last, docs, errors⟩ := rfl
  rw [if_neg hends] at hmissing
  rw [primary, bind_of_ok hmissing]

variable [hM : Motion R]

-- In front of an item that can start an operand the parser is that of the operand. Nothing
-- is taken where one is missing.
instance : Moves R (primary nested) := by
  have hoperand : Moves R (take .expression >>= operandOf nested) := bind_take moves_operandOf
  constructor
  · rintro ⟨_ | ⟨item, rest⟩, last, docs, errors⟩
    · exact hR.refl _
    · by_cases hends : item.token?.any endsOperand
      · rw [after_of_ok (primary_of_ends hends rest last docs errors)]
        exact hM.missing item rest last docs errors
      · rw [after_congr (primary_of_not_ends hends rest last docs errors)]
        exact hoperand.keeps _
  · rintro ⟨_ | ⟨item, rest⟩, last, docs, errors⟩
    · exact List.suffix_rfl
    · by_cases hends : item.token?.any endsOperand
      · simp [after_of_ok (primary_of_ends hends rest last docs errors)]
      · rw [after_congr (primary_of_not_ends hends rest last docs errors)]
        exact hoperand.drops _
  · rintro ⟨_ | ⟨item, rest⟩, last, docs, errors⟩ error t h
    · rw [primary_nil] at h
      cases h
      rfl
    · by_cases hends : item.token?.any endsOperand
      · rw [primary_of_ends hends] at h
        cases h
      · exact hoperand.failure (primary_of_not_ends hends rest last docs errors ▸ h)
  · rintro ⟨_ | ⟨item, rest⟩, last, docs, errors⟩ e t h ht more
    · rw [primary_nil] at h
      cases h
    · by_cases hends : item.token?.any endsOperand
      · rw [primary_of_ends hends] at h
        cases h
        exact primary_of_ends hends (rest ++ more) last docs errors
      · have hahead := hoperand.ahead (primary_of_not_ends hends rest last docs errors ▸ h) ht more
        exact (primary_of_not_ends hends (rest ++ more) last docs errors).trans hahead

instance (object : Expr) : Moves R (member nested object) := by
  unfold member
  infer_instance

instance (container : Expr) : Moves R (subscript nested container) := by
  unfold subscript
  infer_instance

instance (object : Expr) : Moves R (access? nested object) := by
  unfold access?
  infer_instance

instance : Moves R (accesses nested) := by
  refine bind fun first => Moves.iterate fun (object, height) => bind fun result => ?_
  cases result <;> infer_instance

instance : Moves R (power nested) := by
  unfold power
  infer_instance

instance : Moves R (unary nested) := by
  refine bind fun token? => ?_
  split
  · infer_instance
  · split <;> infer_instance

instance (table : List (Token × BinaryOp)) (operand : Parser Expr) [Moves R operand] :
    Moves R (operation table operand) := by
  refine bind fun first => Moves.iterate fun left => bind fun token? => ?_
  split <;> infer_instance

instance (operand : Parser Expr) [Moves R operand] : Moves R (assignment nested operand) := by
  refine bind fun target => bind fun token? => ?_
  split <;> infer_instance

instance (levels : List Level) : Moves R (climb nested levels) := by
  induction levels with
  | nil => exact inferInstanceAs (Moves R (unary nested))
  | cons level tighter ih =>
      cases level with
      | assignments => exact inferInstanceAs (Moves R (assignment nested _))
      | operators table => exact inferInstanceAs (Moves R (operation table _))

instance (depth : Nat) : Nested.Moves R (nestedAt depth) := by
  induction depth with
  | zero => constructor <;> exact inferInstanceAs (Moves R tooDeep)
  | succ depth ih =>
      constructor
      · exact inferInstanceAs (Moves R (climb _ _))
      · exact inferInstanceAs (Moves R (unary _))
      · exact inferInstanceAs (Moves R (climb _ _))

end Expressions

section Statements

open Parser.Moves (bind bind_take throwLast)

variable {R : Stream → Stream → Prop} [hR : Passage R] {parts : Parts}

class Parts.Moves (R : Stream → Stream → Prop) (parts : Parts) : Prop where
  expression : Parser.Moves R parts.expression
  statement : Parser.Moves R parts.statement

attribute [instance] Parts.Moves.expression Parts.Moves.statement

-- Whatever else holds, items are taken from the front.
omit hR in
theorem Parts.Moves.weaken (h : Parts.Moves R parts) :
    Parts.Moves (fun s t => t.items <:+ s.items) parts where
  expression := h.expression.weaken
  statement := h.statement.weaken

variable [hp : Parts.Moves R parts]

instance : Moves R (condition parts) := by
  unfold condition
  infer_instance

instance : Moves R (controlled parts) := by
  refine bind fun statement => ?_
  cases statement <;> infer_instance

instance (expressions : List Expr) : Moves R (anotherExpression parts expressions) := by
  unfold anotherExpression
  infer_instance

instance (start : Option Location) : Moves R (echo parts start) := by
  unfold echo
  infer_instance

instance (start : Option Location) (isEmpty : Bool) :
    Moves R (returnedWith parts start isEmpty) := by
  unfold returnedWith
  infer_instance

instance (start : Option Location) : Moves R (returned parts start) := by
  unfold returned
  infer_instance

instance (start : Option Location) : Moves R (clause parts start) := by
  unfold clause
  infer_instance

instance : Moves R (alternatives parts) := by
  refine Moves.iterate fun clauses => bind fun start => bind fun isElseif => ?_
  cases isElseif <;> infer_instance

instance (start : Option Location) : Moves R (conditional parts start) := by
  unfold conditional
  infer_instance

instance (start : Option Location) : Moves R (whileLoop parts start) := by
  unfold whileLoop
  infer_instance

instance (statements : List Stmt) : Moves R (anotherStatement parts statements) := by
  refine bind fun isClosed => ?_
  cases isClosed with
  | true => exact inferInstanceAs (Moves R (pure _))
  | false =>
      have hend : Moves R (do throw (.endOfFile .rightBrace (← last)) :
          Parser (List Stmt ⊕ List Stmt)) := throwLast fun _ => rfl
      refine Moves.ofFront hend (fun _ _ _ => rfl) fun _ =>
        ⟨_, bind (p := parts.statement) fun statement => ?_, fun _ _ _ _ => rfl⟩
      cases statement <;> infer_instance

instance (start : Location) : Moves R (block parts start) := by
  unfold block
  infer_instance

instance (start : Option Location) : Moves R (constantDeclaration parts start) := by
  unfold constantDeclaration
  infer_instance

instance : Moves R (parameter parts) := by
  refine bind fun start => bind fun _ => bind fun _ => bind_take fun token location => ?_
  cases token with
  | var name => exact .inl (bind fun _ => inferInstance)
  | _ => exact .inr rfl

instance : Moves R (parameters parts) := by
  unfold parameters
  infer_instance

instance (doc : Option DocComment) (expected : Expectation) :
    Moves R (signature parts doc expected) := by
  unfold signature
  infer_instance

instance (expected : Expectation) : Moves R (body parts expected) := by
  unfold body
  infer_instance

instance (doc : Option DocComment) (start : Option Location) :
    Moves R (functionDeclaration parts doc start) := by
  unfold functionDeclaration
  infer_instance

instance (doc : Option DocComment) (modifiers : List Modifier) (start : Option Location) :
    Moves R (method parts doc modifiers start) := by
  unfold method
  infer_instance

instance (start : Option Location) (doc : Option DocComment) :
    Moves R (memberFrom parts start doc) := by
  unfold memberFrom
  infer_instance

variable [hF : Filing R]

instance : Moves R (classMember parts) := by
  have hparts := hp.weaken
  refine bind fun start => Moves.documented (fun doc => inferInstance) fun doc => ?_
  refine (takes_modifiers methodModifier?).bind fun modifiers _ => ?_
  refine (takes_skip (.keyword .Function)).bind ?_
  rintro _ rfl
  exact takes_fieldOrNone

instance (methods : List Method) : Moves R (anotherMember parts methods) := by
  refine bind fun isClosed => ?_
  cases isClosed with
  | true => exact inferInstanceAs (Moves R (pure _))
  | false =>
      refine bind fun method => ?_
      cases method <;> infer_instance

instance : Moves R (classMethods parts) := by
  unfold classMethods
  infer_instance

instance (doc : Option DocComment) (start : Option Location) :
    Moves R (classDeclaration parts doc start) := by
  refine bind fun modifiers => bind fun _ => bind fun name => ?_
  infer_instance

omit hF in
instance (start : Option Location) : Moves R (expressionStatement parts start) := by
  unfold expressionStatement
  infer_instance

instance : Moves R (statement parts) := by
  have hparts := hp.weaken
  have htakes (doc : Option DocComment) (start : Option Location) :
      Takes (classDeclaration parts doc start) fun _ => False := by
    refine (takes_modifiers classModifier?).bind (fun modifiers _ => ?_) fun modifiers => ?_
    · exact (takes_expect (.keyword .Class) .classKeyword).andThen
    · exact @Moves.drops _ R _ (bind fun _ => bind fun name => inferInstance)
  refine bind fun start => bind fun token? => ?_
  split
  case h_11 => exact Moves.documented (fun _ => inferInstance) fun _ => takes_advance.andThen
  case h_12 | h_13 | h_14 =>
    exact Moves.documented (fun _ => inferInstance) fun doc => (htakes doc start).andThen
  all_goals infer_instance

instance [Motion R] (depth : Nat) : Moves R (statementAt depth) := by
  induction depth with
  | zero => exact inferInstanceAs (Moves R tooDeep)
  | succ depth ih =>
      have hparts : Parts.Moves R ⟨(nestedAt depth).expression, statementAt depth⟩ :=
        ⟨inferInstance, ih⟩
      exact inferInstanceAs (Moves R (statement _))

end Statements

-- Where the statements go on after one that fails.
def resume (s t : Stream) (error : SyntaxError) : Stream :=
  let t := if t.items.length = s.items.length then t.advance else t
  Stream.recover { t with errors := error :: t.errors }

section Recovery

variable {R : Stream → Stream → Prop} [hR : Passage R]

theorem moves_advance (s : Stream) : R s s.advance := by
  obtain ⟨items, last, docs, errors⟩ := s
  cases items with
  | nil => exact hR.refl _
  | cons item rest => exact hR.taken item rest last docs errors

theorem moves_skipStatement (items : List Item) (last : Location) (docs : Docs)
    (errors : List SyntaxError) :
    R ⟨items, last, docs, errors⟩
      ⟨(skipStatement items last).1, (skipStatement items last).2, docs, errors⟩ := by
  induction items generalizing last with
  | nil => exact hR.refl _
  | cons item rest ih =>
      have htaken := hR.taken item rest last docs errors
      rw [skipStatement]
      split
      · exact htaken
      · split
        · exact hR.refl _
        · split
          · exact htaken
          · exact hR.trans _ _ _ htaken (ih item.location)

theorem moves_resume {s t : Stream} {error : SyntaxError} (h : R s t)
    (hreport : ∀ t, R t { t with errors := error :: t.errors }) : R s (resume s t error) := by
  have hstep : R s (if t.items.length = s.items.length then t.advance else t) := by
    split
    · exact hR.trans _ _ _ h (moves_advance t)
    · exact h
  exact hR.trans _ _ _ hstep (hR.trans _ _ _ (hreport _) (moves_skipStatement _ _ _ _))

theorem moves_resume_of_error [hmoves : Parser.Moves R (statementAt maxDepth)] {s t : Stream}
    {error : SyntaxError} (h : statementAt maxDepth s = .error error t)
    (hreport : ∀ t, R t { t with errors := error :: t.errors }) : R s (resume s t error) := by
  have hkeeps := hmoves.keeps s
  rw [EStateM.after, h] at hkeeps
  exact moves_resume hkeeps hreport

end Recovery

theorem program_of_ok {rounds : Nat} {s t : Stream} {statement : Option Stmt}
    (hitems : s.items ≠ []) (h : statementAt maxDepth s = .ok statement t) :
    program (rounds + 1) s =
      (statement.toList ++ (program rounds t).1, (program rounds t).2) := by
  rw [program]
  split
  · contradiction
  · rw [h]
    cases statement <;> rfl

theorem exists_program_of_error {rounds : Nat} {s t : Stream} {error : SyntaxError}
    (hitems : s.items ≠ []) (h : statementAt maxDepth s = .error error t) :
    ∃ location, program (rounds + 1) s =
      (.invalid location :: (program rounds (resume s t error)).1,
        (program rounds (resume s t error)).2) := by
  rw [program]
  split
  · contradiction
  · rw [h]
    exact ⟨_, rfl⟩

theorem program_of_error {rounds : Nat} {s t : Stream} {error : SyntaxError}
    (hitems : s.items ≠ []) (h : statementAt maxDepth s = .error error t) :
    (program (rounds + 1) s).2 = (program rounds (resume s t error)).2 := by
  obtain ⟨location, hprogram⟩ := exists_program_of_error hitems h
  rw [hprogram]

theorem errors_resume (s t : Stream) (error : SyntaxError) :
    (resume s t error).errors = error :: t.errors := by
  have hadvance : t.advance.errors = t.errors := by
    unfold Stream.advance
    split <;> rfl
  unfold resume
  split <;> simp [Stream.recover, hadvance]

instance : Passage fun s t => s.errors <:+ t.errors where
  refl _ := List.suffix_rfl
  trans _ _ _ := List.IsSuffix.trans
  taken _ _ _ _ _ := List.suffix_rfl

instance : Motion fun s t => s.errors <:+ t.errors where
  missing _ _ _ _ _ := List.suffix_cons _ _

instance : Filing fun s t => s.errors <:+ t.errors where
  withdrawn h _ := h

-- What has been reported stays so.
theorem errors_suffix {α : Type} (p : Parser α) [h : Moves (fun s t => s.errors <:+ t.errors) p]
    (s : Stream) : s.errors <:+ (p.after s).errors :=
  h.keeps s

-- By induction on the rounds, that is on the statements that are left.
theorem errors_prefix_program (rounds : Nat) (s : Stream) :
    s.errors.reverse <+: (program rounds s).2 := by
  induction rounds generalizing s with
  | zero => exact List.prefix_rfl
  | succ rounds ih =>
      by_cases hitems : s.items = []
      · have hdone : (program (rounds + 1) s).2 = s.errors.reverse := by rw [program, hitems]
        exact hdone ▸ List.prefix_rfl
      · have hstatement := errors_suffix (statementAt maxDepth) s
        rw [EStateM.after] at hstatement
        cases h : statementAt maxDepth s with
        | ok statement t =>
            rw [h] at hstatement
            have hrest := (List.reverse_prefix.mpr hstatement).trans (ih t)
            rw [program_of_ok hitems h]
            exact hrest
        | error error t =>
            rw [h] at hstatement
            rw [program_of_error hitems h]
            refine (List.reverse_prefix.mpr ?_).trans (ih _)
            rw [errors_resume]
            exact hstatement.trans (List.suffix_cons _ _)

theorem mem_errors_program {rounds : Nat} {s t : Stream} {error : SyntaxError}
    (hitems : s.items ≠ []) (h : statementAt maxDepth s = .error error t) :
    error ∈ (program (rounds + 1) s).2 := by
  rw [program_of_error hitems h]
  have hprefix := errors_prefix_program rounds (resume s t error)
  exact hprefix.subset (by simp [errors_resume])

-- Errors that have been reported are kept, so a stream without any had none.
theorem errors_eq_nil {rounds : Nat} {s : Stream} (h : (program rounds s).2 = []) :
    s.errors = [] := by
  have hprefix := errors_prefix_program rounds s
  rw [h, List.prefix_nil, List.reverse_eq_nil_iff] at hprefix
  exact hprefix

-- Without errors every statement succeeds.
theorem exists_ok_of_errors_eq_nil {rounds : Nat} {s : Stream} (hitems : s.items ≠ [])
    (h : (program (rounds + 1) s).2 = []) :
    ∃ statement t, statementAt maxDepth s = .ok statement t ∧ (program rounds t).2 = [] := by
  cases hs : statementAt maxDepth s with
  | ok statement t =>
      rw [program_of_ok hitems hs] at h
      exact ⟨statement, t, rfl, h⟩
  | error error t =>
      have hmem : error ∈ (program (rounds + 1) s).2 := mem_errors_program hitems hs
      rw [h] at hmem
      contradiction

end PhpLint.Syntax
