import Mathlib.Data.List.Forall2
import PhpLint.Proofs.Analysis.Frame
import PhpLint.Proofs.Semantics.Run
import PhpLint.Proofs.Value.Folding

namespace PhpLint

namespace Value

-- A datum is neither unknown nor of a mere shape.
theorem isVague_datum (v : Datum) : v.val.isVague = false := by
  obtain ⟨value, h⟩ := v
  cases value with
  | unknown | any _ | argument _ | constant _ => cases h
  | _ => rfl

theorem truthy?_datum (v : Datum) : v.val.truthy? = some v.isTrue := by
  obtain ⟨b, hb⟩ := exists_truthy? (isVague_datum v)
  simp [Datum.isTrue, hb]

theorem refines_element {v w a b : Value} (ha : Refines v a) (hb : Refines w b) :
    Refines (element v w) (element a b) := by
  rcases ha.eq_or_isVague with rfl | hva
  · rcases hb.eq_or_isVague with rfl | hvb
    · exact .refl _
    · have hnone : element a b = unknown := by cases a <;> simp [element, toKey?_of_isVague hvb]
      rw [hnone]
      exact .ofOpen rfl
  · have hnone : element a b = unknown := by cases a <;> simp_all [isVague, element]
    rw [hnone]
    exact .ofOpen rfl

-- An element of an array with its key, if it has one.
structure ElementRefines (x y : Option Value × Value) : Prop where
  key : Option.Rel Refines x.1 y.1
  value : Refines x.2 y.2

theorem addElements_of_refines {xs ys : List (Option Value × Value)}
    (h : List.Forall₂ ElementRefines xs ys) {next : Option Int64} {entries result}
    (hy : addElements next entries ys = some result) :
    addElements next entries xs = some result := by
  induction h generalizing next entries with
  | nil => exact hy
  | @cons x y xs ys hxy _ ih =>
      obtain ⟨xkey, x⟩ := x
      obtain ⟨ykey, y⟩ := y
      obtain ⟨hkey, hvalue⟩ := hxy
      simp only [addElements] at hy ⊢
      split at hy
      case isFalse => cases hy
      case isTrue hknown =>
        have hxy : y = x := by
          rcases hvalue.eq_or_isVague with h | h
          · exact h
          · simp [isKnown_of_isVague h] at hknown
        have hkeys : ykey.elim (next.map Key.int) toKey? = none ∨
            xkey.elim (next.map Key.int) toKey? = ykey.elim (next.map Key.int) toKey? := by
          cases hkey with
          | none => exact .inr rfl
          | some hk =>
              rcases hk.eq_or_isVague with rfl | h
              · exact .inr rfl
              · exact .inl (toKey?_of_isVague h)
        rw [← hxy, if_pos hknown]
        rcases hkeys with hk | hk
        · simp [hk] at hy
        · rw [hk]
          split at hy
          · exact ih hy
          · cases hy

theorem refines_ofElements {xs ys : List (Option Value × Value)}
    (h : List.Forall₂ ElementRefines xs ys) : Refines (ofElements xs) (ofElements ys) := by
  unfold ofElements
  cases hy : addElements (some 0) [] ys with
  | none => exact .ofOpen rfl
  | some result =>
      rw [addElements_of_refines h hy]
      exact .refl _

end Value

open Value Run

-- A node that was handed to the passes tells of one that is reached: it is the same one,
-- and the operands that were computed are described.
inductive Node.Tells : Node → Node → Prop where
  | expr {e : Expr} {operands values : List Value}
    (h : List.Forall₂ Refines values (operands.take values.length)) :
    Tells (.expr e operands) (.expr e values)
  | stmt {s : Stmt} {operands values : List Value}
    (h : List.Forall₂ Refines values (operands.take values.length)) :
    Tells (.stmt s operands) (.stmt s values)
  | method (m : Method) : Tells (.method m) (.method m)

theorem refines_take {values operands : List Value} (h : List.Forall₂ Refines values operands) :
    List.Forall₂ Refines values (operands.take values.length) := by
  rwa [h.length_eq, List.take_length]

def State.Tells (s : State) (node : Node) : Prop :=
  ∃ event ∈ s.events, event.node.Tells node

theorem State.Tells.mono {s t : State} {node : Node} (h : s.Tells node)
    (hst : s.events <:+ t.events) : t.Tells node := by
  obtain ⟨event, hmem, htells⟩ := h
  exact ⟨event, hst.subset hmem, htells⟩

-- The state describes the values of the readable variables, and of constants it knows
-- no more than the language.
structure State.Describes (readable : String → Prop) (s : State) (σ : Store) : Prop where
  constants : s.constants = []
  value name v : readable name → σ.Holds name v → v.val.Refines (s.valueOf name)

namespace State.Describes

variable {readable : String → Prop} {s t : State} {σ : Store}

theorem of_eq (h : s.Describes readable σ) (hscope : t.scope = s.scope)
    (hconstants : t.constants = s.constants) : t.Describes readable σ where
  constants := hconstants.trans h.constants
  value name v hname hv := by
    rw [State.valueOf, hscope]
    exact h.value name v hname hv

theorem idle (h : s.Describes readable σ) {α : Type} {x : Eval α} (hx : x.Idle) {a : α}
    (ht : x s = .ok a t) : t.Describes readable σ := by
  have hscope := hx.scope s
  have hconstants := hx.constants s
  rw [EStateM.after_of_ok ht] at hscope hconstants
  refine ⟨hconstants.trans h.constants, fun name v hname hv => ?_⟩
  rw [State.valueOf, hscope name (by simp)]
  exact h.value name v hname hv

theorem put (h : s.Describes readable σ) (name : String) {v : Datum} {told : Value}
    (hv : v.val.Refines told) :
    State.Describes readable { s with scope := s.scope.put name told } (σ.put name v) where
  constants := h.constants
  value other w hother hw := by
    simp only [State.valueOf, Entries.get?_put]
    by_cases hname : other = name
    · have hwv : v = w := hw v (by simp [Store.put, hname])
      simpa [hname, ← hwv] using hv
    · rw [if_neg hname]
      refine h.value other w hother fun u hu => hw u ?_
      simpa [Store.put, hname] using hu

-- What may have been assigned is forgotten, and all else is as it was.
theorem forget (h : t.Describes readable σ) {names : List String} (hst : Unassigned names s t)
    {u : State} (hscope : u.scope = s.scope.forget names) (hconstants : u.constants = []) :
    u.Describes readable σ where
  constants := hconstants
  value name v hname hv := by
    simp only [State.valueOf, hscope, Scope.get?_forget]
    by_cases hmem : name ∈ names
    · rw [if_pos hmem]
      apply Refines.ofOpen
      cases s.scope.get? name <;> rfl
    · rw [if_neg hmem, ← hst name hmem]
      exact h.value name v hname hv

end State.Describes

open Eval
open EStateM (bind_eq_ok_iff)

-- Whatever a run does from a store that is described, the step of the analysis tells of
-- the nodes that are reached, and the results are related.
def Sound {α β : Type} (readable : String → Prop) (m : Run α) (x : Eval β)
    (Q : α → β → State → Store → Prop) : Prop :=
  ∀ ⦃σ s b t⦄, s.Describes readable σ → x s = .ok b t → ∀ ⦃trace outcome⦄, m σ trace outcome →
    (∀ node ∈ trace, t.Tells node) ∧ ∀ a τ, outcome = some (a, τ) → Q a b t τ

-- The results meet a relation, and the state at the end describes the store at the end.
def Meets {α β : Type} (readable : String → Prop) (R : α → β → Prop) (a : α) (b : β) (t : State)
    (τ : Store) : Prop :=
  R a b ∧ t.Describes readable τ

def Told (v : Datum) (told : Value) : Prop :=
  v.val.Refines told

section Rules

variable {α β γ δ : Type} {readable : String → Prop} {d : Dispatcher}

-- A run that reaches no node and gives a result.
theorem tells_of_some {Q : α → Store → Prop} {t : State} {a : α} {τ : Store} (h : Q a τ) :
    (∀ node ∈ ([] : List Node), t.Tells node) ∧
      ∀ a' τ', some (a, τ) = some (a', τ') → Q a' τ' := by
  refine ⟨by simp, ?_⟩
  rintro _ _ ⟨⟩
  exact h

theorem sound_pure {R : α → β → Prop} {a : α} {b : β} (h : R a b) :
    Sound readable (pure a : Run α) (pure b) (Meets readable R) := by
  rintro σ s _ _ hs hx trace outcome ⟨rfl, rfl⟩
  cases hx
  exact tells_of_some ⟨h, hs⟩

theorem Sound.imp {m : Run α} {x : Eval β} {P Q : α → β → State → Store → Prop}
    (h : Sound readable m x P) (hPQ : ∀ a b t τ, P a b t τ → Q a b t τ) : Sound readable m x Q := by
  intro σ s b t hs hx trace outcome hrun
  obtain ⟨htells, hP⟩ := h hs hx hrun
  exact ⟨htells, fun a τ ho => hPQ a b t τ (hP a τ ho)⟩

theorem Sound.map {m : Run α} {x : Eval β} {P : α → β → State → Store → Prop}
    {Q : γ → β → State → Store → Prop} (f : α → γ) (h : Sound readable m x P)
    (hPQ : ∀ a b t τ, P a b t τ → Q (f a) b t τ) :
    Sound readable (m >>= fun a => pure (f a)) x Q := by
  rintro σ s b t hs hx trace outcome (⟨hstop, rfl⟩ | ⟨a, τ, first, rest, hfirst, ⟨rfl, rfl⟩, rfl⟩)
  · exact ⟨(h hs hx hstop).1, by rintro a τ ⟨⟩⟩
  · obtain ⟨htells, hP⟩ := h hs hx hfirst
    rw [List.append_nil]
    refine ⟨htells, ?_⟩
    rintro _ _ ⟨⟩
    exact hPQ a b t τ (hP a τ rfl)

theorem Sound.bind {m : Run α} {f : α → Run γ} {x : Eval β} {g : β → Eval δ} {R : α → β → Prop}
    {Q : γ → δ → State → Store → Prop} [∀ b, Grows (g b)]
    (hm : Sound readable m x (Meets readable R))
    (hf : ∀ a b, R a b → Sound readable (f a) (g b) Q) : Sound readable (m >>= f) (x >>= g) Q := by
  intro σ s b u hs hx trace outcome hrun
  obtain ⟨b', t, hxt, hgu⟩ := bind_eq_ok_iff.mp hx
  have hgrow := Grows.suffix hgu
  rcases hrun with ⟨hstop, rfl⟩ | ⟨a, τ, first, rest, hfirst, hrest, rfl⟩
  · refine ⟨fun node hnode => ((hm hs hxt hstop).1 node hnode).mono hgrow, ?_⟩
    rintro a τ ho
    cases ho
  · obtain ⟨htells, hmeets⟩ := hm hs hxt hfirst
    obtain ⟨hR, ht⟩ := hmeets a τ rfl
    obtain ⟨htells', hQ⟩ := hf a b' hR ht hgu hrest
    refine ⟨fun node hnode => ?_, hQ⟩
    rcases List.mem_append.mp hnode with h | h
    · exact (htells node h).mono hgrow
    · exact htells' node h

-- Steps of the analysis that the run leaves out must not change what is known.
theorem Sound.after {m : Run α} {x : Eval β} {g : β → Eval γ}
    {Q : α → γ → State → Store → Prop} (hx : x.Idle) (hg : ∀ b, Sound readable m (g b) Q) :
    Sound readable m (x >>= g) Q := by
  intro σ s b u hs hxg
  obtain ⟨b', t, hxt, hgu⟩ := bind_eq_ok_iff.mp hxg
  exact hg b' (hs.idle hx hxt) hgu

theorem sound_idle {R : α → β → Prop} {x : Eval β} {a : α} (hx : x.Idle) (hR : ∀ b, R a b) :
    Sound readable (pure a : Run α) x (Meets readable R) := by
  rintro σ s b t hs hxt trace outcome ⟨rfl, rfl⟩
  exact tells_of_some ⟨hR b, hs.idle hx hxt⟩

-- A choice that the analysis does not make.
theorem Sound.ofChoice {told : Value} {f : Datum → Run α} {x : Eval β}
    {Q : α → β → State → Store → Prop}
    (h : ∀ v : Datum, v.val.Refines told → Sound readable (f v) x Q) :
    Sound readable (choose told >>= f) x Q := by
  rintro σ s b t hs hx trace outcome (⟨⟨_, v, _, ho⟩, _⟩ | ⟨a, τ, first, rest, hfirst, hrest, rfl⟩)
  · cases ho
  · obtain ⟨rfl, v, hv, ho⟩ := hfirst
    cases ho
    exact h _ hv hs hx hrest

theorem Sound.either {m n : Run α} {x : Eval β} {Q : α → β → State → Store → Prop}
    (hm : Sound readable m x Q) (hn : Sound readable n x Q) :
    Sound readable (either m n) x Q := by
  rintro σ s b t hs hx trace outcome (hrun | hrun)
  · exact hm hs hx hrun
  · exact hn hs hx hrun

theorem sound_reach {reached node : Node} (h : node.Tells reached) :
    Sound readable (reach reached) (visit d node) (Meets readable fun _ _ => True) := by
  rintro σ s _ _ hs hx trace outcome ⟨rfl, ho⟩
  cases hx
  refine ⟨?_, ?_⟩
  · rintro node hnode
    cases List.mem_singleton.mp hnode
    exact ⟨_, List.mem_cons_self, h⟩
  · rintro a τ rfl
    rcases ho with ho | ho <;> cases ho
    exact ⟨trivial, hs.of_eq rfl rfl⟩

theorem sound_choose {told value : Value} (h : told.Refines value) :
    Sound readable (choose told) (pure value) (Meets readable Told) := by
  rintro σ s _ _ hs hx trace outcome ⟨rfl, v, hv, rfl⟩
  cases hx
  exact tells_of_some ⟨hv.trans h, hs⟩

theorem sound_read {name : String} (hname : readable name) :
    Sound readable (read name) (do return (← get).valueOf name) (Meets readable Told) := by
  rintro σ s _ _ hs hx trace outcome ⟨rfl, v, hv, rfl⟩
  cases hx
  exact tells_of_some ⟨hs.value name v hname hv, hs⟩

theorem sound_constant (name : String) :
    Sound readable (choose (State.constant {} name)) (do return (← get).constant name)
      (Meets readable Told) := by
  rintro σ s _ _ hs hx trace outcome ⟨rfl, v, hv, rfl⟩
  cases hx
  refine tells_of_some ⟨?_, hs⟩
  rw [Told, State.constant, hs.constants]
  exact hv

theorem sound_write (name : String) {v : Datum} {told : Value} (hv : v.val.Refines told) :
    Sound readable (write name v) (bindVariable name told) (Meets readable fun _ _ => True) := by
  rintro σ s _ _ hs hx trace outcome ⟨rfl, rfl⟩
  cases hx
  exact tells_of_some ⟨trivial, hs.put name hv⟩

theorem sound_choose_operate {op : BinaryOp} {told a b : Value} {location : Location}
    (h : told.Refines (Value.binary op a b).value) :
    Sound readable (choose told) (operate op a b location) (Meets readable Told) := by
  rintro σ s _ t hs hx trace outcome ⟨rfl, v, hv, rfl⟩
  rw [operate_apply] at hx
  cases hx
  refine tells_of_some ⟨hv.trans h, hs.of_eq ?_ ?_⟩ <;> cases (Value.binary op a b).hazard <;> rfl

theorem sound_operate (op : BinaryOp) {v w : Datum} {a b : Value} (location : Location)
    (ha : v.val.Refines a) (hb : w.val.Refines b) :
    Sound readable (op.runs v w) (operate op a b location) (Meets readable Told) := by
  unfold BinaryOp.runs
  split
  case isFalse =>
    rintro σ s _ _ hs hx trace outcome ⟨rfl, rfl⟩
    exact ⟨by simp, by rintro a τ ⟨⟩⟩
  case isTrue hruns =>
    apply sound_choose_operate
    simp only [BinaryOp.runsOn, Bool.and_eq_true, Option.isNone_iff_eq_none, Bool.not_eq_true',
      Bool.and_eq_false_iff] at hruns
    refine refines_binary op (isVague_datum v) (isVague_datum w) ha hb hruns.1 ?_
    intro hop y hy
    rcases hruns.2 with hshift | hamount
    · rcases hop with rfl | rfl <;> cases hshift
    · simpa [hy] using hamount

theorem refines_decided {op : BinaryOp} {v : Datum} {a : Value} {b : Bool}
    (ha : v.val.Refines a) (hop : op.decided? v.isTrue = some b) (other : Value) :
    Refines (.bool b) (Value.binary op a other).value := by
  have htruth := ha.truthy? (isVague_datum v)
  rw [truthy?_datum] at htruth
  cases op with
  | booleanAnd | logicalAnd | booleanOr | logicalOr =>
      cases htrue : v.isTrue <;> rw [htrue] at hop htruth <;> cases hop
      simp only [Value.binary, Value.conjunction, Value.disjunction]
      rcases htruth with h | h <;> rw [h]
      · exact .ofShape rfl
      · exact .refl _
  | _ => cases hop

end Rules

end PhpLint
