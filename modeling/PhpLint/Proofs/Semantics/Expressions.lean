import PhpLint.Proofs.Semantics.Coverage

namespace PhpLint

open Run Eval
open Value (isVague_datum refines_unary refines_cast refines_element refines_ofElements)

-- If the right operand may be left out, it assigns nothing.
def Expr.skipsNoAssignment : Expr → Bool
  | .binary op _ right _ _ => !op.isConditional || right.assigned.isEmpty
  | _ => true

-- Expressions that read the given variables only.
structure Admits (readable : String → Prop) (parts : List Expr) : Prop where
  skips part : part ∈ parts → part.skipsNoAssignment = true
  reads name location : Expr.var name location ∈ parts → readable name

section Expressions

variable {readable : String → Prop} {d : Dispatcher}

theorem Admits.mono {parts some : List Expr} (h : Admits readable parts) (hsub : some ⊆ parts) :
    Admits readable some :=
  ⟨fun p hp => h.skips p (hsub hp), fun name location hp => h.reads name location (hsub hp)⟩

theorem sound_held {target : Expr}
    (hreads : ∀ name location, target = .var name location → readable name) :
    Sound readable target.held (current target) (Meets readable Told) := by
  cases target with
  | var name location => exact sound_read (hreads name location rfl)
  | _ => exact sound_choose (.refl _)

theorem sound_takes (target : Expr) {v : Datum} {told : Value} (hv : v.val.Refines told) :
    Sound readable (target.takes v) (store target told) (Meets readable fun _ _ => True) := by
  cases target with
  | var name location =>
      simp only [store, Expr.takes]
      split
      · rintro σ s _ _ hs hx
        cases hx
      · exact sound_write name hv
  | element container _ _ | slot container _ =>
      simp only [store, Expr.takes]
      cases container.root? with
      | none => exact sound_pure trivial
      | some name =>
          exact .ofChoice fun v hv => sound_write name hv
  | _ => exact sound_pure trivial

mutual
theorem sound_evaluate : ∀ e : Expr, Admits readable e.parts →
    Sound readable e.runs (evaluate d e) (Meets readable Told)
  | .literal value _, _ => by
      rw [evaluate, Expr.runs]
      exact .bind (sound_reach (.expr .nil)) fun _ _ _ => sound_choose (.refl _)
  | .var name location, h => by
      have hname : readable name := h.reads name location (by simp [Expr.parts])
      rw [evaluate, Expr.runs]
      exact .bind (sound_reach (.expr .nil)) fun _ _ _ => sound_read hname
  | .constant name _, _ => by
      rw [evaluate, Expr.runs]
      exact .bind (sound_reach (.expr .nil)) fun _ _ _ => sound_constant name
  | .assign op target value location, h => by
      have htarget := sound_locates target (h.mono (by simp [Expr.parts]))
      have hvalue := sound_evaluate value (h.mono (by simp [Expr.parts]))
      have hreads name location : target = .var name location → readable name := by
        rintro rfl
        exact h.reads name location (by simp [Expr.parts])
      rw [evaluate]
      split
      case isFalse =>
        rintro σ s _ _ hs hx
        cases hx
      case isTrue =>
        rw [Expr.runs]
        cases op with
        | none =>
            refine .bind htarget fun _ _ _ => .bind hvalue fun v told hv => ?_
            refine .bind (sound_reach (.expr (.cons hv .nil))) fun _ _ _ => ?_
            refine .bind (sound_pure hv) fun v told hv => ?_
            exact .bind (sound_takes target hv) fun _ _ _ => sound_pure hv
        | some op =>
            refine .bind htarget fun _ _ _ => .bind hvalue fun v told hv => ?_
            refine .bind (sound_reach (.expr (.cons hv .nil))) fun _ _ _ => ?_
            refine .bind (sound_held hreads) fun w held hw => ?_
            refine .bind (sound_operate op location hw hv) fun v told hv => ?_
            exact .bind (sound_takes target hv) fun _ _ _ => sound_pure hv
  | .binary op left right location opLocation, h => by
      have hleft := sound_evaluate left (h.mono (by simp [Expr.parts]))
      have hright := sound_evaluate right (h.mono (by simp [Expr.parts]))
      rw [evaluate, Expr.runs]
      refine .bind hleft fun v told hv => ?_
      split
      case h_1 b hb =>
        have hskips := h.skips (.binary op left right location opLocation) (by simp [Expr.parts])
        have hnone : right.assigned = [] := by
          simpa [Expr.skipsNoAssignment, BinaryOp.isConditional_of_decided? hb] using hskips
        refine .after (idle_evaluate hnone) fun other => ?_
        refine .bind (sound_reach (.expr (.cons hv .nil))) fun _ _ _ => ?_
        exact sound_choose_operate (refines_decided hv hb other)
      case h_2 =>
        refine .bind hright fun w told' hw => ?_
        refine .bind (sound_reach (.expr (.cons hv (.cons hw .nil)))) fun _ _ _ => ?_
        exact sound_operate op location hv hw
  | .unary op operand _ _, h => by
      rw [evaluate, Expr.runs]
      refine .bind (sound_evaluate operand (h.mono (by simp [Expr.parts]))) fun v told hv => ?_
      refine .bind (sound_reach (.expr (.cons hv .nil))) fun _ _ _ => ?_
      exact sound_choose (refines_unary op (isVague_datum v) hv)
  | .cast type operand _, h => by
      rw [evaluate, Expr.runs]
      refine .bind (sound_evaluate operand (h.mono (by simp [Expr.parts]))) fun v told hv => ?_
      refine .bind (sound_reach (.expr (.cons hv .nil))) fun _ _ _ => ?_
      exact sound_choose (refines_cast type (isVague_datum v) hv)
  | .array items _ _, h => by
      rw [evaluate, Expr.runs]
      refine .bind (sound_items items (h.mono (by simp [Expr.parts]))) fun elements told hv => ?_
      have hvalues : List.Forall₂ Value.Refines (elements.map Prod.snd) (told.map Prod.snd) := by
        simpa using hv.imp fun _ _ h => h.value
      refine .bind (sound_reach (.expr (refines_take hvalues))) fun _ _ _ => ?_
      exact sound_choose (refines_ofElements hv)
  | .call _ arguments _, h | .staticCall _ _ arguments _, h | .new _ arguments _, h => by
      rw [evaluate, Expr.runs]
      refine .bind (sound_list arguments (h.mono (by simp [Expr.parts]))) fun values told hv => ?_
      exact .bind (sound_reach (.expr (refines_take hv))) fun _ _ _ => sound_choose (.refl _)
  | .methodCall object _ arguments _, h => by
      rw [evaluate, Expr.runs]
      refine .bind (sound_evaluate object (h.mono (by simp [Expr.parts]))) fun _ _ _ => ?_
      refine .bind (sound_list arguments (h.mono (by simp [Expr.parts]))) fun values told hv => ?_
      exact .bind (sound_reach (.expr (refines_take hv))) fun _ _ _ => sound_choose (.refl _)
  | .property object _ _, h => by
      rw [evaluate, Expr.runs]
      refine .bind (sound_evaluate object (h.mono (by simp [Expr.parts]))) fun v told hv => ?_
      exact .bind (sound_reach (.expr (.cons hv .nil))) fun _ _ _ => sound_choose (.refl _)
  | .element container index _, h => by
      rw [evaluate, Expr.runs]
      refine .bind (sound_evaluate container (h.mono (by simp [Expr.parts]))) fun v told hv => ?_
      refine .bind (sound_evaluate index (h.mono (by simp [Expr.parts]))) fun w told' hw => ?_
      refine .bind (sound_reach (.expr (.cons hv (.cons hw .nil)))) fun _ _ _ => ?_
      exact sound_choose (refines_element hv hw)
  | .slot .., _ | .invalid .., _ => by
      rw [evaluate]
      rintro σ s _ _ hs hx
      cases hx
  | .interpolated .., _ => by
      rw [evaluate, Expr.runs]
      exact .bind (sound_reach (.expr .nil)) fun _ _ _ => sound_choose (.refl _)

theorem sound_locates : ∀ target : Expr, Admits readable target.parts →
    Sound readable target.locates (evaluateTarget d target) (Meets readable fun _ _ => True)
  | .property object _ _, h => by
      rw [evaluateTarget, Expr.locates]
      exact .bind (sound_evaluate object (h.mono (by simp [Expr.parts]))) fun _ _ _ =>
        sound_pure trivial
  | .element container index _, h => by
      rw [evaluateTarget, Expr.locates]
      refine .bind (sound_locates container (h.mono (by simp [Expr.parts]))) fun _ _ _ => ?_
      exact .bind (sound_evaluate index (h.mono (by simp [Expr.parts]))) fun _ _ _ =>
        sound_pure trivial
  | .slot container _, h => by
      rw [evaluateTarget, Expr.locates]
      exact sound_locates container (h.mono (by simp [Expr.parts]))
  | .literal .., _ | .var .., _ | .constant .., _ | .assign .., _ | .binary .., _ | .unary .., _
  | .cast .., _ | .array .., _ | .call .., _ | .methodCall .., _ | .staticCall .., _ | .new .., _
  | .interpolated .., _ | .invalid .., _ => by
      rw [evaluateTarget, Expr.locates]
      · exact sound_pure trivial
      all_goals simp

theorem sound_list : ∀ es : List Expr, Admits readable (listParts es) →
    Sound readable (listRuns es) (evaluateAll d es) (Meets readable (List.Forall₂ Value.Refines))
  | [], _ => by
      rw [evaluateAll, listRuns]
      exact sound_pure .nil
  | e :: es, h => by
      rw [evaluateAll, listRuns]
      refine .bind (sound_evaluate e (h.mono (by simp [listParts]))) fun v told hv => ?_
      refine .bind (sound_list es (h.mono (by simp [listParts]))) fun vs tolds hvs => ?_
      exact sound_pure (.cons hv hvs)

theorem sound_items : ∀ items : List ArrayItem, Admits readable (itemParts items) →
    Sound readable (itemsRuns items) (evaluateItems d items)
      (Meets readable (List.Forall₂ Value.ElementRefines))
  | [], _ => by
      rw [evaluateItems, itemsRuns]
      exact sound_pure .nil
  | .plain value :: items, h => by
      rw [evaluateItems, itemsRuns]
      refine .bind (sound_evaluate value (h.mono (by simp [itemParts]))) fun v told hv => ?_
      refine .bind (sound_items items (h.mono (by simp [itemParts]))) fun vs tolds hvs => ?_
      exact sound_pure (.cons ⟨.none, hv⟩ hvs)
  | .keyed key value :: items, h => by
      rw [evaluateItems, itemsRuns]
      refine .bind (sound_evaluate key (h.mono (by simp [itemParts]))) fun k toldKey hk => ?_
      refine .bind (sound_evaluate value (h.mono (by simp [itemParts]))) fun v told hv => ?_
      refine .bind (sound_items items (h.mono (by simp [itemParts]))) fun vs tolds hvs => ?_
      exact sound_pure (.cons ⟨.some hk, hv⟩ hvs)
end

end Expressions

end PhpLint
