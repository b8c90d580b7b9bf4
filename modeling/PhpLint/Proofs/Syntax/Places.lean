import PhpLint.Proofs.Source.Coordinates
import PhpLint.Proofs.Syntax.Onset
import PhpLint.Proofs.Syntax.StatementLayout

namespace PhpLint

-- The region and the comment that documents it are at places of this kind.
structure Region.IsAt (G : Location → Prop) (r : Region) : Prop where
  location : G r.location
  doc : ∀ doc, r.doc? = some doc → G doc.location

namespace Syntax

open PhpLint.Syntax.Parser

-- All that a stream tells is at places of this kind.
structure Stream.IsAt (G : Location → Prop) (s : Stream) : Prop where
  items : ∀ item ∈ s.items, G item.location
  docs : ∀ place doc, s.docs.get? place = some doc → G doc.location
  last : G s.last
  errors : ∀ error ∈ s.errors, G error.location

section Places

variable {G : Location → Prop}

theorem Stream.IsAt.tail {item : Item} {rest : List Item} {last : Location} {docs : Docs}
    {errors : List SyntaxError} (h : (⟨item :: rest, last, docs, errors⟩ : Stream).IsAt G) :
    (⟨rest, item.location, docs, errors⟩ : Stream).IsAt G where
  items other hother := h.items other (List.mem_cons_of_mem item hother)
  docs := h.docs
  last := h.items item List.mem_cons_self
  errors := h.errors

theorem Stream.IsAt.withdrawn {items : List Item} {last : Location} {docs : Docs}
    {errors : List SyntaxError} (h : (⟨items, last, docs, errors⟩ : Stream).IsAt G) (place : Nat) :
    (⟨items, last, docs.remove place, errors⟩ : Stream).IsAt G where
  items := h.items
  docs other doc hdoc := by
    rw [Entries.get?_remove] at hdoc
    split at hdoc
    · cases hdoc
    · exact h.docs other doc hdoc
  last := h.last
  errors := h.errors

theorem Stream.IsAt.report {s : Stream} {error : SyntaxError} (h : s.IsAt G)
    (herror : G error.location) : { s with errors := error :: s.errors }.IsAt G where
  items := h.items
  docs := h.docs
  last := h.last
  errors := List.forall_mem_cons.mpr ⟨herror, h.errors⟩

theorem Stream.IsAt.missing {item : Item} {rest : List Item} {last : Location} {docs : Docs}
    {errors : List SyntaxError} (h : (⟨item :: rest, last, docs, errors⟩ : Stream).IsAt G) :
    (⟨item :: rest, last, docs, .unexpectedToken .expression item.location :: errors⟩ :
      Stream).IsAt G :=
  h.report (h.items item List.mem_cons_self)

instance : Passage fun s t => s.IsAt G → t.IsAt G where
  refl _ := id
  trans _ _ _ hst htu := htu ∘ hst
  taken _ _ _ _ _ := Stream.IsAt.tail

instance : Motion fun s t => s.IsAt G → t.IsAt G where
  missing _ _ _ _ _ := Stream.IsAt.missing

instance : Filing fun s t => s.IsAt G → t.IsAt G where
  withdrawn h _ hs := h (hs.withdrawn _)

theorem isAt_region {r : Region} {v : List Region} (hinner : r.inner = v)
    (hv : ∀ x ∈ v, x.Throughout (Region.IsAt G)) (hlocation : G r.location)
    (hdoc : ∀ doc, r.doc? = some doc → G doc.location) :
    ∀ x ∈ [r], x.Throughout (Region.IsAt G) := by
  intro x hx
  rw [List.mem_singleton.mp hx]
  exact .intro ⟨hlocation, hdoc⟩ (hinner ▸ hv)

theorem isAt_leaf {r : Region} (hinner : r.inner = []) (hlocation : G r.location)
    (hdoc : r.doc? = none) : ∀ x ∈ [r], x.Throughout (Region.IsAt G) :=
  isAt_region hinner (by simp) hlocation (Region.forall_doc hdoc)

variable (hcover : ∀ a b, G a → G b → G (a.cover b))

include hcover

-- By induction on how the regions come about: their places are made of those of items.
theorem Lays.isAt {s t : Stream} {v : List Region} (h : Lays s v t) (hs : s.IsAt G) :
    t.IsAt G ∧ ∀ r ∈ v, r.Throughout (Region.IsAt G) := by
  induction h with
  | refl => exact ⟨hs, by simp⟩
  | trans _ _ ihst ihtu =>
      obtain ⟨ht, hv⟩ := ihst hs
      obtain ⟨hu, hw⟩ := ihtu ht
      exact ⟨hu, List.forall_mem_append.mpr ⟨hv, hw⟩⟩
  | taken => exact ⟨hs.tail, by simp⟩
  | missing item =>
      exact ⟨hs.missing, isAt_leaf rfl (hs.items item List.mem_cons_self) rfl⟩
  | withdrawn _ _ ih => exact ih (hs.withdrawn _)
  | @opened item _ _ _ _ _ _ _ _ hinner _ hlocation hdeclaration ih =>
      have hitem := hs.items item List.mem_cons_self
      obtain ⟨ht, hv⟩ := ih hs.tail
      refine ⟨ht, isAt_region hinner hv ?_ (Region.forall_doc (Region.doc?_eq_none hdeclaration))⟩
      rw [hlocation]
      exact hcover _ _ hitem ht.last
  | @declared item _ _ _ _ _ _ _ _ hinner _ hlocation _ hhead ih =>
      have hitem := hs.items item List.mem_cons_self
      obtain ⟨ht, hv⟩ := ih (hs.withdrawn _).tail
      refine ⟨ht, isAt_region hinner hv ?_ fun doc h => hs.docs _ doc (hhead.doc ▸ h)⟩
      rw [hlocation]
      exact hcover _ _ hitem ht.last
  | @front item _ _ _ _ _ _ _ _ _ hinner _ _ hlocation hdeclaration ih =>
      have hitem := hs.items item List.mem_cons_self
      obtain ⟨ht, hv⟩ := ih hs
      refine ⟨ht, isAt_region hinner hv ?_ (Region.forall_doc (Region.doc?_eq_none hdeclaration))⟩
      rw [hlocation]
      exact hcover _ _ hitem ht.last
  | @called item _ _ _ _ e name v _ _ hinner hname hlocation ih =>
      have hitem := hs.items item List.mem_cons_self
      obtain ⟨ht, hv⟩ := ih hs.tail
      have hleaf : ∀ x ∈ [Region.name name], x.Throughout (Region.IsAt G) := by
        refine isAt_leaf rfl ?_ rfl
        rwa [Region.location, hname]
      refine ⟨ht, isAt_region hinner ?_ ?_ (Region.forall_doc rfl)⟩
      · exact List.forall_mem_append.mpr ⟨hleaf, hv⟩
      · rw [Region.location_expr, hlocation]
        exact hcover _ _ hitem ht.last
  | @prefixed item _ _ _ _ _ operand _ _ hinner _ hlocation ih =>
      have hitem := hs.items item List.mem_cons_self
      obtain ⟨ht, hv⟩ := ih hs.tail
      refine ⟨ht, isAt_region hinner hv ?_ (Region.forall_doc rfl)⟩
      rw [Region.location_expr, hlocation]
      exact hcover _ _ hitem (hv _ (List.mem_singleton_self _)).self.location
  | extended _ _ hinner _ hlocation ihst ihtu =>
      obtain ⟨hu, hfirst⟩ := ihst hs
      obtain ⟨ht, hv⟩ := ihtu hu.tail
      refine ⟨ht, isAt_region hinner ?_ ?_ (Region.forall_doc rfl)⟩
      · exact List.forall_mem_append.mpr ⟨hfirst, hv⟩
      · rw [Region.location_expr, hlocation]
        exact hcover _ _ (hfirst _ (List.mem_singleton_self _)).self.location ht.last
  | joined _ hinner _ hlocation ih =>
      obtain ⟨ht, hv⟩ := ih hs
      refine ⟨ht, isAt_region hinner hv ?_ (Region.forall_doc rfl)⟩
      rw [Region.location_expr, hlocation]
      exact hcover _ _ (hv _ List.mem_cons_self).self.location (hv _ (by simp)).self.location

-- By induction on the rounds. A statement that fails leaves an error at the last place, and an
-- invalid statement from its first item up to there.
theorem isAt_program (rounds : Nat) {s : Stream} (hs : s.IsAt G) :
    (∀ statement ∈ (program rounds s).1, (Region.stmt statement).Throughout (Region.IsAt G)) ∧
      ∀ error ∈ (program rounds s).2, G error.location := by
  induction rounds generalizing s with
  | zero => exact ⟨by simp [program], by simpa [program] using hs.errors⟩
  | succ rounds ih =>
      obtain ⟨items, last, docs, errors⟩ := s
      cases items with
      | nil =>
          rw [program_of_nil rfl]
          exact ⟨by simp, by simpa using hs.errors⟩
      | cons item rest =>
          have hitems : item :: rest ≠ [] := List.cons_ne_nil item rest
          cases h : statementAt maxDepth ⟨item :: rest, last, docs, errors⟩ with
          | ok statement t =>
              obtain ⟨ht, hv⟩ := (gives_statementAt maxDepth _ h).lays.isAt hcover hs
              obtain ⟨hrest, herrors⟩ := ih ht
              rw [program_of_ok hitems h]
              refine ⟨List.forall_mem_append.mpr ⟨fun result hresult => ?_, hrest⟩, herrors⟩
              exact hv _ (List.mem_map_of_mem hresult)
          | error error t =>
              have hmoves : Moves (fun s t => s.IsAt G → t.IsAt G) (statementAt maxDepth) :=
                inferInstance
              have ht : t.IsAt G := by
                have hkeeps := hmoves.keeps ⟨item :: rest, last, docs, errors⟩
                rw [EStateM.after, h] at hkeeps
                exact hkeeps hs
              have herror : G error.location := hmoves.failure h ▸ ht.last
              have hresume := moves_resume (R := fun s t => s.IsAt G → t.IsAt G)
                (fun _ => ht) (fun u hu => hu.report herror) hs
              obtain ⟨hrest, herrors⟩ := ih hresume
              rw [program_cons_of_error h]
              refine ⟨List.forall_mem_cons.mpr ⟨?_, hrest⟩, herrors⟩
              have hplace := hcover _ _ (hs.items item List.mem_cons_self) ht.last
              exact isAt_leaf rfl hplace rfl _ (List.mem_singleton_self _)

end Places

-- Comments are filed as they are.
theorem isAt_fileDocs {G : Location → Prop} {lexemes : List Lexeme}
    (h : ∀ lexeme ∈ lexemes, G lexeme.location) {pending : Option DocComment}
    (hpending : ∀ doc, pending = some doc → G doc.location) {docs : Docs}
    (hdocs : ∀ place doc, docs.get? place = some doc → G doc.location) :
    ∀ place doc, (fileDocs pending docs lexemes).get? place = some doc → G doc.location := by
  fun_induction fileDocs pending docs lexemes with
  | case1 => exact hdocs
  | case2 pending docs lexeme rest doc hdoc ih =>
      obtain ⟨hlexeme, hrest⟩ := List.forall_mem_cons.mp h
      refine ih hrest ?_ hdocs
      rintro _ ⟨⟩
      unfold Lexeme.doc? at hdoc
      split at hdoc <;> cases hdoc
      exact hlexeme
  | case3 pending docs lexeme rest hdoc ih =>
      obtain ⟨hlexeme, hrest⟩ := List.forall_mem_cons.mp h
      refine ih hrest (by simp) fun place doc hplace => ?_
      cases pending with
      | none => exact hdocs place doc hplace
      | some filed =>
          rw [Option.elim_some, Entries.get?_put] at hplace
          split at hplace
          · exact hpending doc hplace
          · exact hdocs place doc hplace

end Syntax

open Syntax

-- It does not matter what the last place is before the first item is taken.
theorem isAt_parse {G : Location → Prop} (hcover : ∀ a b, G a → G b → G (a.cover b))
    {lexemes : List Lexeme} (h : ∀ lexeme ∈ lexemes, G lexeme.location) :
    (∀ statement ∈ (parse lexemes).1, (Region.stmt statement).Throughout (Region.IsAt G)) ∧
      ∀ error ∈ (parse lexemes).2, G error.location := by
  have hitems : ∀ item ∈ itemsOf lexemes, G item.location := fun item hitem =>
    h item (List.mem_filter.mp hitem).1
  have hdocs := @isAt_fileDocs G lexemes h none (by simp) [] (by rintro _ _ ⟨⟩)
  cases hsome : itemsOf lexemes with
  | nil =>
      rw [parse_eq lexemes default, hsome, program_of_nil rfl]
      exact ⟨by simp, by simp⟩
  | cons item rest =>
      rw [parse_eq lexemes item.location, hsome]
      rw [hsome] at hitems
      exact isAt_program hcover _ ⟨hitems, hdocs, hitems item List.mem_cons_self, by simp⟩

theorem isCoherent_parseSource (source file : String) :
    (∀ statement ∈ (parseSource source file).1,
      (Region.stmt statement).Throughout (Region.IsAt (Location.IsCoherent source file))) ∧
    ∀ error ∈ (parseSource source file).2, error.location.IsCoherent source file :=
  isAt_parse (fun _ _ => Location.IsCoherent.cover) fun _ => isCoherent_of_mem_lex

end PhpLint
