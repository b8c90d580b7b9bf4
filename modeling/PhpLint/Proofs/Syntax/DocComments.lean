import Mathlib.Data.List.Forall2
import PhpLint.Proofs.Syntax.CallPlaces
import PhpLint.Proofs.Syntax.Composition

namespace PhpLint

-- The declarations in a statement in the order of the source, each in front of those that
-- stand inside it.
mutual
def Stmt.declarations : Stmt → List Region
  | .ifThen _ thenBranch _ => thenBranch.declarations
  | .ifElse _ thenBranch elseBranch _ => thenBranch.declarations ++ elseBranch.declarations
  | .loop _ body _ => body.declarations
  | .block ⟨statements, _⟩ => blockDeclarations statements
  | s@(.functionDecl _ ⟨statements, _⟩ _) => .stmt s :: blockDeclarations statements
  | s@(.classDecl _ methods _) => .stmt s :: methodDeclarations methods
  | .expr .. | .echo .. | .ret .. | .html _ | .constDecl .. | .invalid _ => []

def blockDeclarations : List Stmt → List Region
  | [] => []
  | s :: ss => s.declarations ++ blockDeclarations ss

def methodDeclarations : List Method → List Region
  | [] => []
  | method@⟨_, _, none, _⟩ :: methods => .method method :: methodDeclarations methods
  | method@⟨_, _, some ⟨statements, _⟩, _⟩ :: methods =>
    .method method :: (blockDeclarations statements ++ methodDeclarations methods)
end

def Method.declarations (method : Method) : List Region :=
  .method method :: method.body.elim [] fun body => blockDeclarations body.statements

theorem blockDeclarations_eq (ss : List Stmt) :
    blockDeclarations ss = ss.flatMap Stmt.declarations := by
  induction ss with
  | nil => rfl
  | cons s ss ih => simp [blockDeclarations, ih]

theorem methodDeclarations_eq (methods : List Method) :
    methodDeclarations methods = methods.flatMap Method.declarations := by
  induction methods with
  | nil => rfl
  | cons method methods ih =>
      obtain ⟨signature, modifiers, body, location⟩ := method
      cases body with
      | none => simp [methodDeclarations, Method.declarations, ih]
      | some body =>
          obtain ⟨statements, bodyLocation⟩ := body
          simp [methodDeclarations, Method.declarations, ih]

namespace Region

def declarations : Region → List Region
  | stmt s => s.declarations
  | body block => blockDeclarations block.statements
  | method m => m.declarations
  | name _ | operator _ | expr _ | parameter _ => []

-- There are no declarations in an expression.
theorem declarations_inner_expr (e : Expr) : e.inner.flatMap declarations = [] := by
  have hitem (item : ArrayItem) : item.inner.flatMap declarations = [] := by cases item <;> rfl
  cases e <;> simp [Expr.inner, declarations, List.flatMap_map, List.flatMap_assoc, hitem]

theorem declarations_inner_signature (signature : Signature) :
    signature.inner.flatMap declarations = [] := by
  simp [Signature.inner, declarations, List.flatMap_map]

theorem declarations_eq (r : Region) :
    r.declarations = (if r.isDeclaration then [r] else []) ++ r.inner.flatMap declarations := by
  cases r with
  | name | operator => rfl
  | expr e => exact (declarations_inner_expr e).symm
  | parameter p => simp [declarations, isDeclaration, inner, List.flatMap_map]
  | body block =>
      simp [declarations, isDeclaration, inner, List.flatMap_map, blockDeclarations_eq]
  | method m =>
      obtain ⟨signature, modifiers, body, location⟩ := m
      cases body <;>
        simp [declarations, isDeclaration, inner, Method.declarations, declarations_inner_signature]
  | stmt s =>
      cases s with
      | functionDecl signature body location =>
          obtain ⟨statements, bodyLocation⟩ := body
          simp [declarations, isDeclaration, inner, Stmt.declarations, Stmt.inner,
            declarations_inner_signature]
      | classDecl header methods location =>
          simp [declarations, isDeclaration, inner, Stmt.declarations, Stmt.inner,
            ClassHeader.inner, List.flatMap_map, methodDeclarations_eq]
      | block body =>
          obtain ⟨statements, location⟩ := body
          simp [declarations, isDeclaration, inner, Stmt.declarations, Stmt.inner,
            List.flatMap_map, blockDeclarations_eq]
      | _ =>
          simp [declarations, isDeclaration, inner, Stmt.declarations, Stmt.inner,
            List.flatMap_map]

-- By induction on the way down from the root.
theorem IsIn.mem_declarations {r root : Region} (h : r.IsIn root) (hr : r.isDeclaration) :
    r ∈ root.declarations := by
  induction h with
  | refl => simp [declarations_eq r, hr]
  | @inner x root hx _ ih =>
      rw [declarations_eq root]
      exact List.mem_append_right _ (List.mem_flatMap.mpr ⟨x, hx, ih⟩)

end Region

-- A declaration starts with its first lexeme, and the comment that documents it is the
-- lexeme right before that one, if this is a comment.
def Region.IsDocumentedIn (lexemes : List Lexeme) (r : Region) : Prop :=
  ∃ before first after token, lexemes = before ++ first :: after ∧
    first.content = .ok token ∧ r.startsWith token ∧
    r.location.start = first.location.start ∧ r.doc? = before.getLast?.bind Lexeme.doc?

namespace Syntax

-- Comments on items that are left stay where they are.
def Stream.KeepsDocs (s t : Stream) : Prop :=
  t.items <:+ s.items ∧ (s.starts.Pairwise (· < ·) → ∀ item ∈ t.items,
    t.docs.get? item.location.start = s.docs.get? item.location.start)

instance : Passage Stream.KeepsDocs where
  refl s := ⟨List.suffix_rfl, fun _ _ _ => rfl⟩
  trans s t u hst htu := by
    refine ⟨htu.1.trans hst.1, fun hs item hitem => ?_⟩
    have ht : t.starts.Pairwise (· < ·) := hs.sublist (hst.1.map _).sublist
    rw [htu.2 ht item hitem, hst.2 hs item (htu.1.subset hitem)]
  taken item rest last docs errors := ⟨List.suffix_cons item rest, fun _ _ _ => rfl⟩

instance : Motion Stream.KeepsDocs where
  missing _ _ _ _ _ := ⟨List.suffix_rfl, fun _ _ _ => rfl⟩

theorem get?_remove_of_mem {item other : Item} {rest : List Item} (docs : Docs)
    (h : ((item :: rest).map (·.location.start)).Pairwise (· < ·)) (hother : other ∈ rest) :
    (docs.remove item.location.start).get? other.location.start =
      docs.get? other.location.start := by
  have hlt := (List.pairwise_cons.mp h).1 _ (List.mem_map_of_mem hother)
  rw [Entries.get?_remove, if_neg (Nat.ne_of_gt hlt)]

instance : Filing Stream.KeepsDocs where
  withdrawn {item rest last docs errors t} h hpast := by
    refine ⟨h.1, fun hs other hother => ?_⟩
    rw [h.2 hs other hother, get?_remove_of_mem docs hs (hpast.subset hother)]

-- The item that a declaration starts with.
structure IsOpenedBy (docs : Docs) (r : Region) (item : Item) : Prop
    extends IsHeadedBy docs item r where
  start : r.location.start = item.location.start

theorem IsOpenedBy.congr {docs others : Docs} {r : Region} {item : Item}
    (h : IsOpenedBy others r item)
    (hdocs : others.get? item.location.start = docs.get? item.location.start) :
    IsOpenedBy docs r item :=
  ⟨⟨h.doc.trans hdocs, h.token⟩, h.start⟩

-- The declarations start with items that have been taken, each with its own.
def Opens (s : Stream) (declarations : List Region) (t : Stream) : Prop :=
  ∃ taken, s.items = taken ++ t.items ∧ declarations.SublistForall₂ (IsOpenedBy s.docs) taken

theorem opens_nil {s t : Stream} (h : t.items <:+ s.items) : Opens s [] t := by
  obtain ⟨taken, htaken⟩ := h
  exact ⟨taken, htaken.symm, .nil⟩

theorem sublistForall₂_append {α β : Type} {R : α → β → Prop} {as as' : List α} {bs bs' : List β}
    (h : as.SublistForall₂ R bs) (h' : as'.SublistForall₂ R bs') :
    (as ++ as').SublistForall₂ R (bs ++ bs') := by
  obtain ⟨cs, hcs, hsub⟩ := List.sublistForall₂_iff.mp h
  obtain ⟨cs', hcs', hsub'⟩ := List.sublistForall₂_iff.mp h'
  exact List.sublistForall₂_iff.mpr ⟨cs ++ cs', List.rel_append hcs hcs', hsub.append hsub'⟩

theorem sublistForall₂_imp {α β : Type} {R S : α → β → Prop} {as : List α} {bs : List β}
    (h : as.SublistForall₂ R bs) (hRS : ∀ a, ∀ b ∈ bs, R a b → S a b) :
    as.SublistForall₂ S bs := by
  induction h with
  | nil => exact .nil
  | cons hab _ ih =>
      obtain ⟨hb, hbs⟩ := List.forall_mem_cons.mp fun b hb a => hRS a b hb
      exact .cons (hb _ hab) (ih fun a b hb => hbs b hb a)
  | cons_right _ ih => exact .cons_right (ih fun a b hb => hRS a b (List.mem_cons_of_mem _ hb))

theorem exists_of_mem_left {α β : Type} {R : α → β → Prop} {as : List α} {bs : List β}
    (h : as.SublistForall₂ R bs) {a : α} (ha : a ∈ as) : ∃ b ∈ bs, R a b := by
  induction h with
  | nil => cases ha
  | @cons a' b as bs hab _ ih =>
      rcases List.mem_cons.mp ha with rfl | ha
      · exact ⟨b, List.mem_cons_self, hab⟩
      · obtain ⟨c, hc, hac⟩ := ih ha
        exact ⟨c, List.mem_cons_of_mem b hc, hac⟩
  | @cons_right b as bs _ ih =>
      obtain ⟨c, hc, hac⟩ := ih ha
      exact ⟨c, List.mem_cons_of_mem b hc, hac⟩

-- What is the same for what is related keeps its order.
theorem sublist_filterMap {α β γ : Type} {R : α → β → Prop} {as : List α} {bs : List β}
    {f : α → Option γ} {g : β → Option γ} (h : as.SublistForall₂ R bs)
    (hfg : ∀ a b, R a b → f a = g b) : (as.filterMap f).Sublist (bs.filterMap g) := by
  induction h with
  | nil => exact List.nil_sublist _
  | @cons a b as bs hab _ ih =>
      rw [List.filterMap_cons, List.filterMap_cons, hfg a b hab]
      split
      · exact ih
      · exact ih.cons_cons _
  | @cons_right b as bs _ ih => exact ih.trans ((List.sublist_cons_self b bs).filterMap g)

theorem Opens.trans {s t u : Stream} {v w : List Region} (hst : Opens s v t) (htu : Opens t w u)
    (hdocs : ∀ item ∈ t.items, t.docs.get? item.location.start = s.docs.get? item.location.start) :
    Opens s (v ++ w) u := by
  obtain ⟨taken, hitems, hv⟩ := hst
  obtain ⟨more, hmore, hw⟩ := htu
  refine ⟨taken ++ more, ?_, sublistForall₂_append hv (sublistForall₂_imp hw ?_)⟩
  · rw [hitems, hmore, List.append_assoc]
  · intro r item hitem h
    exact h.congr (hdocs item (hmore ▸ List.mem_append_left _ hitem))

section FirstItem

variable {item : Item} {rest : List Item} {last : Location} {docs : Docs}
variable {errors : List SyntaxError} {r : Region} {t : Stream}

theorem opens_opened
    (h : Opens ⟨rest, item.location, docs, errors⟩ (r.inner.flatMap Region.declarations) t)
    (hdeclaration : r.isDeclaration = false) :
    Opens ⟨item :: rest, last, docs, errors⟩ r.declarations t := by
  obtain ⟨taken, hitems, hdeclarations⟩ := h
  refine ⟨item :: taken, congrArg (item :: ·) hitems, ?_⟩
  rw [Region.declarations_eq, hdeclaration]
  exact .cons_right hdeclarations

-- A declaration stands in front of those inside it, and they start behind its first item.
theorem opens_declared (hs : Stream.IsOrdered ⟨item :: rest, last, docs, errors⟩)
    (h : Opens ⟨rest, item.location, docs.remove item.location.start, errors⟩
      (r.inner.flatMap Region.declarations) t)
    (hdeclaration : r.isDeclaration) (hr : IsOpenedBy docs r item) :
    Opens ⟨item :: rest, last, docs, errors⟩ r.declarations t := by
  obtain ⟨taken, hitems, hdeclarations⟩ := h
  refine ⟨item :: taken, congrArg (item :: ·) hitems, ?_⟩
  rw [Region.declarations_eq, if_pos hdeclaration]
  refine .cons hr (sublistForall₂_imp hdeclarations fun other first hfirst hother => ?_)
  have hrest : rest = taken ++ t.items := hitems
  have hmem : first ∈ rest := hrest ▸ List.mem_append_left t.items hfirst
  exact hother.congr (get?_remove_of_mem docs hs.starts hmem)

end FirstItem

-- By induction on how the regions come about.
theorem Lays.opens {s t : Stream} {v : List Region} (h : Lays s v t) (hs : s.IsOrdered) :
    Opens s (v.flatMap Region.declarations) t := by
  induction h with
  | refl s => exact opens_nil List.suffix_rfl
  | trans hlays _ hst htu =>
      have ht := (hlays.track (H := StaysOrdered) hs).isOrdered
      have hdocs := (hlays.passes (R := Stream.KeepsDocs)).2 hs.starts
      rw [List.flatMap_append]
      exact (hst hs).trans (htu ht) hdocs
  | taken item rest last docs errors => exact opens_nil (List.suffix_cons item rest)
  | withdrawn hlays _ _ => exact opens_nil hlays.suffix
  | missing item rest last docs errors => exact opens_nil List.suffix_rfl
  | opened _ hinner _ _ hdeclaration ih =>
      rw [List.flatMap_singleton]
      exact opens_opened (hinner ▸ ih hs.tail) hdeclaration
  | declared hlays hinner _ hlocation hdeclaration hhead ih =>
      have hle := (hlays.track (H := StaysOrdered) hs.tail).last_le
      rw [List.flatMap_singleton]
      refine opens_declared hs (hinner ▸ ih hs.tail) hdeclaration ⟨hhead, ?_⟩
      rw [hlocation, start_cover hle]
  | front _ _ hinner _ _ _ hdeclaration ih =>
      rw [List.flatMap_singleton, Region.declarations_eq, hdeclaration, hinner]
      exact ih hs
  | called h hinner hname hlocation _ =>
      exact opens_nil (Lays.called h hinner hname hlocation).suffix
  | prefixed h hinner hplain hlocation _ =>
      exact opens_nil (Lays.prefixed h hinner hplain hlocation).suffix
  | extended hst htu hinner hplain hlocation _ _ =>
      exact opens_nil (Lays.extended hst htu hinner hplain hlocation).suffix
  | joined h hinner hplain hlocation _ =>
      exact opens_nil (Lays.joined h hinner hplain hlocation).suffix

-- By induction on the rounds. What has been built before a failure is dropped.
theorem declarations_program (rounds : Nat) {s : Stream} (hs : s.IsOrdered) :
    ((program rounds s).1.flatMap Stmt.declarations).SublistForall₂ (IsOpenedBy s.docs)
      s.items := by
  induction rounds generalizing s with
  | zero => exact .nil
  | succ rounds ih =>
      by_cases hitems : s.items = []
      · rw [program_of_nil hitems]
        exact .nil
      · cases h : statementAt maxDepth s with
        | ok statement t =>
            have hlays := (gives_statementAt maxDepth s h).lays
            have hdocs := (hlays.passes (R := Stream.KeepsDocs)).2 hs.starts
            obtain ⟨taken, htaken, hopens⟩ := hlays.opens hs
            have hrest := ih (hlays.track (H := StaysOrdered) hs).isOrdered
            rw [List.flatMap_map] at hopens
            rw [program_of_ok hitems h, List.flatMap_append, htaken]
            refine sublistForall₂_append hopens (sublistForall₂_imp hrest ?_)
            exact fun r item hitem hr => hr.congr (hdocs item hitem)
        | error error t =>
            have hkeeps := moves_resume_of_error (R := Stream.KeepsDocs) h
              fun _ => ⟨List.suffix_rfl, fun _ _ _ => rfl⟩
            obtain ⟨taken, htaken⟩ := hkeeps.1
            obtain ⟨location, hprogram⟩ := exists_program_of_error hitems h
            have hrest := ih (staysOrdered_resume h hs).isOrdered
            rw [hprogram, ← htaken]
            refine sublistForall₂_append .nil (sublistForall₂_imp hrest ?_)
            exact fun r item hitem hr => hr.congr (hkeeps.2 hs.starts item hitem)

-- What is filed under an item is the lexeme right before it, if this is a comment. By
-- induction on the lexemes before it, with the comment that is pending in front of them.
theorem get?_fileDocs {first : Lexeme} (hfirst : first.isDoc = false)
    {before after : List Lexeme}
    (hbefore : ∀ item ∈ itemsOf before, item.location.start ≠ first.location.start)
    (hafter : ∀ item ∈ itemsOf after, item.location.start ≠ first.location.start)
    (pending : Option DocComment) {docs : Docs} (hdocs : docs.get? first.location.start = none) :
    (fileDocs pending docs (before ++ first :: after)).get? first.location.start =
      before.getLast?.elim pending Lexeme.doc? := by
  induction before generalizing pending docs with
  | nil =>
      rw [List.nil_append, fileDocs_cons hfirst, get?_fileDocs_of_ne hafter, get?_elim_put,
        if_pos rfl, hdocs, Option.or_none]
      rfl
  | cons lexeme rest ih =>
      cases hdoc : lexeme.isDoc with
      | true =>
          obtain ⟨doc, hlexeme⟩ := exists_doc?_eq hdoc
          rw [itemsOf_cons_of_isDoc hdoc] at hbefore
          rw [List.cons_append, fileDocs, hlexeme]
          refine (ih hbefore (some doc) hdocs).trans ?_
          cases hlast : rest.getLast? <;> simp [List.getLast?_cons, hlast, hlexeme]
      | false =>
          rw [itemsOf_cons hdoc] at hbefore
          obtain ⟨hother, hrest⟩ := List.forall_mem_cons.mp hbefore
          rw [List.cons_append, fileDocs_cons hdoc]
          refine (ih hrest none ?_).trans ?_
          · rw [get?_elim_put, if_neg hother.symm, hdocs]
          · cases hlast : rest.getLast? <;>
              simp [List.getLast?_cons, hlast, doc?_eq_none hdoc]

theorem IsOpenedBy.isDocumentedIn {r : Region} {item : Item} {lexemes : List Lexeme}
    (hlexemes : lexemes.Pairwise fun a b => a.location.start < b.location.start)
    (h : IsOpenedBy (fileDocs none [] lexemes) r item) (hitem : item ∈ itemsOf lexemes) :
    r.IsDocumentedIn lexemes := by
  obtain ⟨hmem, hnone⟩ := List.mem_filter.mp hitem
  obtain ⟨before, after, rfl⟩ := List.append_of_mem hmem
  obtain ⟨token, htoken, hword⟩ := h.token
  obtain ⟨-, hafter, hbefore⟩ := List.pairwise_append.mp hlexemes
  have hplain : item.isDoc = false := by
    rw [isDoc_eq_isSome, Option.isNone_iff_eq_none.mp hnone]
    rfl
  refine ⟨before, item, after, token, rfl, content_of_token? htoken, hword, h.start, ?_⟩
  rw [h.doc, get?_fileDocs hplain (fun other hother => ?_) (fun other hother => ?_) none rfl]
  · cases before.getLast? <;> rfl
  · exact Nat.ne_of_lt (hbefore other (List.mem_filter.mp hother).1 item List.mem_cons_self)
  · exact Nat.ne_of_gt ((List.pairwise_cons.mp hafter).1 other (List.mem_filter.mp hother).1)

-- Every comment is filed under one item at most.
theorem docs_fileDocs {lexemes : List Lexeme}
    (h : lexemes.Pairwise fun a b => a.location.start < b.location.start)
    (pending : Option DocComment) {docs : Docs}
    (hdocs : ∀ item ∈ itemsOf lexemes, docs.get? item.location.start = none) :
    ((itemsOf lexemes).filterMap fun item =>
      (fileDocs pending docs lexemes).get? item.location.start).Sublist
      (pending.toList ++ lexemes.filterMap Lexeme.doc?) := by
  induction lexemes generalizing pending docs with
  | nil => exact List.nil_sublist _
  | cons lexeme rest ih =>
      obtain ⟨hfirst, hrest⟩ := List.pairwise_cons.mp h
      cases hdoc : lexeme.isDoc with
      | true =>
          obtain ⟨doc, hlexeme⟩ := exists_doc?_eq hdoc
          rw [itemsOf_cons_of_isDoc hdoc] at hdocs ⊢
          rw [fileDocs, hlexeme, List.filterMap_cons_some hlexeme]
          exact (ih hrest (some doc) hdocs).trans (List.sublist_append_right _ _)
      | false =>
          have hne : ∀ item ∈ itemsOf rest, item.location.start ≠ lexeme.location.start :=
            fun item hitem => Nat.ne_of_gt (hfirst item (List.mem_filter.mp hitem).1)
          rw [itemsOf_cons hdoc] at hdocs ⊢
          obtain ⟨hlexeme, hothers⟩ := List.forall_mem_cons.mp hdocs
          have hfiled : ∀ item ∈ itemsOf rest,
              (pending.elim docs fun doc => docs.put lexeme.location.start doc).get?
                item.location.start = none := by
            intro item hitem
            rw [get?_elim_put, if_neg (hne item hitem), hothers item hitem]
          have hlater := ih hrest none hfiled
          have hown : (fileDocs pending docs (lexeme :: rest)).get? lexeme.location.start =
              pending := by
            rw [fileDocs_cons hdoc, get?_fileDocs_of_ne hne, get?_elim_put, if_pos rfl, hlexeme,
              Option.or_none]
          rw [List.filterMap_cons_none (doc?_eq_none hdoc)]
          rw [← fileDocs_cons hdoc] at hlater
          cases pending with
          | none => simpa only [List.filterMap_cons, hown] using hlater
          | some doc =>
              simp only [List.filterMap_cons, hown]
              exact hlater.cons_cons doc

theorem nodup_docs {lexemes : List Lexeme}
    (h : lexemes.Pairwise fun a b => a.location.start < b.location.start) :
    (lexemes.filterMap Lexeme.doc?).Nodup := by
  have hlocation {lexeme : Lexeme} {doc : DocComment} (hdoc : lexeme.doc? = some doc) :
      doc.location = lexeme.location := by
    unfold Lexeme.doc? at hdoc
    split at hdoc <;> cases hdoc
    rfl
  refine h.filterMap Lexeme.doc? fun a b hab first hfirst second hsecond heq => ?_
  rw [← hlocation hfirst, ← hlocation hsecond, heq] at hab
  exact Nat.lt_irrefl _ hab

end Syntax

-- The comment of a declaration is the one right before its first token, wherever the
-- declaration stands and whether or not there are errors, and every comment has one
-- declaration at most.
theorem doc_comments_precede_declarations (source file : String) :
    (∀ s ∈ (parseSource source file).1, ∀ r : Region, r.IsIn (.stmt s) → r.isDeclaration →
      r.IsDocumentedIn (lex source file)) ∧
    (((parseSource source file).1.flatMap Stmt.declarations).map (·.location.start)).Pairwise
      (· < ·) ∧
    (((parseSource source file).1.flatMap Stmt.declarations).filterMap Region.doc?).Nodup := by
  have hlexemes := (pairwise_lex source file).imp And.left
  have hordered := Syntax.isOrdered_ofLexemes hlexemes
  have hdeclarations : ((parseSource source file).1.flatMap Stmt.declarations).SublistForall₂
      (Syntax.IsOpenedBy (Syntax.fileDocs none [] (lex source file)))
      (Syntax.itemsOf (lex source file)) :=
    Syntax.declarations_program _ hordered
  refine ⟨fun s hs r hr hdeclaration => ?_, ?_, ?_⟩
  · have hmem : r ∈ (parseSource source file).1.flatMap Stmt.declarations :=
      List.mem_flatMap.mpr ⟨s, hs, hr.mem_declarations hdeclaration⟩
    obtain ⟨item, hitem, hstarts⟩ := Syntax.exists_of_mem_left hdeclarations hmem
    exact hstarts.isDocumentedIn hlexemes hitem
  · refine hordered.starts.sublist ?_
    rw [Syntax.Stream.starts, ← List.filterMap_eq_map, ← List.filterMap_eq_map]
    exact Syntax.sublist_filterMap hdeclarations fun _ _ h => congrArg some h.start
  · have hdocs := Syntax.sublist_filterMap hdeclarations fun _ _ h => h.doc
    exact (Syntax.nodup_docs hlexemes).sublist
      (hdocs.trans (Syntax.docs_fileDocs hlexemes none fun _ _ => rfl))

-- A method with a modifier and two comments in front, of which the second one documents it.
theorem doc_comments_precede_declarations_method :
    let source := "<?php /** a */ class C \x7b /** b */ /** c */ static function f() \x7b\x7d \x7d"
    ∃ s ∈ (parseSource source "").1, ∃ r : Region, r.IsIn (.stmt s) ∧ r.isDeclaration ∧
      r.doc?.map (·.text) = some "/** c */" ∧ r.IsDocumentedIn (lex source "") := by
  intro source
  have hfound : ((parseSource source "").1.any fun s => s.inner.any fun r =>
      r.isDeclaration && r.doc?.map (·.text) == some "/** c */") = true := by
    decide +kernel
  obtain ⟨s, hs, hfound⟩ := List.any_eq_true.mp hfound
  obtain ⟨r, hr, hfound⟩ := List.any_eq_true.mp hfound
  obtain ⟨hdeclaration, hdoc⟩ := Bool.and_eq_true_iff.mp hfound
  have hin : r.IsIn (.stmt s) := .inner hr .refl
  exact ⟨s, hs, r, hin, hdeclaration, eq_of_beq hdoc,
    (doc_comments_precede_declarations source "").1 s hs r hin hdeclaration⟩

end PhpLint
