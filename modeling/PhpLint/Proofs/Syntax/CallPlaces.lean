import PhpLint.Proofs.Source.Cut
import PhpLint.Proofs.Syntax.Content

namespace PhpLint

-- Where the call of a function starts, if the node is one.
def Piece.callStart? : Piece → Option Nat
  | expr (.call _ _ location) => some location.start
  | _ => none

theorem Piece.callStart?_of_isPlain {piece : Piece} (h : piece.isPlain) :
    piece.callStart? = none := by
  have hcall := (Piece.isPlain_iff.mp h).2
  fun_cases Piece.callStart? piece with
  | case1 name arguments location => exact absurd rfl (hcall name arguments location)
  | case2 => rfl

-- No two calls of functions among the nodes start at the same byte.
def CallsApart (pieces : List Piece) : Prop :=
  (pieces.filterMap Piece.callStart?).Nodup

theorem eq_of_nodup_filterMap {α β : Type} {f : α → Option β} {l : List α}
    (h : (l.filterMap f).Nodup) {a b : α} {key : β} (ha : a ∈ l) (hb : b ∈ l)
    (hfa : f a = some key) (hfb : f b = some key) : a = b := by
  induction l with
  | nil => simp at ha
  | cons x l ih =>
      have hlater (c : α) (hc : c ∈ l) (hfc : f c = some key) : key ∈ l.filterMap f :=
        List.mem_filterMap.mpr ⟨c, hc, hfc⟩
      rcases List.mem_cons.mp ha with rfl | hal <;> rcases List.mem_cons.mp hb with rfl | hbl
      · rfl
      · rw [List.filterMap_cons_some hfa] at h
        exact absurd (hlater b hbl hfb) (List.nodup_cons.mp h).1
      · rw [List.filterMap_cons_some hfb] at h
        exact absurd (hlater a hal hfa) (List.nodup_cons.mp h).1
      · exact ih (h.sublist ((List.sublist_cons_self x l).filterMap f)) hal hbl

theorem CallsApart.name_eq {pieces : List Piece} (h : CallsApart pieces) {name other : Identifier}
    {arguments others : List Expr} {location : Location}
    (hname : .expr (.call name arguments location) ∈ pieces)
    (hother : .expr (.call other others location) ∈ pieces) : name = other := by
  cases eq_of_nodup_filterMap h hname hother rfl rfl
  rfl

namespace Syntax

def Stream.starts (s : Stream) : List Nat :=
  s.items.map (·.location.start)

-- The items are in the order of the source and after what has been taken.
structure Stream.IsOrdered (s : Stream) : Prop where
  starts : s.starts.Pairwise (· < ·)
  last : ∀ start ∈ s.starts, s.last.start ≤ start

-- The calls among the nodes start with items that have been taken, each with its own.
structure Ordered (s : Stream) (pieces : List Piece) (t : Stream) : Prop where
  isOrdered : t.IsOrdered
  last_le : s.last.start ≤ t.last.start
  calls : ∃ taken, s.starts = taken ++ t.starts ∧
    (pieces.filterMap Piece.callStart?).Sublist taken

-- The place of a call starts with its name.
theorem start_cover {a b : Location} (h : a.start ≤ b.start) : (a.cover b).start = a.start := by
  unfold Location.cover
  split
  · exact Nat.min_eq_left h
  · rfl

theorem Stream.IsOrdered.tail {item : Item} {rest : List Item} {last : Location}
    {docs others : Docs} {errors : List SyntaxError}
    (h : (⟨item :: rest, last, docs, errors⟩ : Stream).IsOrdered) :
    (⟨rest, item.location, others, errors⟩ : Stream).IsOrdered where
  starts := (List.pairwise_cons.mp h.starts).2
  last start hstart := Nat.le_of_lt ((List.pairwise_cons.mp h.starts).1 start hstart)

theorem Stream.IsOrdered.last_le_head {item : Item} {rest : List Item} {last : Location}
    {docs : Docs} {errors : List SyntaxError}
    (h : (⟨item :: rest, last, docs, errors⟩ : Stream).IsOrdered) :
    last.start ≤ item.location.start :=
  h.last item.location.start List.mem_cons_self

def StaysOrdered (s : Stream) (pieces : List Piece) (t : Stream) : Prop :=
  s.IsOrdered → Ordered s pieces t

instance : Track StaysOrdered where
  refl s hs := ⟨hs, Nat.le_refl _, [], rfl, .slnil⟩
  trans {s t u v w} hst htu hs := by
    obtain ⟨ht, hle, taken, hitems, hcalls⟩ := hst hs
    obtain ⟨hu, hle', more, hmore, hcalls'⟩ := htu ht
    refine ⟨hu, Nat.le_trans hle hle', taken ++ more, ?_, ?_⟩
    · rw [hitems, hmore, List.append_assoc]
    · rw [List.filterMap_append]
      exact hcalls.append hcalls'
  taken item rest last docs errors hs :=
    ⟨hs.tail, hs.last_le_head, [item.location.start], rfl, List.nil_sublist _⟩
  withdrawn item rest last docs errors hs :=
    ⟨⟨hs.starts, hs.last⟩, Nat.le_refl _, [], rfl, .slnil⟩
  missing item rest last docs errors hs :=
    ⟨⟨hs.starts, hs.last⟩, Nat.le_refl _, [], rfl, .slnil⟩
  plain {piece s w t} hpiece h hs := by
    obtain ⟨ht, hle, taken, hitems, hcalls⟩ := h hs
    refine ⟨ht, hle, taken, hitems, ?_⟩
    rwa [List.filterMap_cons_none (Piece.callStart?_of_isPlain hpiece)]
  called {item rest last docs errors name arguments w t} hname h hs := by
    obtain ⟨ht, hle, taken, hitems, hcalls⟩ := h hs.tail
    refine ⟨ht, Nat.le_trans hs.last_le_head hle, item.location.start :: taken, ?_, ?_⟩
    · exact congrArg (item.location.start :: ·) hitems
    · have hstart : (name.location.cover t.last).start = item.location.start := by
        rw [start_cover (hname ▸ hle), hname]
      simp only [List.filterMap_cons, Piece.callStart?, hstart]
      exact hcalls.cons_cons _

instance : Motion fun s t => StaysOrdered s [] t where
  missing _ _ _ _ _ hs := ⟨⟨hs.starts, hs.last⟩, Nat.le_refl _, [], rfl, .slnil⟩

theorem staysOrdered_resume {s t : Stream} {error : SyntaxError}
    (h : statementAt maxDepth s = .error error t) : StaysOrdered s [] (resume s t error) :=
  moves_resume_of_error (R := fun s t => StaysOrdered s [] t) h
    fun _ ht => ⟨⟨ht.starts, ht.last⟩, Nat.le_refl _, [], rfl, .slnil⟩

-- By induction on the rounds. What has been built before a failure is dropped.
theorem calls_program (rounds : Nat) {s : Stream} (hs : s.IsOrdered) :
    (((program rounds s).1.flatMap Stmt.pieces).filterMap Piece.callStart?).Sublist s.starts := by
  induction rounds generalizing s with
  | zero => simp [program]
  | succ rounds ih =>
      by_cases hitems : s.items = []
      · simp [program, hitems]
      · cases h : statementAt maxDepth s with
        | ok statement t =>
            have htrack : StaysOrdered s (statement.toList.flatMap Stmt.pieces) t :=
              track_statementAt h
            obtain ⟨ht, -, taken, htaken, hcalls⟩ := htrack hs
            rw [program_of_ok hitems h, List.flatMap_append, List.filterMap_append, htaken]
            exact hcalls.append (ih ht)
        | error error t =>
            obtain ⟨ht, -, taken, htaken, -⟩ := staysOrdered_resume h hs
            obtain ⟨location, hprogram⟩ := exists_program_of_error hitems h
            have hrest := ih ht
            rw [hprogram, htaken]
            exact hrest.trans (List.sublist_append_right _ _)

theorem isOrdered_ofLexemes {lexemes : List Lexeme}
    (h : lexemes.Pairwise fun a b => a.location.start < b.location.start) :
    (Stream.ofLexemes lexemes).IsOrdered where
  starts := List.pairwise_map.mpr (h.filter _)
  last start hstart := by
    obtain ⟨item, hitem, rfl⟩ := List.mem_map.mp hstart
    have hlexeme : item ∈ lexemes := (List.mem_filter.mp hitem).1
    cases lexemes with
    | nil => simp at hlexeme
    | cons first rest =>
        rcases List.mem_cons.mp hlexeme with rfl | hrest
        · exact Nat.le_refl _
        · exact Nat.le_of_lt ((List.pairwise_cons.mp h).1 item hrest)

end Syntax

-- Every call of a function starts with a name of its own.
theorem callsApart_parseSource (source file : String) :
    CallsApart ((parseSource source file).1.flatMap Stmt.pieces) := by
  have hordered : (Syntax.Stream.ofLexemes (lex source file)).IsOrdered :=
    Syntax.isOrdered_ofLexemes ((pairwise_lex source file).imp And.left)
  refine List.Nodup.sublist (Syntax.calls_program _ hordered) ?_
  exact hordered.starts.imp Nat.ne_of_lt

end PhpLint
