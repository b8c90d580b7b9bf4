import PhpLint.Proofs.Source.Coordinates
import PhpLint.Proofs.Syntax.Onset
import PhpLint.Proofs.Syntax.StatementLayout

namespace PhpLint

namespace Location

-- The number of bytes at the place.
def size (a : Location) : Nat :=
  a.stop - a.start

-- It starts and ends no later than the other one.
def UpTo (a b : Location) : Prop :=
  a.start ≤ b.start ∧ a.stop ≤ b.stop

theorem UpTo.trans {a b c : Location} (hab : a.UpTo b) (hbc : b.UpTo c) : a.UpTo c :=
  ⟨Nat.le_trans hab.1 hbc.1, Nat.le_trans hab.2 hbc.2⟩

-- From the start of the one to the end of the other.
theorem UpTo.cover {a b : Location} (h : a.UpTo b) (hfile : a.file = b.file) :
    (a.cover b).file = b.file ∧ (a.cover b).start = a.start ∧ (a.cover b).stop = b.stop := by
  rw [Location.cover, if_pos hfile]
  exact ⟨hfile, Nat.min_eq_left h.1, Nat.max_eq_right h.2⟩

end Location

namespace Region

-- The region is not empty, it contains its parts, and these follow one another. An
-- expression is larger than each expression that it is made of.
structure Nests (r : Region) : Prop where
  proper : r.location.start < r.location.stop
  contains : ∀ x ∈ r.inner,
    r.location.start ≤ x.location.start ∧ x.location.stop ≤ r.location.stop
  apart : r.inner.Pairwise fun x y => x.location.stop ≤ y.location.start
  larger : ∀ e x, r = .expr e → .expr x ∈ r.inner → x.location.size < e.location.size

inductive IsNested : Region → Prop where
  | intro {r : Region} : r.Nests → (∀ x ∈ r.inner, x.IsNested) → r.IsNested

theorem IsNested.nests {r : Region} : r.IsNested → r.Nests
  | .intro h _ => h

theorem IsNested.throughout {r : Region} (h : r.IsNested) : r.Throughout Nests := by
  induction h with
  | intro hnests _ ih => exact .intro hnests ih

end Region

namespace Syntax

open PhpLint.Syntax.Parser

-- The items follow one another, none of them is empty, and all are after the last place.
structure Stream.IsSorted (file : String) (s : Stream) : Prop where
  apart : s.items.Pairwise fun a b => a.location.stop ≤ b.location.start
  proper : ∀ item ∈ s.items, item.location.start < item.location.stop
  after : ∀ item ∈ s.items, s.last.stop ≤ item.location.start
  file_eq : ∀ item ∈ s.items, item.location.file = file
  last_file : s.last.file = file
  last_le : s.last.start ≤ s.last.stop

def Stream.IsFrom (s : Stream) (bound : Nat) : Prop :=
  ∀ item ∈ s.items, bound ≤ item.location.start

-- The regions follow one another among the items that are taken between two streams.
structure Sequence (file : String) (s : Stream) (v : List Region) (t : Stream) : Prop where
  sorted : t.IsSorted file
  last : s.last.UpTo t.last
  left : t.items ⊆ s.items
  taken : ∀ item ∈ s.items, item ∈ t.items ∨ item.location.UpTo t.last
  after : ∀ bound, s.IsFrom bound → ∀ r ∈ v, bound ≤ r.location.start
  before : ∀ r ∈ v, r.location.stop ≤ t.last.stop
  apart : v.Pairwise fun a b => a.location.stop ≤ b.location.start
  nested : ∀ r ∈ v, r.IsNested
  file_eq : ∀ r ∈ v, r.location.file = file

section Rules

variable {file : String} {s t u : Stream} {v w : List Region}

theorem Sequence.refl (h : s.IsSorted file) : Sequence file s [] s where
  sorted := h
  last := ⟨Nat.le_refl _, Nat.le_refl _⟩
  left := List.Subset.refl _
  taken item hitem := .inl hitem
  after := by simp
  before := by simp
  apart := .nil
  nested := by simp
  file_eq := by simp

theorem Sequence.trans (hst : Sequence file s v t) (htu : Sequence file t w u) :
    Sequence file s (v ++ w) u where
  sorted := htu.sorted
  last := hst.last.trans htu.last
  left := List.Subset.trans htu.left hst.left
  taken item hitem := by
    rcases hst.taken item hitem with hleft | htaken
    · exact htu.taken item hleft
    · exact .inr (htaken.trans htu.last)
  after bound hbound r hr := by
    rcases List.mem_append.mp hr with hr | hr
    · exact hst.after bound hbound r hr
    · exact htu.after bound (fun item hitem => hbound item (hst.left hitem)) r hr
  before r hr := by
    rcases List.mem_append.mp hr with hr | hr
    · exact Nat.le_trans (hst.before r hr) htu.last.2
    · exact htu.before r hr
  apart := by
    refine List.pairwise_append.mpr ⟨hst.apart, htu.apart, fun a ha b hb => ?_⟩
    exact Nat.le_trans (hst.before a ha) (htu.after _ hst.sorted.after b hb)
  nested r hr := (List.mem_append.mp hr).elim (hst.nested r) (htu.nested r)
  file_eq r hr := (List.mem_append.mp hr).elim (hst.file_eq r) (htu.file_eq r)

-- What is laid is made into one region between two places that hold all of it.
theorem Sequence.span (h : Sequence file s v t) {r : Region} (hinner : r.inner = v)
    {a b : Location} (hlocation : r.location = a.cover b) (hab : a.UpTo b) (ha : a.file = file)
    (hb : b.file = file) (hafter : ∀ bound, s.IsFrom bound → bound ≤ a.start)
    (hbefore : b.stop ≤ t.last.stop) (hproper : a.start < b.stop)
    (hcontains : ∀ x ∈ v, a.start ≤ x.location.start ∧ x.location.stop ≤ b.stop)
    (hlarger : ∀ e x, r = .expr e → .expr x ∈ v →
      a.start < x.location.start ∨ x.location.stop < b.stop) : Sequence file s [r] t := by
  obtain ⟨hfile, hstart, hstop⟩ := hab.cover (ha.trans hb.symm)
  rw [← hlocation] at hfile hstart hstop
  have hnests : r.Nests := by
    refine ⟨by omega, fun x hx => ?_, hinner ▸ h.apart, fun e x he hx => ?_⟩
    · rw [hstart, hstop]
      exact hcontains x (hinner ▸ hx)
    · subst he
      rw [hinner] at hx
      have hx' := (h.nested _ hx).nests.proper
      have hin := hcontains _ hx
      have hstrict := hlarger e x rfl hx
      rw [Region.location_expr] at hx' hin hstart hstop
      simp only [Location.size]
      omega
  refine ⟨h.sorted, h.last, h.left, h.taken, ?_, ?_, List.pairwise_singleton _ _, ?_, ?_⟩
  · intro bound hbound x hx
    rw [List.mem_singleton.mp hx, hstart]
    exact hafter bound hbound
  · intro x hx
    rw [List.mem_singleton.mp hx, hstop]
    exact hbefore
  · intro x hx
    rw [List.mem_singleton.mp hx]
    exact .intro hnests (hinner ▸ h.nested)
  · intro x hx
    rw [List.mem_singleton.mp hx, hfile, hb]

section Items

variable {item : Item} {rest : List Item} {last : Location} {docs : Docs}
  {errors : List SyntaxError}

theorem Stream.IsSorted.tail (h : (⟨item :: rest, last, docs, errors⟩ : Stream).IsSorted file) :
    (⟨rest, item.location, docs, errors⟩ : Stream).IsSorted file where
  apart := (List.pairwise_cons.mp h.apart).2
  proper other hother := h.proper other (List.mem_cons_of_mem item hother)
  after other hother := (List.pairwise_cons.mp h.apart).1 other hother
  file_eq other hother := h.file_eq other (List.mem_cons_of_mem item hother)
  last_file := h.file_eq item List.mem_cons_self
  last_le := Nat.le_of_lt (h.proper item List.mem_cons_self)

-- Comments have no part in it.
theorem Stream.IsSorted.withDocs {items : List Item} {others : Docs}
    (h : (⟨items, last, docs, errors⟩ : Stream).IsSorted file) :
    (⟨items, last, others, errors⟩ : Stream).IsSorted file :=
  ⟨h.apart, h.proper, h.after, h.file_eq, h.last_file, h.last_le⟩

theorem Sequence.withDocs {items : List Item} {others : Docs}
    (h : Sequence file ⟨items, last, docs, errors⟩ v t) :
    Sequence file ⟨items, last, others, errors⟩ v t :=
  ⟨h.sorted, h.last, h.left, h.taken, h.after, h.before, h.apart, h.nested, h.file_eq⟩

variable (hs : (⟨item :: rest, last, docs, errors⟩ : Stream).IsSorted file)

include hs

theorem Sequence.step :
    Sequence file ⟨item :: rest, last, docs, errors⟩ [] ⟨rest, item.location, docs, errors⟩ where
  sorted := hs.tail
  last := by
    have hlast := hs.last_le
    have hafter := hs.after item List.mem_cons_self
    have hproper := hs.proper item List.mem_cons_self
    simp only [Location.UpTo] at hlast hafter ⊢
    omega
  left := List.subset_cons_self item rest
  taken other hother := by
    rcases List.mem_cons.mp hother with rfl | hrest
    · exact .inr ⟨Nat.le_refl _, Nat.le_refl _⟩
    · exact .inl hrest
  after := by simp
  before := by simp
  apart := .nil
  nested := by simp
  file_eq := by simp

theorem Sequence.opened (h : Sequence file ⟨rest, item.location, docs, errors⟩ v t) {r : Region}
    (hinner : r.inner = v) (hlocation : r.location = item.location.cover t.last) :
    Sequence file ⟨item :: rest, last, docs, errors⟩ [r] t := by
  have hproper := hs.proper item List.mem_cons_self
  have hafter (x : Region) (hx : x ∈ v) : item.location.stop ≤ x.location.start :=
    h.after _ hs.tail.after x hx
  refine ((Sequence.step hs).trans h).span hinner hlocation h.last
    (hs.file_eq item List.mem_cons_self) h.sorted.last_file
    (fun bound hbound => hbound item List.mem_cons_self) (Nat.le_refl _)
    (Nat.lt_of_lt_of_le hproper h.last.2) ?_ ?_
  · intro x hx
    exact ⟨Nat.le_trans (Nat.le_of_lt hproper) (hafter x hx), h.before x hx⟩
  · intro e x _ hx
    exact .inl (Nat.lt_of_lt_of_le hproper (hafter _ hx))

theorem Sequence.front (h : Sequence file ⟨item :: rest, last, docs, errors⟩ v t)
    (htaken : t.items <:+ rest) {r : Region} (hinner : r.inner = v) (hexpr : ∀ e, r ≠ .expr e)
    (hlocation : r.location = item.location.cover t.last) :
    Sequence file ⟨item :: rest, last, docs, errors⟩ [r] t := by
  have hproper := hs.proper item List.mem_cons_self
  have hnext := (List.pairwise_cons.mp hs.apart).1
  have hupTo : item.location.UpTo t.last := by
    refine (h.taken item List.mem_cons_self).resolve_left fun hleft => ?_
    have hself := hnext item (htaken.subset hleft)
    omega
  have hfrom : (⟨item :: rest, last, docs, errors⟩ : Stream).IsFrom item.location.start := by
    refine List.forall_mem_cons.mpr ⟨Nat.le_refl _, fun other hother => ?_⟩
    exact Nat.le_trans (Nat.le_of_lt hproper) (hnext other hother)
  refine h.span hinner hlocation hupTo (hs.file_eq item List.mem_cons_self) h.sorted.last_file
    (fun bound hbound => hbound item List.mem_cons_self) (Nat.le_refl _)
    (Nat.lt_of_lt_of_le hproper hupTo.2) ?_ ?_
  · exact fun x hx => ⟨h.after _ hfrom x hx, h.before x hx⟩
  · exact fun e _ he => absurd he (hexpr e)

theorem Sequence.called (h : Sequence file ⟨rest, item.location, docs, errors⟩ v t) {e : Expr}
    {name : Identifier} (hinner : e.inner = .name name :: v)
    (hname : name.location = item.location)
    (hlocation : e.location = item.location.cover t.last) :
    Sequence file ⟨item :: rest, last, docs, errors⟩ [.expr e] t := by
  have hproper := hs.proper item List.mem_cons_self
  have hleaf : Sequence file ⟨item :: rest, last, docs, errors⟩ [.name name]
      ⟨rest, item.location, docs, errors⟩ :=
    (Sequence.refl hs.tail).opened hs rfl (by rw [Region.location, hname, Location.cover_self])
  have hafter (x : Region) (hx : x ∈ v) : item.location.stop ≤ x.location.start :=
    h.after _ hs.tail.after x hx
  refine (hleaf.trans h).span hinner hlocation h.last (hs.file_eq item List.mem_cons_self)
    h.sorted.last_file (fun bound hbound => hbound item List.mem_cons_self) (Nat.le_refl _)
    (Nat.lt_of_lt_of_le hproper h.last.2) ?_ ?_
  · rintro x (_ | ⟨_, hx⟩)
    · rw [Region.location, hname]
      exact ⟨Nat.le_refl _, h.last.2⟩
    · exact ⟨Nat.le_trans (Nat.le_of_lt hproper) (hafter x hx), h.before x hx⟩
  · rintro _ x - (_ | ⟨_, hx⟩)
    exact .inl (Nat.lt_of_lt_of_le hproper (hafter _ hx))

theorem Sequence.prefixed {e operand : Expr}
    (h : Sequence file ⟨rest, item.location, docs, errors⟩ [.expr operand] t)
    (hinner : e.inner = [.expr operand])
    (hlocation : e.location = item.location.cover operand.location) :
    Sequence file ⟨item :: rest, last, docs, errors⟩ [.expr e] t := by
  have hmem : Region.expr operand ∈ [Region.expr operand] := List.mem_singleton_self _
  have hproper := hs.proper item List.mem_cons_self
  have hafter : item.location.stop ≤ operand.location.start := h.after _ hs.tail.after _ hmem
  have hoperand : operand.location.start < operand.location.stop := (h.nested _ hmem).nests.proper
  refine ((Sequence.step hs).trans h).span hinner hlocation ⟨by omega, by omega⟩
    (hs.file_eq item List.mem_cons_self) (h.file_eq _ hmem)
    (fun bound hbound => hbound item List.mem_cons_self) (h.before _ hmem) (by omega) ?_ ?_
  · intro x hx
    rw [List.mem_singleton.mp hx]
    exact ⟨by rw [Region.location_expr]; omega, Nat.le_refl _⟩
  · intro _ x _ hx
    cases List.mem_singleton.mp hx
    exact .inl (by omega)

end Items

-- The item after the first part makes the whole larger than it.
theorem Sequence.extended {item : Item} {rest : List Item} {last : Location} {docs : Docs}
    {errors : List SyntaxError} {e first : Expr}
    (hfirst : Sequence file s [.expr first] ⟨item :: rest, last, docs, errors⟩)
    (h : Sequence file ⟨rest, item.location, docs, errors⟩ v t)
    (hinner : e.inner = .expr first :: v)
    (hlocation : e.location = first.location.cover t.last) : Sequence file s [.expr e] t := by
  have hmem : Region.expr first ∈ [Region.expr first] := List.mem_singleton_self _
  have hs := hfirst.sorted
  have hproper := hs.proper item List.mem_cons_self
  have hbefore : first.location.stop ≤ item.location.start :=
    Nat.le_trans (hfirst.before _ hmem) (hs.after item List.mem_cons_self)
  have hstart : first.location.start < first.location.stop :=
    (hfirst.nested _ hmem).nests.proper
  have hlast := h.last
  have hafter (x : Region) (hx : x ∈ v) : item.location.stop ≤ x.location.start :=
    h.after _ hs.tail.after x hx
  simp only [Location.UpTo] at hlast
  refine (hfirst.trans ((Sequence.step hs).trans h)).span hinner hlocation
    ⟨by omega, by omega⟩ (hfirst.file_eq _ hmem) h.sorted.last_file
    (fun bound hbound => hfirst.after bound hbound _ hmem) (Nat.le_refl _) (by omega) ?_ ?_
  · rintro x (_ | ⟨_, hx⟩)
    · rw [Region.location_expr]
      omega
    · have hx' := hafter x hx
      exact ⟨by omega, h.before x hx⟩
  · rintro _ x - (_ | ⟨_, hx⟩)
    · exact .inr (by omega)
    · have hx' := hafter _ hx
      rw [Region.location_expr] at hx'
      exact .inl (by omega)

theorem Sequence.joined {e : Expr} {first final : Region}
    (h : Sequence file s (first :: (v ++ [final])) t) (hinner : e.inner = first :: (v ++ [final]))
    (hlocation : e.location = first.location.cover final.location) :
    Sequence file s [.expr e] t := by
  have hfirst : first ∈ first :: (v ++ [final]) := List.mem_cons_self
  have hfinal : final ∈ first :: (v ++ [final]) := by simp
  obtain ⟨hafter, hrest⟩ := List.pairwise_cons.mp h.apart
  have hbefore (x : Region) (hx : x ∈ v) : x.location.stop ≤ final.location.start :=
    (List.pairwise_append.mp hrest).2.2 x hx final (List.mem_singleton_self final)
  have hbetween : first.location.stop ≤ final.location.start := hafter final (by simp)
  have hproper := (h.nested first hfirst).nests.proper
  have hproper' := (h.nested final hfinal).nests.proper
  refine h.span hinner hlocation ⟨by omega, by omega⟩ (h.file_eq first hfirst)
    (h.file_eq final hfinal) (fun bound hbound => h.after bound hbound first hfirst)
    (h.before final hfinal) (by omega) ?_ ?_
  · rintro x (_ | ⟨_, hx⟩)
    · omega
    · have hx' := hafter x hx
      rcases List.mem_append.mp hx with hx | hx
      · have hx'' := hbefore x hx
        omega
      · rw [List.mem_singleton.mp hx]
        omega
  · rintro _ x - (_ | ⟨_, hx⟩)
    · rw [Region.location_expr] at hbetween
      exact .inr (by omega)
    · have hx' := hafter _ hx
      rw [Region.location_expr] at hx'
      exact .inl (by omega)

end Rules

theorem Lays.errors_suffix {s t : Stream} {v : List Region} (h : Lays s v t) :
    s.errors <:+ t.errors :=
  h.passes (R := fun s t => s.errors <:+ t.errors)

-- By induction on how the regions come about. A placeholder comes with an error.
theorem Lays.sequence {file : String} {s t : Stream} {v : List Region} (h : Lays s v t)
    (hs : s.IsSorted file) (ht : t.errors = []) : Sequence file s v t := by
  induction h with
  | refl => exact .refl hs
  | @trans s t u v w _ htu ihst ihtu =>
      have hst := ihst hs (List.suffix_nil.mp (ht ▸ htu.errors_suffix))
      exact hst.trans (ihtu hst.sorted ht)
  | taken => exact .step hs
  | missing => cases ht
  | withdrawn _ _ ih => exact (ih hs.withDocs ht).withDocs
  | opened _ hinner _ hlocation _ ih => exact (ih hs.tail ht).opened hs hinner hlocation
  | declared _ hinner _ hlocation _ _ ih =>
      exact (ih hs.tail.withDocs ht).withDocs.opened hs hinner hlocation
  | front _ htaken hinner _ hexpr hlocation _ ih =>
      exact (ih hs ht).front hs htaken hinner hexpr hlocation
  | called _ hinner hname hlocation ih => exact (ih hs.tail ht).called hs hinner hname hlocation
  | prefixed _ hinner _ hlocation ih => exact (ih hs.tail ht).prefixed hs hinner hlocation
  | extended _ htu hinner _ hlocation ihst ihtu =>
      have hst := ihst hs (List.suffix_nil.mp (ht ▸ htu.errors_suffix))
      exact hst.extended (ihtu hst.sorted.tail ht) hinner hlocation
  | joined _ hinner _ hlocation ih => exact (ih hs ht).joined hinner hlocation

-- By induction on the rounds. Without errors every statement is laid after the one before.
theorem exists_lays_program (rounds : Nat) {s : Stream} (h : (program rounds s).2 = []) :
    ∃ t, Lays s ((program rounds s).1.map .stmt) t ∧ t.errors = [] := by
  induction rounds generalizing s with
  | zero => exact ⟨s, .refl s, errors_eq_nil h⟩
  | succ rounds ih =>
      by_cases hitems : s.items = []
      · refine ⟨s, ?_, errors_eq_nil h⟩
        rw [program_of_nil hitems]
        exact .refl s
      · obtain ⟨statement, t, hs, herrors⟩ := exists_ok_of_errors_eq_nil hitems h
        obtain ⟨u, hu, huerrors⟩ := ih herrors
        refine ⟨u, ?_, huerrors⟩
        rw [program_of_ok hitems hs, List.map_append]
        exact (gives_statementAt maxDepth s hs).lays.trans hu

theorem isSorted_lex (source file : String) (docs : Docs) :
    (⟨itemsOf (lex source file), ⟨file, 0, 0, 1, 1⟩, docs, []⟩ : Stream).IsSorted file := by
  have hcoherent : ∀ item ∈ itemsOf (lex source file), item.location.IsCoherent source file :=
    fun item hitem => isCoherent_of_mem_lex (List.mem_filter.mp hitem).1
  refine ⟨?_, fun item hitem => (hcoherent item hitem).proper, fun _ _ => Nat.zero_le _,
    fun item hitem => (hcoherent item hitem).file_eq, rfl, Nat.le_refl _⟩
  exact ((pairwise_lex source file).imp And.right).filter _

end Syntax

open Syntax

-- The statements of a source without errors follow one another, and each is nested.
theorem exists_sequence_parseSource {source file : String}
    (h : (parseSource source file).2 = []) :
    ∃ s t, Sequence file s ((parseSource source file).1.map .stmt) t := by
  rw [parseSource, parse_eq _ ⟨file, 0, 0, 1, 1⟩] at h ⊢
  obtain ⟨t, hlays, ht⟩ := exists_lays_program _ h
  exact ⟨_, t, hlays.sequence (isSorted_lex source file _) ht⟩

-- Where an expression starts and stops.
def Expr.span (e : Expr) : Nat × Nat :=
  (e.location.start, e.location.stop)

-- Expressions between two bytes, each at a place of its own.
structure Distinct (start stop : Nat) (es : List Expr) : Prop where
  nodup : (es.map Expr.span).Nodup
  within : ∀ e ∈ es, e.location.start < e.location.stop ∧ start ≤ e.location.start ∧
    e.location.stop ≤ stop

-- By induction on the regions: what is in one of them ends before the next one starts.
theorem nodup_spans_flatMap {v : List Region}
    (hapart : v.Pairwise fun x y => x.location.stop ≤ y.location.start)
    (h : ∀ x ∈ v, Distinct x.location.start x.location.stop (expressionsIn x.pieces)) :
    ((expressionsIn (v.flatMap Region.pieces)).map Expr.span).Nodup := by
  induction v with
  | nil => exact .nil
  | cons x v ih =>
      obtain ⟨hx, hv⟩ := List.forall_mem_cons.mp h
      obtain ⟨hfirst, hrest⟩ := List.pairwise_cons.mp hapart
      rw [List.flatMap_cons, expressionsIn_append, List.map_append]
      refine List.nodup_append.mpr ⟨hx.nodup, ih hrest hv, ?_⟩
      intro span hspan other hother heq
      obtain ⟨e, he, rfl⟩ := List.mem_map.mp hspan
      obtain ⟨e', he', rfl⟩ := List.mem_map.mp hother
      obtain ⟨y, hy, hpiece⟩ := List.mem_flatMap.mp (mem_expressionsIn.mp he')
      have hbefore := hx.within e he
      have hafter := (hv y hy).within e' (mem_expressionsIn.mpr hpiece)
      have hxy := hfirst y hy
      simp only [Expr.span, Prod.mk.injEq] at heq
      omega

theorem exists_expr_of_mem_inner {e x : Expr} {y : Region} (hy : y ∈ e.inner)
    (hx : .expr x ∈ y.pieces) : ∃ operand, y = .expr operand := by
  cases y with
  | expr operand => exact ⟨operand, rfl⟩
  | name | operator => cases hx
  | stmt | body | parameter | method =>
      cases e with
      | array items =>
          obtain ⟨item, -, hitem⟩ := List.mem_flatMap.mp hy
          cases item <;> simp [ArrayItem.inner] at hitem
      | _ => simp [Expr.inner] at hy

-- By induction on the nesting.
theorem Region.IsNested.distinct {r : Region} (h : r.IsNested) :
    Distinct r.location.start r.location.stop (expressionsIn r.pieces) := by
  induction h with
  | @intro r hnests _ ih =>
      have hinner : ∀ e ∈ expressionsIn (r.inner.flatMap pieces), ∃ y ∈ r.inner,
          .expr e ∈ y.pieces ∧ e.location.start < e.location.stop ∧
          y.location.start ≤ e.location.start ∧ e.location.stop ≤ y.location.stop := by
        intro e he
        obtain ⟨y, hy, hpiece⟩ := List.mem_flatMap.mp (mem_expressionsIn.mp he)
        exact ⟨y, hy, hpiece, (ih y hy).within e (mem_expressionsIn.mpr hpiece)⟩
      have hwithin : ∀ e ∈ expressionsIn (r.inner.flatMap pieces),
          e.location.start < e.location.stop ∧ r.location.start ≤ e.location.start ∧
            e.location.stop ≤ r.location.stop := by
        intro e he
        obtain ⟨y, hy, -, hproper, hstart, hstop⟩ := hinner e he
        have hcontains := hnests.contains y hy
        omega
      have hnodup := nodup_spans_flatMap hnests.apart ih
      cases r with
      | expr e =>
          rw [pieces_eq]
          refine ⟨List.nodup_cons.mpr ⟨fun hmem => ?_, hnodup⟩, ?_⟩
          · obtain ⟨x, hx, hspan⟩ := List.mem_map.mp hmem
            obtain ⟨y, hy, hpiece, hproper, hstart, hstop⟩ := hinner x hx
            obtain ⟨operand, rfl⟩ := exists_expr_of_mem_inner hy hpiece
            have hlarger := hnests.larger e operand rfl hy
            simp only [Expr.span, Prod.mk.injEq] at hspan
            simp only [Location.size, location_expr] at hlarger hstart hstop
            omega
          · rintro x (_ | ⟨_, hx⟩)
            · exact ⟨hnests.proper, Nat.le_refl _, Nat.le_refl _⟩
            · exact hwithin x hx
      | _ =>
          rw [pieces_eq]
          exact ⟨hnodup, hwithin⟩

theorem nodup_spans_parseSource {source file : String} (h : (parseSource source file).2 = []) :
    (((parseSource source file).1.flatMap Stmt.expressions).map Expr.span).Nodup := by
  obtain ⟨s, t, hsequence⟩ := exists_sequence_parseSource h
  have hnodup := nodup_spans_flatMap hsequence.apart fun r hr => (hsequence.nested r hr).distinct
  have hexpressions : expressionsIn (((parseSource source file).1.map Region.stmt).flatMap
      Region.pieces) = (parseSource source file).1.flatMap Stmt.expressions := by
    rw [List.flatMap_map, expressionsIn, List.filterMap_flatMap]
    rfl
  rwa [hexpressions] at hnodup

end PhpLint
