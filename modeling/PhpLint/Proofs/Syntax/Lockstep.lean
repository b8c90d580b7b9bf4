import PhpLint.Proofs.Syntax.Deepening
import PhpLint.Proofs.Syntax.Stopping

namespace PhpLint.Syntax

open EStateM (after_of_ok bind_eq_ok_iff bind_of_error bind_of_ok)
open PhpLint.Syntax.Parser

-- A semicolon with what is behind it, and the two tags that can stand in its place.
structure Seam where
  semicolon : Item
  closing : Item
  opening : Item
  rest : List Item
  isSemicolon : semicolon.token? = some (.symbol .semicolon)
  isClosing : closing.token? = some .closeTag
  isOpening : opening.token? = some .openTag

namespace Seam

def ended (seam : Seam) : List Item :=
  seam.semicolon :: seam.rest

def closed (seam : Seam) : List Item :=
  seam.closing :: seam.opening :: seam.rest

theorem length_ended (seam : Seam) : seam.ended.length = seam.rest.length + 1 := rfl

-- Where more than the rest is left, the semicolon is.
theorem exists_front {seam : Seam} {front items : List Item}
    (hitems : items <:+ front ++ seam.ended) (hlength : seam.rest.length < items.length) :
    ∃ left, items = left ++ seam.ended := by
  have hended : seam.ended <:+ items := by
    apply List.suffix_of_suffix_length_le (List.suffix_append front seam.ended) hitems
    rw [length_ended]
    exact hlength
  obtain ⟨left, hleft⟩ := hended
  exact ⟨left, hleft.symm⟩

theorem ne_ended (seam : Seam) (last place : Location) (docs filed : Docs) :
    (⟨seam.rest, place, docs, []⟩ : Stream) ≠ ⟨seam.ended, last, filed, []⟩ := by
  intro h
  have hlength := congrArg (fun s => s.items.length) h
  simp only [length_ended] at hlength
  omega

theorem isStop_semicolon (seam : Seam) : seam.semicolon.IsStop := by
  rw [Item.IsStop, seam.isSemicolon]
  rfl

theorem isStop_closing (seam : Seam) : seam.closing.IsStop := by
  rw [Item.IsStop, seam.isClosing]
  rfl

section Reaches

variable {α β : Type} {seam : Seam} {Runs Ends Wider : α → Stream → Prop}

-- A run on the tags that ends as it should. Where an alternative is behind them there may be
-- no run that succeeds.
def Reaches (seam : Seam) (Runs Ends : α → Stream → Prop) : Prop :=
  (∃ b u, Runs b u ∧ Ends b u) ∨ ¬Follows seam.rest ∧ ∀ b u, ¬Runs b u

theorem Reaches.mono (h : seam.Reaches Runs Ends) (hwider : ∀ b u, Ends b u → Wider b u) :
    seam.Reaches Runs Wider := by
  rcases h with ⟨b, u, hruns, hends⟩ | hnone
  · exact .inl ⟨b, u, hruns, hwider b u hends⟩
  · exact .inr hnone

theorem Reaches.congr {Others : α → Stream → Prop} (h : seam.Reaches Runs Ends)
    (hsame : ∀ b u, Runs b u ↔ Others b u) : seam.Reaches Others Ends := by
  rcases h with ⟨b, u, hruns, hends⟩ | ⟨hfollows, hnone⟩
  · exact .inl ⟨b, u, (hsame b u).mp hruns, hends⟩
  · exact .inr ⟨hfollows, fun b u hother => hnone b u ((hsame b u).mpr hother)⟩

-- One run after another.
theorem Reaches.andThen {p : Parser α} {s : Stream} {Next : α → Stream → β → Stream → Prop}
    {Later : β → Stream → Prop} (h : seam.Reaches (fun b u => p s = .ok b u) Ends)
    (hnext : ∀ b u, Ends b u → seam.Reaches (Next b u) Later) :
    seam.Reaches (fun c v => ∃ b u, p s = .ok b u ∧ Next b u c v) Later := by
  rcases h with ⟨b, u, hb, hends⟩ | ⟨hfollows, hnone⟩
  · apply (hnext b u hends).congr
    intro c v
    constructor
    · exact fun hc => ⟨b, u, hb, hc⟩
    · rintro ⟨b', u', hb', hc⟩
      obtain ⟨rfl, rfl⟩ := EStateM.Result.ok.inj (hb.symm.trans hb')
      exact hc
  · refine .inr ⟨hfollows, ?_⟩
    rintro c v ⟨b, u, hb, -⟩
    exact hnone b u hb

end Reaches

end Seam

namespace Parser

section Streams

variable {α : Type} {p : Parser α} {s t : Stream} {a : α}

theorem errors_nil_of_ok (hp : Moves (fun s t => s.errors <:+ t.errors) p) (h : p s = .ok a t)
    (ht : t.errors = []) : s.errors = [] := by
  have hkeeps := hp.keeps s
  rw [after_of_ok h, ht] at hkeeps
  exact List.suffix_nil.mp hkeeps

end Streams

-- The second parser does what the first one does, but it fails at some of the statements
-- that end at the seam. Without errors, the first one does the same with the tags as long as
-- it has not reached the semicolon. Where the second one fails it gets past the tags, unless
-- an alternative is behind them, and the results and what is left are then related.
structure Lockstep (seam : Seam) {α : Type} (Past : α → Stream → α → Stream → Prop)
    (p q : Parser α) : Prop where
  moves : Moves (fun s t => s.errors <:+ t.errors) p
  agrees : Agrees q p
  late : ∀ ⦃s a t⦄, p s = .ok a t → s.items.length ≤ seam.rest.length → q s = .ok a t
  before : ∀ ⦃front last docs a left place filed⦄,
    p ⟨front ++ seam.ended, last, docs, []⟩ = .ok a ⟨left ++ seam.ended, place, filed, []⟩ →
      p ⟨front ++ seam.closed, last, docs, []⟩ = .ok a ⟨left ++ seam.closed, place, filed, []⟩
  past : ∀ ⦃front last docs a t⦄, p ⟨front ++ seam.ended, last, docs, []⟩ = .ok a t →
    t.errors = [] → q ⟨front ++ seam.ended, last, docs, []⟩ ≠ .ok a t →
      seam.Reaches (fun b u => p ⟨front ++ seam.closed, last, docs, []⟩ = .ok b u) (Past a t)

-- A parser without statements in it.
def Blind (seam : Seam) {α : Type} (p : Parser α) : Prop :=
  Lockstep seam (fun _ _ _ _ => False) p p

section Rules

variable {α β σ : Type} {seam : Seam} {Past : α → Stream → α → Stream → Prop}
  {Later : β → Stream → β → Stream → Prop} {p q : Parser α} {f g : α → Parser β}

theorem blind_of (hmoves : Moves (fun s t => s.errors <:+ t.errors) p)
    (hbefore : ∀ ⦃front last docs a left place filed⦄,
      p ⟨front ++ seam.ended, last, docs, []⟩ = .ok a ⟨left ++ seam.ended, place, filed, []⟩ →
        p ⟨front ++ seam.closed, last, docs, []⟩ = .ok a ⟨left ++ seam.closed, place, filed, []⟩) :
    Blind seam p where
  moves := hmoves
  agrees := inferInstance
  late _ _ _ h _ := h
  before := hbefore
  past _ _ _ _ _ h _ hne := absurd h hne

theorem Lockstep.mono {Wider : α → Stream → α → Stream → Prop} (h : Lockstep seam Past p q)
    (hwider : ∀ ⦃s a t b u⦄, p s = .ok a t → Past a t b u → Wider a t b u) :
    Lockstep seam Wider p q where
  moves := h.moves
  agrees := h.agrees
  late := h.late
  before := h.before
  past _ _ _ _ _ hp ht hq := (h.past hp ht hq).mono fun _ _ hpast => hwider hp hpast

theorem Blind.lockstep (h : Blind seam p) : Lockstep seam Past p p :=
  h.mono fun _ _ _ _ _ _ => False.elim

-- Where the first part fails at a statement the second part goes on from both streams.
theorem Lockstep.bind (hp : Lockstep seam Past p q) (hf : ∀ a, Lockstep seam Later (f a) (g a))
    (hresume : ∀ ⦃a t b u⦄, Past a t b u → ∀ ⦃c v⦄, f a t = .ok c v → v.errors = [] →
      seam.Reaches (fun d w => f b u = .ok d w) (Later c v)) :
    Lockstep seam Later (p >>= f) (q >>= g) where
  moves := Moves.bind_of hp.moves fun a => (hf a).moves
  agrees := Agrees.bind_of hp.agrees fun a => (hf a).agrees
  late s c v h hs := by
    obtain ⟨a, t, ha, hc⟩ := bind_eq_ok_iff.mp h
    have ht := (hp.moves.suffix_of_ok ha).length_le
    rw [bind_of_ok (hp.late ha hs)]
    exact (hf a).late hc (by omega)
  before front last docs c left place filed h := by
    obtain ⟨a, t, ha, hc⟩ := bind_eq_ok_iff.mp h
    obtain ⟨middle, hmiddle⟩ := (hf a).moves.suffix_of_ok hc
    have herrors := errors_nil_of_ok (hf a).moves hc rfl
    have ht : t = ⟨(middle ++ left) ++ seam.ended, t.last, t.docs, []⟩ := by
      rw [List.append_assoc, hmiddle, ← herrors]
    rw [ht] at ha hc
    rw [bind_of_ok (hp.before ha)]
    exact (hf a).before hc
  past front last docs c v h hv hne := by
    obtain ⟨a, t, ha, hc⟩ := bind_eq_ok_iff.mp h
    have herrors := errors_nil_of_ok (hf a).moves hc hv
    by_cases hq : q ⟨front ++ seam.ended, last, docs, []⟩ = .ok a t
    · rw [bind_of_ok hq] at hne
      -- Behind the semicolon the second part would not fail.
      have hlength : seam.rest.length < t.items.length :=
        Nat.lt_of_not_le fun hle => hne ((hf a).late hc hle)
      obtain ⟨left, hleft⟩ := Seam.exists_front (hp.moves.suffix_of_ok ha) hlength
      have ht : t = ⟨left ++ seam.ended, t.last, t.docs, []⟩ := by rw [← hleft, ← herrors]
      rw [ht] at ha hc hne
      rw [bind_of_ok (hp.before ha)]
      exact (hf a).past hc hv hne
    · have hreaches := (hp.past ha herrors hq).andThen fun b u hpast => hresume hpast hc hv
      exact hreaches.congr fun d w => bind_eq_ok_iff.symm

theorem Blind.bind (hp : Blind seam p) (hf : ∀ a, Lockstep seam Later (f a) (g a)) :
    Lockstep seam Later (p >>= f) (p >>= g) :=
  Lockstep.bind hp hf fun _ _ _ _ => False.elim

-- Nothing is left to be done but to look at the place of the last item.
theorem blind_pure (a : α) : Blind seam (pure a : Parser α) := by
  apply blind_of inferInstance
  intro front last docs b left place filed h
  obtain ⟨rfl, hstream⟩ := EStateM.Result.ok.inj h
  obtain ⟨hitems, rfl, rfl, -⟩ := Stream.mk.inj hstream
  rw [List.append_cancel_right hitems]
  rfl

theorem blind_last : Blind seam last := by
  apply blind_of inferInstance
  intro front last docs b left place filed h
  obtain ⟨rfl, hstream⟩ := EStateM.Result.ok.inj h
  obtain ⟨hitems, rfl, rfl, -⟩ := Stream.mk.inj hstream
  rw [List.append_cancel_right hitems]
  rfl

-- An expression never goes past the semicolon.
theorem Halts.exists_front [Moves (fun s t => s.errors <:+ t.errors) p] (hp : Halts p)
    {front : List Item} {last : Location} {docs : Docs} {a : α} {t : Stream}
    (h : p ⟨front ++ seam.ended, last, docs, []⟩ = .ok a t) (ht : t.errors = []) :
    ∃ left, t = ⟨left ++ seam.ended, t.last, docs, []⟩ ∧
      p ⟨front ++ seam.closed, last, docs, []⟩ = .ok a ⟨left ++ seam.closed, t.last, docs, []⟩ := by
  obtain ⟨cut, hcut⟩ := hp ⟨front, last, docs, []⟩
  have hended := hcut.result_eq seam.semicolon seam.isStop_semicolon docs seam.rest
  have hclosed := hcut.result_eq seam.closing seam.isStop_closing docs (seam.opening :: seam.rest)
  rw [Stream.followedBy_mk] at hended hclosed
  have hresult := hended.symm.trans h
  cases hdone : cut seam.semicolon with
  | done b rest =>
      rw [hdone] at hresult
      obtain ⟨rfl, rfl⟩ := EStateM.Result.ok.inj hresult
      have hquiet := hcut.quiet _ _ seam.isStop_semicolon seam.isStop_closing b rest hdone ht
      rw [hquiet] at hclosed
      obtain ⟨left, place, others, errors⟩ := rest
      obtain rfl : errors = [] := ht
      exact ⟨left, rfl, hclosed⟩
  | failed error rest =>
      rw [hdone] at hresult
      cases hresult
  | taken error errors =>
      rw [hdone] at hresult
      cases hresult

theorem Halts.blind [hmoves : Moves (fun s t => s.errors <:+ t.errors) p] (hp : Halts p) :
    Blind seam p := by
  apply blind_of hmoves
  intro front last docs a left place filed h
  obtain ⟨left', hstream, hclosed⟩ := hp.exists_front h rfl
  obtain ⟨hitems, -, rfl, -⟩ := Stream.mk.inj hstream
  rw [List.append_cancel_right hitems]
  exact hclosed

-- A parser that takes at most the item in front, and does not leave the semicolon.
theorem blind_of_front [hmoves : Moves (fun s t => s.errors <:+ t.errors) p]
    (hstays : ∀ last docs a,
      p ⟨seam.ended, last, docs, []⟩ ≠ .ok a ⟨seam.ended, last, docs, []⟩)
    (hfront : ∀ item,
      (∀ rest last docs errors a t, p ⟨item :: rest, last, docs, errors⟩ ≠ .ok a t) ∨ ∃ a,
        (∀ rest last docs errors,
          p ⟨item :: rest, last, docs, errors⟩ = .ok a ⟨rest, item.location, docs, errors⟩) ∨
        ∀ rest last docs errors,
          p ⟨item :: rest, last, docs, errors⟩ = .ok a ⟨item :: rest, last, docs, errors⟩) :
    Blind seam p := by
  apply blind_of hmoves
  rintro (_ | ⟨item, front⟩) last docs a left place filed h
  · rcases hfront seam.semicolon with hfails | ⟨b, htakes | hleaves⟩
    · exact absurd h (hfails _ _ _ _ _ _)
    · obtain ⟨-, hstream⟩ := EStateM.Result.ok.inj ((htakes seam.rest last docs []).symm.trans h)
      have hlength := congrArg (fun s => s.items.length) hstream
      simp only [List.length_append, Seam.length_ended] at hlength
      omega
    · exact absurd (hleaves seam.rest last docs []) (hstays last docs b)
  · rw [List.cons_append] at h ⊢
    rcases hfront item with hfails | ⟨b, htakes | hleaves⟩
    · exact absurd h (hfails _ _ _ _ _ _)
    · obtain ⟨rfl, hstream⟩ := EStateM.Result.ok.inj ((htakes _ _ _ _).symm.trans h)
      obtain ⟨hitems, rfl, rfl, -⟩ := Stream.mk.inj hstream
      rw [htakes, List.append_cancel_right hitems]
    · obtain ⟨rfl, hstream⟩ := EStateM.Result.ok.inj ((hleaves _ _ _ _).symm.trans h)
      obtain ⟨hitems, rfl, rfl, -⟩ := Stream.mk.inj hstream
      rw [← List.cons_append] at hitems
      rw [hleaves, ← List.append_cancel_right hitems, List.cons_append]

theorem blind_advance : Blind seam advance := by
  apply blind_of_front
  · intro last docs a h
    exact seam.ne_ended last seam.semicolon.location docs docs (EStateM.Result.ok.inj h).2
  · exact fun item => .inr ⟨(), .inl fun _ _ _ _ => rfl⟩

-- A semicolon that is skipped is none that ends a statement.
theorem blind_skipSemicolon : Blind seam (skip (.symbol .semicolon)) := by
  apply blind_of_front
  · intro last docs a h
    rw [Seam.ended, skip_of_eq seam.isSemicolon] at h
    exact seam.ne_ended last seam.semicolon.location docs docs (EStateM.Result.ok.inj h).2
  · intro item
    by_cases hitem : item.token? = some (.symbol .semicolon)
    · exact .inr ⟨true, .inl (skip_of_eq hitem)⟩
    · exact .inr ⟨false, .inr (skip_of_ne hitem)⟩

-- With this item in front and these comments the two do what parsers in lockstep do, after a
-- comment may have been taken.
def LockstepAt (seam : Seam) (Past : α → Stream → α → Stream → Prop) (item : Item) (docs : Docs)
    (p q : Parser α) : Prop :=
  ∃ p' q' filed, Lockstep seam Past p' q' ∧ ∀ rest last errors,
    p ⟨item :: rest, last, docs, errors⟩ = p' ⟨item :: rest, last, filed, errors⟩ ∧
      q ⟨item :: rest, last, docs, errors⟩ = q' ⟨item :: rest, last, filed, errors⟩

theorem Lockstep.lockstepAt (h : Lockstep seam Past p q) (item : Item) (docs : Docs) :
    LockstepAt seam Past item docs p q :=
  ⟨p, q, docs, h, fun _ _ _ => ⟨rfl, rfl⟩⟩

theorem LockstepAt.documented {f g : Option DocComment → Parser α} (item : Item) (docs : Docs)
    (h : ∀ doc, Lockstep seam Past (f doc) (g doc)) :
    LockstepAt seam Past item docs (takeDoc >>= f) (takeDoc >>= g) :=
  ⟨f _, g _, docs.remove item.location.start, h (docs.get? item.location.start),
    fun _ _ _ => ⟨rfl, rfl⟩⟩

-- Which parser it is may depend on the item in front.
theorem Lockstep.ofFront [hmoves : Moves (fun s t => s.errors <:+ t.errors) p]
    [hagrees : Agrees q p]
    (hend : ∀ ⦃last docs errors a t⦄,
      p ⟨[], last, docs, errors⟩ = .ok a t → q ⟨[], last, docs, errors⟩ = .ok a t)
    (hnil : (∀ last docs a t, p ⟨seam.ended, last, docs, []⟩ ≠ .ok a t) ∨
      ∃ p' q', Lockstep seam Past p' q' ∧ ∀ last docs,
        p ⟨seam.ended, last, docs, []⟩ = p' ⟨seam.ended, last, docs, []⟩ ∧
          q ⟨seam.ended, last, docs, []⟩ = q' ⟨seam.ended, last, docs, []⟩ ∧
            p ⟨seam.closed, last, docs, []⟩ = p' ⟨seam.closed, last, docs, []⟩)
    (hcons : ∀ item docs, LockstepAt seam Past item docs p q) :
    Lockstep seam Past p q where
  moves := hmoves
  agrees := hagrees
  late := by
    rintro ⟨_ | ⟨item, rest⟩, last, docs, errors⟩ a t h hs
    · exact hend h
    · obtain ⟨p', q', filed, hlock, heq⟩ := hcons item docs
      rw [(heq rest last errors).1] at h
      rw [(heq rest last errors).2]
      exact hlock.late h hs
  before := by
    rintro (_ | ⟨item, front⟩) last docs a left place filed h
    · rcases hnil with hfails | ⟨p', q', hlock, heq⟩
      · exact absurd h (hfails _ _ _ _)
      · rw [List.nil_append, (heq last docs).1] at h
        rw [List.nil_append, (heq last docs).2.2]
        exact @Lockstep.before _ _ _ _ _ hlock [] _ _ _ _ _ _ h
    · obtain ⟨p', q', others, hlock, heq⟩ := hcons item docs
      rw [List.cons_append, (heq _ _ _).1, ← List.cons_append] at h
      rw [List.cons_append, (heq _ _ _).1]
      exact hlock.before h
  past := by
    rintro (_ | ⟨item, front⟩) last docs a t h ht hne
    · rcases hnil with hfails | ⟨p', q', hlock, heq⟩
      · exact absurd h (hfails _ _ _ _)
      · rw [List.nil_append, (heq last docs).1] at h
        rw [List.nil_append, (heq last docs).2.1] at hne
        rw [List.nil_append, (heq last docs).2.2]
        exact @Lockstep.past _ _ _ _ _ hlock [] _ _ _ _ h ht hne
    · obtain ⟨p', q', others, hlock, heq⟩ := hcons item docs
      rw [List.cons_append, (heq _ _ _).1, ← List.cons_append] at h
      rw [List.cons_append, (heq _ _ _).2, ← List.cons_append] at hne
      rw [List.cons_append, (heq _ _ _).1]
      exact hlock.past h ht hne

-- What is done at the end of the items does not matter.
theorem Lockstep.of_eq {p' q' : Parser α} (h : Lockstep seam Past p' q')
    [hmoves : Moves (fun s t => s.errors <:+ t.errors) p] [hagrees : Agrees q p]
    (hend : ∀ ⦃last docs errors a t⦄,
      p ⟨[], last, docs, errors⟩ = .ok a t → q ⟨[], last, docs, errors⟩ = .ok a t)
    (heq : ∀ item rest last docs errors,
      p ⟨item :: rest, last, docs, errors⟩ = p' ⟨item :: rest, last, docs, errors⟩ ∧
        q ⟨item :: rest, last, docs, errors⟩ = q' ⟨item :: rest, last, docs, errors⟩) :
    Lockstep seam Past p q := by
  refine Lockstep.ofFront hend (.inr ⟨p', q', h, ?_⟩) fun item docs => ⟨p', q', docs, h, ?_⟩
  · exact fun _ _ => ⟨(heq _ _ _ _ _).1, (heq _ _ _ _ _).2, (heq _ _ _ _ _).1⟩
  · exact fun rest last errors => heq item rest last docs errors

end Rules

section Loops

variable {α β σ : Type} {seam : Seam} {step other : σ → Parser (σ ⊕ α)}

-- What a loop does after one of its rounds.
def goOn (step : σ → Parser (σ ⊕ α)) (fuel : Nat) : σ ⊕ α → Parser α
  | .inl state => rounds step fuel state
  | .inr a => pure a

theorem rounds_succ (fuel : Nat) (state : σ) :
    rounds step (fuel + 1) state = step state >>= goOn step fuel := by
  rw [rounds]
  rfl

theorem Advances.rounds_eq (h : Advances step) {fuel enough : Nat} {state : σ} {s : Stream}
    (hfuel : s.items.length < fuel) (henough : s.items.length < enough) :
    rounds step fuel state s = rounds step enough state s := by
  induction fuel generalizing enough state s with
  | zero => omega
  | succ fuel ih =>
      obtain ⟨enough, rfl⟩ : ∃ n, enough = n + 1 := ⟨enough - 1, by omega⟩
      rw [rounds_succ, rounds_succ]
      cases hone : step state s with
      | ok result t =>
          rw [bind_of_ok hone, bind_of_ok hone]
          cases result with
          | inl next =>
              have hless := h hone
              exact ih (by omega) (by omega)
          | inr a => rfl
      | error error t => rw [bind_of_error hone, bind_of_error hone]

-- However many rounds it takes, there are enough of them.
theorem Advances.iterate_of_rounds (h : Advances step) {fuel : Nat} {state : σ} {s t : Stream}
    {a : α} (hrounds : rounds step fuel state s = .ok a t) : iterate step state s = .ok a t := by
  have hmore := Moves.rounds_mono (Nat.le_max_left fuel (s.items.length + 1)) hrounds
  have hmax := Nat.le_max_right fuel (s.items.length + 1)
  rw [h.rounds_eq (Nat.lt_of_succ_le hmax) (Nat.lt_succ_self _)] at hmore
  exact hmore

theorem exists_rounds_iff {state : σ} {s w : Stream} {d : α} :
    (∃ more, rounds step more state s = .ok d w) ↔
      ∃ y u, step state s = .ok y u ∧ ∃ more, goOn step more y u = .ok d w := by
  constructor
  · rintro ⟨more, h⟩
    cases more with
    | zero => cases h
    | succ more =>
        rw [rounds_succ] at h
        obtain ⟨y, u, hy, hd⟩ := bind_eq_ok_iff.mp h
        exact ⟨y, u, hy, more, hd⟩
  · rintro ⟨y, u, hy, more, hd⟩
    exact ⟨more + 1, by rw [rounds_succ, bind_of_ok hy, hd]⟩

theorem exists_rounds_of_ok {state : σ} {s u w : Stream} {y : σ ⊕ α} {d : α}
    (h : step state s = .ok y u) :
    (∃ more, goOn step more y u = .ok d w) ↔ ∃ more, rounds step more state s = .ok d w := by
  rw [exists_rounds_iff]
  constructor
  · exact fun hd => ⟨y, u, h, hd⟩
  · rintro ⟨y', u', hy', hd⟩
    obtain ⟨rfl, rfl⟩ := EStateM.Result.ok.inj (h.symm.trans hy')
    exact hd

variable {Round : σ ⊕ α → Stream → σ ⊕ α → Stream → Prop} {Past : α → Stream → α → Stream → Prop}
  (hstep : ∀ state, Lockstep seam Round (step state) (other state))
include hstep

theorem late_rounds {fuel : Nat} {state : σ} {s t : Stream} {a : α}
    (h : rounds step fuel state s = .ok a t) (hs : s.items.length ≤ seam.rest.length) :
    rounds other fuel state s = .ok a t := by
  induction fuel generalizing state s with
  | zero => cases h
  | succ fuel ih =>
      rw [rounds_succ] at h ⊢
      obtain ⟨result, u, hone, hrest⟩ := bind_eq_ok_iff.mp h
      have hu := ((hstep state).moves.suffix_of_ok hone).length_le
      rw [bind_of_ok ((hstep state).late hone hs)]
      cases result with
      | inl next => exact ih hrest (by omega)
      | inr a => exact hrest

theorem before_rounds {fuel : Nat} {state : σ} {front left : List Item} {last place : Location}
    {docs filed : Docs} {a : α}
    (h : rounds step fuel state ⟨front ++ seam.ended, last, docs, []⟩ =
      .ok a ⟨left ++ seam.ended, place, filed, []⟩) :
    rounds step fuel state ⟨front ++ seam.closed, last, docs, []⟩ =
      .ok a ⟨left ++ seam.closed, place, filed, []⟩ := by
  induction fuel generalizing state front last docs with
  | zero => cases h
  | succ fuel ih =>
      rw [rounds_succ] at h ⊢
      obtain ⟨result, ⟨items, middle, others, errors⟩, hone, hrest⟩ := bind_eq_ok_iff.mp h
      cases result with
      | inl next =>
          have hmoves := Moves.rounds (fun state => (hstep state).moves) fuel next
          obtain ⟨more, hmore⟩ := hmoves.suffix_of_ok hrest
          obtain rfl : errors = [] := errors_nil_of_ok hmoves hrest rfl
          obtain rfl : (more ++ left) ++ seam.ended = items := by
            rw [List.append_assoc]
            exact hmore
          rw [bind_of_ok ((hstep state).before hone)]
          exact ih hrest
      | inr b =>
          cases hrest
          rw [bind_of_ok ((hstep state).before hone)]
          rfl

-- By induction on the rounds. Up to the one with the statement that ends at the seam both
-- loops have taken the same.
theorem past_rounds
    (hresume : ∀ ⦃x t y u⦄, Round x t y u → ∀ ⦃fuel c v⦄, goOn step fuel x t = .ok c v →
      v.errors = [] → seam.Reaches (fun d w => ∃ more, goOn step more y u = .ok d w) (Past c v))
    {fuel : Nat} {state : σ} {front : List Item} {last : Location} {docs : Docs} {c : α}
    {v : Stream} (h : rounds step fuel state ⟨front ++ seam.ended, last, docs, []⟩ = .ok c v)
    (hv : v.errors = [])
    (hne : rounds other fuel state ⟨front ++ seam.ended, last, docs, []⟩ ≠ .ok c v) :
    seam.Reaches
      (fun d w => ∃ more, rounds step more state ⟨front ++ seam.closed, last, docs, []⟩ = .ok d w)
      (Past c v) := by
  induction fuel generalizing state front last docs with
  | zero => cases h
  | succ fuel ih =>
      rw [rounds_succ] at h hne
      obtain ⟨x, t, hone, hrest⟩ := bind_eq_ok_iff.mp h
      have hmoves : Moves (fun s t => s.errors <:+ t.errors) (goOn step fuel x) := by
        cases x with
        | inl next => exact Moves.rounds (fun state => (hstep state).moves) fuel next
        | inr a => exact inferInstanceAs (Moves _ (pure a))
      have herrors := errors_nil_of_ok hmoves hrest hv
      by_cases hother : other state ⟨front ++ seam.ended, last, docs, []⟩ = .ok x t
      · rw [bind_of_ok hother] at hne
        cases x with
        | inr a => exact absurd hrest hne
        | inl next =>
            have hlength : seam.rest.length < t.items.length :=
              Nat.lt_of_not_le fun hle => hne (late_rounds hstep hrest hle)
            obtain ⟨left, hleft⟩ :=
              Seam.exists_front ((hstep state).moves.suffix_of_ok hone) hlength
            obtain ⟨items, place, others, errors⟩ := t
            obtain rfl : items = left ++ seam.ended := hleft
            obtain rfl : errors = [] := herrors
            have hbefore := (hstep state).before hone
            exact (ih hrest hne).congr fun d w => exists_rounds_of_ok hbefore
      · have hreaches := ((hstep state).past hone herrors hother).andThen
          fun y u hround => hresume hround hrest hv
        exact hreaches.congr fun d w => exists_rounds_iff.symm

theorem Lockstep.iterate (hadvances : Advances step)
    (hresume : ∀ ⦃x t y u⦄, Round x t y u → ∀ ⦃fuel c v⦄, goOn step fuel x t = .ok c v →
      v.errors = [] → seam.Reaches (fun d w => ∃ more, goOn step more y u = .ok d w) (Past c v))
    (start : σ) :
    Lockstep seam Past (iterate step start) (iterate other start) where
  moves := Moves.iterate fun state => (hstep state).moves
  agrees := Agrees.iterate fun state => (hstep state).agrees
  late _ _ _ h hs := late_rounds hstep h hs
  before _ _ _ _ _ _ _ h := hadvances.iterate_of_rounds (before_rounds hstep h)
  past front last docs c v h hv hne := by
    apply (past_rounds hstep hresume h hv hne).congr
    intro d w
    constructor
    · exact fun ⟨more, hd⟩ => hadvances.iterate_of_rounds hd
    · exact fun hd => ⟨_, hd⟩

end Loops

end Parser

end PhpLint.Syntax
