import PhpLint.Proofs.Analysis.Journal

namespace PhpLint

-- The expressions that rules look for wherever they stand: calls, new objects and arrays.
def Expr.callsOrBuilds : Expr → Bool
  | .call .. | .methodCall .. | .staticCall .. | .new .. | .array .. => true
  | _ => false

def Event.expr? (event : Event) : Option Expr :=
  event.node.expr?

-- The analysis of a statement hands over exactly the expressions that are evaluated.
theorem events_execute {d : Dispatcher} {s : Stmt} {st t : State}
    (h : execute d s st = .ok () t) :
    ∃ events, t.events = events ++ st.events ∧
      events.reverse.filterMap Event.expr? = s.visited := by
  obtain ⟨⟨outcome, scope, constants, acts⟩, haccount⟩ :=
    Accounted.execute s (fun _ => id) st.scope st.constants
  have hrun := haccount.result_eq d (s := st) rfl rfl
  rw [h] at hrun
  cases outcome with
  | error e => cases hrun
  | ok a =>
      obtain ⟨events, hevents, hnodes⟩ := st.events_performAll d acts
      cases hrun
      refine ⟨events, hevents, ?_⟩
      calc events.reverse.filterMap Event.expr?
          = (events.reverse.map Event.node).filterMap Node.expr? := by
            rw [List.filterMap_map]
            rfl
        _ = handed acts := by rw [hnodes, List.filterMap_filterMap, handed]
        _ = s.visited := haccount.handed_eq rfl

theorem filter_perm_iff {α : Type} {p : α → Bool} {part rest whole : List α}
    (h : (part ++ rest).Perm whole) :
    (part.filter p).Perm (whole.filter p) ↔ ∀ a ∈ rest, p a = false := by
  have hfilter : (part.filter p ++ rest.filter p).Perm (whole.filter p) := by
    simpa using h.filter p
  constructor
  · intro hpart a ha
    have hlength := hfilter.length_eq.trans hpart.length_eq.symm
    rw [List.length_append, Nat.add_eq_left, List.length_eq_zero_iff] at hlength
    simpa using List.filter_eq_nil_iff.mp hlength a ha
  · intro hrest
    have hnil : rest.filter p = [] := List.filter_eq_nil_iff.mpr fun a ha => by simp [hrest a ha]
    simpa [hnil] using hfilter

-- What is handed to the passes and what is left out make up the statement. So every call
-- and every array is handed over once exactly if none of them is left out, as what an
-- access to an element starts from where it is written, or in a method without a body.
theorem calls_handed_over_once_iff {d : Dispatcher} {s : Stmt} {st t : State}
    (h : execute d s st = .ok () t) :
    ∃ events, t.events = events ++ st.events ∧
      (events.filterMap Event.expr? ++ s.unread).Perm s.expressions ∧
      (((events.filterMap Event.expr?).filter Expr.callsOrBuilds).Perm
          (s.expressions.filter Expr.callsOrBuilds) ↔
        ∀ e ∈ s.unread, e.callsOrBuilds = false) := by
  obtain ⟨events, hevents, hvisited⟩ := events_execute h
  have hperm : (events.filterMap Event.expr? ++ s.unread).Perm s.expressions := by
    have hsame : (events.filterMap Event.expr?).Perm s.visited := by
      rw [← hvisited]
      exact (List.reverse_perm events).symm.filterMap _
    exact (hsame.append_right s.unread).trans (visited_append_unread_perm s)
  exact ⟨events, hevents, hperm, filter_perm_iff hperm⟩

-- In $a[f()] = array(g()) all of them are read.
theorem calls_handed_over_once_elementWrite :
    let here : Location := ⟨"", 0, 1, 1, 1⟩
    let s : Stmt := .expr (.assign none
      (.element (.var "a" here) (.call ⟨"f", here⟩ [] here) here)
      (.array [.plain (.call ⟨"g", here⟩ [] here)] .long here) here) here
    ∃ t, execute {} s {} = .ok () t ∧
      (∃ events, t.events = events ++ [] ∧
        (events.filterMap Event.expr? ++ s.unread).Perm s.expressions ∧
        (((events.filterMap Event.expr?).filter Expr.callsOrBuilds).Perm
            (s.expressions.filter Expr.callsOrBuilds) ↔
          ∀ e ∈ s.unread, e.callsOrBuilds = false)) ∧
      ∀ e ∈ s.unread, e.callsOrBuilds = false := by
  intro here s
  obtain ⟨t, ht⟩ : ∃ t, execute {} s {} = .ok () t := ⟨_, rfl⟩
  refine ⟨t, ht, calls_handed_over_once_iff ht, ?_⟩
  simp [s, Stmt.unread, Expr.unread, Expr.unreadPlace, Expr.parts, Expr.callsOrBuilds, unreadItems,
    unreadList]

-- In f()[0] = 1 the call is left out, and so are the defaults of a method without a body.
theorem calls_left_out :
    let here : Location := ⟨"", 0, 1, 1, 1⟩
    let call : Expr := .call ⟨"f", here⟩ [] here
    let write : Stmt := .expr (.assign none (.element call (.literal (.int 0) here) here)
      (.literal (.int 1) here) here) here
    let declaration : Stmt := .classDecl ⟨⟨"A", here⟩, none, [.Abstract], none⟩
      [⟨⟨⟨"m", here⟩, [⟨"a", some call, here⟩], none⟩, [.Abstract], none, here⟩] here
    ∀ s ∈ [write, declaration], ∀ d : Dispatcher,
      call ∈ s.expressions ∧ ∃ t, execute d s {} = .ok () t ∧
        ∀ event ∈ t.events, event.expr? ≠ some call := by
  intro here call write declaration s hs d
  simp only [List.mem_cons, List.not_mem_nil, or_false] at hs
  rcases hs with rfl | rfl
  · refine ⟨by simp [write, Stmt.expressions, Stmt.pieces, Expr.pieces, Expr.parts, expressionsIn,
      Piece.expr?, call], _, rfl, ?_⟩
    simp [State.visit, Event.expr?, Node.expr?, call]
  · refine ⟨by simp [declaration, Stmt.expressions, Stmt.pieces, methodPieces, Signature.pieces,
      Parameter.pieces, Expr.pieces, Expr.parts, listParts, expressionsIn, Piece.expr?, call], _,
      rfl, ?_⟩
    simp [State.visit, Event.expr?, Node.expr?]

end PhpLint
