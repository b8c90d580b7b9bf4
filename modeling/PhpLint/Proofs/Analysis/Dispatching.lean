import Mathlib.Data.List.Forall2
import PhpLint.Analysis.Dispatcher

namespace PhpLint

namespace Routes

theorem get?_add (position : Nat) (routes : Routes) (kind other : NodeKind) :
    (routes.add position kind).get? other =
      if other = kind then some ((routes.get? other).getD [] ++ [position])
      else routes.get? other := by
  rw [add, Entries.get?_put]
  split
  · next h => rw [h]
  · rfl

-- By induction on the kinds. A kind that is given twice would get two entries.
theorem get?_addAll (position : Nat) {kinds : List NodeKind} (hkinds : kinds.Nodup)
    (routes : Routes) (other : NodeKind) :
    (kinds.foldl (Routes.add position) routes).get? other =
      if other ∈ kinds then some ((routes.get? other).getD [] ++ [position])
      else routes.get? other := by
  induction kinds generalizing routes with
  | nil => rfl
  | cons kind kinds ih =>
      obtain ⟨hkind, hrest⟩ := List.nodup_cons.mp hkinds
      rw [List.foldl_cons, ih hrest, get?_add]
      by_cases hother : other = kind
      · subst hother
        simp [hkind]
      · simp [hother]

end Routes

namespace Dispatcher

-- A call that registers a pass.
inductive Registration (P : Type) where
  | added (pass : P)
  | registered (kind : NodeKind) (pass : P)

-- A call of a dispatcher.
inductive Call (P : Type) where
  | enter (registration : Registration P)
  | dispatch (node : Node)

-- A dispatcher in use, with the context in which its passes run.
structure Session (P C : Type) where
  dispatcher : Dispatcher P
  context : C

variable {P C : Type} [Handler P C]

namespace Registration

def pass : Registration P → P
  | added pass | registered _ pass => pass

-- Whether the pass is to run on nodes of the kind.
def Serves : Registration P → NodeKind → Prop
  | added pass, kind => kind ∈ Handler.kinds pass
  | registered served _, kind => kind = served

instance (r : Registration P) (kind : NodeKind) : Decidable (r.Serves kind) :=
  match r with
  | added pass => inferInstanceAs (Decidable (kind ∈ Handler.kinds pass))
  | registered served _ => inferInstanceAs (Decidable (kind = served))

def enterInto (d : Dispatcher P) : Registration P → Dispatcher P
  | added pass => d.add pass
  | registered kind pass => d.register kind pass

theorem passes_enterInto (d : Dispatcher P) (r : Registration P) :
    (r.enterInto d).passes = d.passes ++ [r.pass] := by
  cases r <;> rfl

-- The kinds that a pass serves get its position, and no other kind does.
theorem get?_enterInto (d : Dispatcher P) (r : Registration P) (kind : NodeKind) :
    (r.enterInto d).routes.get? kind =
      if r.Serves kind then some ((d.routes.get? kind).getD [] ++ [d.passes.length])
      else d.routes.get? kind := by
  cases r with
  | added pass =>
      have hall : (NodeKind.all.filter (· ∈ Handler.kinds pass)).Nodup :=
        NodeKind.nodup_all.filter _
      rw [enterInto, add, enter, Routes.get?_addAll _ hall]
      by_cases hkind : kind ∈ Handler.kinds pass
      · simp [hkind, NodeKind.mem_all, Serves]
      · simp [hkind, Serves]
  | registered served pass => exact Routes.get?_add d.passes.length d.routes served kind

end Registration

-- What a pass has become by running on nodes.
inductive Became : P → P → Prop where
  | same (pass : P) : Became pass pass
  | run {first pass : P} (node : Node) (context : C) :
      Became first pass → Became first (Handler.run pass node context).2.1

-- The positions of the registrations for a kind.
def positions (registrations : List (Registration P)) (kind : NodeKind) : List Nat :=
  (registrations.zipIdx.filter (·.1.Serves kind)).map Prod.snd

section Positions

variable {registrations : List (Registration P)} {kind : NodeKind}

theorem positions_append (r : Registration P) :
    positions (registrations ++ [r]) kind =
      positions registrations kind ++ if r.Serves kind then [registrations.length] else [] := by
  rw [positions, List.zipIdx_append, List.filter_append, List.map_append]
  split
  · next h => simp [positions, h]
  · next h => simp [positions, h]

theorem mem_positions {position : Nat} :
    position ∈ positions registrations kind ↔
      ∃ r, registrations[position]? = some r ∧ r.Serves kind := by
  simp [positions, List.mk_mem_zipIdx_iff_getElem?]

theorem lt_length_of_mem_positions {position : Nat}
    (h : position ∈ positions registrations kind) : position < registrations.length := by
  obtain ⟨r, hr, -⟩ := mem_positions.mp h
  exact (List.getElem?_eq_some_iff.mp hr).1

theorem pairwise_positions : (positions registrations kind).Pairwise (· < ·) := by
  refine List.Pairwise.sublist (List.filter_sublist.map Prod.snd) ?_
  rw [List.zipIdx_map_snd]
  exact List.pairwise_lt_range'

theorem positions_ne_nil_iff :
    positions registrations kind ≠ [] ↔ ∃ r ∈ registrations, r.Serves kind := by
  constructor
  · intro h
    obtain ⟨position, hposition⟩ := List.exists_mem_of_ne_nil _ h
    obtain ⟨r, hr, hserves⟩ := mem_positions.mp hposition
    exact ⟨r, List.mem_of_getElem? hr, hserves⟩
  · rintro ⟨r, hr, hserves⟩
    obtain ⟨position, hposition⟩ := List.mem_iff_getElem?.mp hr
    exact List.ne_nil_of_mem (mem_positions.mpr ⟨r, hposition, hserves⟩)

theorem filterMap_positions :
    (positions registrations kind).filterMap (fun p => registrations[p]?) =
      registrations.filter (·.Serves kind) := by
  have hget : ∀ x ∈ registrations.zipIdx.filter (·.1.Serves kind),
      registrations[x.2]? = some x.1 := by
    intro x hx
    exact List.mk_mem_zipIdx_iff_getElem?.mp (List.mem_of_mem_filter hx)
  rw [positions, List.filterMap_map]
  calc (registrations.zipIdx.filter (·.1.Serves kind)).filterMap (fun x => registrations[x.2]?)
      = (registrations.zipIdx.filter (·.1.Serves kind)).filterMap (fun x => some x.1) :=
        List.filterMap_congr hget
    _ = registrations.filter (·.Serves kind) := by
        have hfilter := List.filter_map (f := Prod.fst)
          (p := fun r : Registration P => decide (r.Serves kind)) (l := registrations.zipIdx)
        rw [List.zipIdx_map_fst] at hfilter
        rw [hfilter]
        exact congrFun List.filterMap_eq_map _

end Positions

-- The passes are those that were registered, in that order, and the table has for each kind
-- the positions of the passes that serve it, and no entry where there are none.
structure IsConsistentWith (registrations : List (Registration P)) (d : Dispatcher P) : Prop where
  passes : List.Forall₂ (fun r pass => Became r.pass pass) registrations d.passes
  routes : ∀ kind, (d.routes.get? kind).getD [] = positions registrations kind
  entries : ∀ kind, d.routes.get? kind ≠ some []

namespace IsConsistentWith

variable {registrations : List (Registration P)} {d : Dispatcher P}

theorem nil : IsConsistentWith [] ({} : Dispatcher P) where
  passes := .nil
  routes _ := rfl
  entries _ := nofun

theorem length_eq (h : IsConsistentWith registrations d) :
    d.passes.length = registrations.length :=
  h.passes.length_eq.symm

theorem enterInto (h : IsConsistentWith registrations d) (r : Registration P) :
    IsConsistentWith (registrations ++ [r]) (r.enterInto d) where
  passes := by
    rw [r.passes_enterInto]
    exact List.rel_append h.passes (.cons (.same _) .nil)
  routes kind := by
    rw [r.get?_enterInto, positions_append, ← h.routes kind, h.length_eq]
    split <;> simp
  entries kind := by
    rw [r.get?_enterInto]
    split
    · simp
    · exact h.entries kind

-- A pass that has run stays where it is.
theorem set (h : IsConsistentWith registrations d) {position : Nat} {pass : P}
    (hpass : d.passes[position]? = some pass) (node : Node) (context : C) :
    IsConsistentWith registrations
      { d with passes := d.passes.set position (Handler.run pass node context).2.1 } where
  passes := by
    obtain ⟨hlength, hget⟩ := List.forall₂_iff_get.mp h.passes
    refine List.forall₂_iff_get.mpr ⟨by simp [hlength], fun i hi hi' => ?_⟩
    simp only [List.get_eq_getElem, List.getElem_set]
    split
    · next hposition =>
        subst hposition
        obtain ⟨hlt, rfl⟩ := List.getElem?_eq_some_iff.mp hpass
        exact .run node context (hget position hi hlt)
    · exact hget i hi (by simpa using hi')
  routes := h.routes
  entries := h.entries

end IsConsistentWith

theorem isConsistentWith_ofPasses (passes : List P) :
    (ofPasses passes).IsConsistentWith (passes.map .added) := by
  have hfold (d : Dispatcher P) (registrations : List (Registration P))
      (h : d.IsConsistentWith registrations) :
      (passes.foldl add d).IsConsistentWith (registrations ++ passes.map .added) := by
    induction passes generalizing d registrations with
    | nil => simpa using h
    | cons pass passes ih => simpa using ih (d.add pass) _ (h.enterInto (.added pass))
  exact hfold {} [] .nil

-- Passes run on a node one after the other, each in the context that the one before it has
-- left, whatever that one has told. No other pass changes.
inductive RunInTurn (node : Node) : List P → C → List (Nat × Bool) → List P → C → Prop
  | done (passes : List P) (context : C) : RunInTurn node passes context [] passes context
  | next {position : Nat} {pass pass' : P} {reported : Bool} {runs : List (Nat × Bool)}
      {passes passes' : List P} {before between after : C}
      (hpass : passes[position]? = some pass)
      (hrun : Handler.run pass node before = (reported, pass', between))
      (hrest : RunInTurn node (passes.set position pass') between runs passes' after) :
      RunInTurn node passes before ((position, reported) :: runs) passes' after

-- Exactly the passes that were registered for the kind of the node run on it, each of them
-- once, in the order of their registrations.
structure FollowsRegistration (registrations : List (Registration P)) (node : Node)
    (passes : List P) (context : C) (dispatched : Dispatched P C) : Prop where
  inOrder : (dispatched.runs.map Prod.fst).Pairwise (· < ·)
  mem_iff : ∀ position, position ∈ dispatched.runs.map Prod.fst ↔
    ∃ r, registrations[position]? = some r ∧ r.Serves node.kind
  inTurn : RunInTurn node passes context dispatched.runs dispatched.dispatcher.passes
    dispatched.context

section Dispatch

variable {registrations : List (Registration P)} {d : Dispatcher P}

-- By induction on the positions, none of which is outside.
theorem runAt_of_lt (node : Node) {ps : List Nat} (hps : ∀ p ∈ ps, p < d.passes.length)
    (hd : d.IsConsistentWith registrations) (context : C) :
    (runAt node ps d context).answer = .ok true ∧
      (runAt node ps d context).runs.map Prod.fst = ps ∧
      (runAt node ps d context).dispatcher.IsConsistentWith registrations ∧
      (runAt node ps d context).dispatcher.routes = d.routes ∧
      RunInTurn node d.passes context (runAt node ps d context).runs
        (runAt node ps d context).dispatcher.passes (runAt node ps d context).context := by
  induction ps generalizing d context with
  | nil => exact ⟨rfl, rfl, hd, rfl, .done _ _⟩
  | cons p ps ih =>
      obtain ⟨hp, hrest⟩ := List.forall_mem_cons.mp hps
      have hpass : d.passes[p]? = some d.passes[p] := List.getElem?_eq_getElem hp
      obtain ⟨hanswer, hruns, hconsistent, hroutes, hturn⟩ :=
        ih (by simpa using hrest) (hd.set hpass node context)
          (Handler.run d.passes[p] node context).2.2
      simp only [runAt, hpass]
      exact ⟨hanswer, congrArg (p :: ·) hruns, hconsistent, hroutes, .next hpass rfl hturn⟩

-- The table says which passes run, and whether there are any.
theorem IsConsistentWith.dispatch (hd : d.IsConsistentWith registrations) (node : Node)
    (context : C) :
    FollowsRegistration registrations node d.passes context (d.dispatch node context) ∧
      (∃ answer, (d.dispatch node context).answer = .ok answer ∧
        (answer = true ↔ ∃ r ∈ registrations, r.Serves node.kind)) ∧
      (d.dispatch node context).dispatcher.routes = d.routes ∧
      (d.dispatch node context).dispatcher.IsConsistentWith registrations := by
  have hroutes := hd.routes node.kind
  have hentries := hd.entries node.kind
  rw [Dispatcher.dispatch]
  cases hget : d.routes.get? node.kind with
  | none =>
      rw [hget, Option.getD_none] at hroutes
      have hnone : ¬∃ r ∈ registrations, r.Serves node.kind := by
        rw [← positions_ne_nil_iff, ← hroutes]
        exact fun h => h rfl
      refine ⟨⟨.nil, fun position => ?_, .done _ _⟩, ⟨false, rfl, by simp [hnone]⟩, rfl, hd⟩
      rw [← mem_positions, ← hroutes]
      rfl
  | some ps =>
      rw [hget, Option.getD_some] at hroutes
      have hsome : ∃ r ∈ registrations, r.Serves node.kind := by
        rw [← positions_ne_nil_iff, ← hroutes]
        rintro rfl
        exact hentries hget
      have hlt : ∀ p ∈ ps, p < d.passes.length := by
        intro p hp
        rw [hd.length_eq]
        exact lt_length_of_mem_positions (hroutes ▸ hp)
      obtain ⟨hanswer, hruns, hconsistent, hsame, hturn⟩ := runAt_of_lt node hlt hd context
      refine ⟨⟨?_, fun position => ?_, hturn⟩, ⟨true, hanswer, by simp [hsome]⟩, hsame, hconsistent⟩
      · rw [hruns, hroutes]
        exact pairwise_positions
      · rw [hruns, hroutes]
        exact mem_positions

end Dispatch

def Call.registration? : Call P → Option (Registration P)
  | enter registration => some registration
  | dispatch _ => none

namespace Session

def perform (s : Session P C) : Call P → Session P C
  | .enter registration => { s with dispatcher := registration.enterInto s.dispatcher }
  | .dispatch node =>
    let dispatched := s.dispatcher.dispatch node s.context
    ⟨dispatched.dispatcher, dispatched.context⟩

def performAll (s : Session P C) (calls : List (Call P)) : Session P C :=
  calls.foldl perform s

variable {registrations : List (Registration P)}

theorem isConsistentWith_perform {s : Session P C}
    (h : s.dispatcher.IsConsistentWith registrations) (call : Call P) :
    (s.perform call).dispatcher.IsConsistentWith
      (registrations ++ call.registration?.toList) := by
  cases call with
  | enter r => exact h.enterInto r
  | dispatch node =>
      rw [Call.registration?, Option.toList_none, List.append_nil]
      exact (h.dispatch node s.context).2.2.2

-- By induction on the calls.
theorem isConsistentWith_performAll {s : Session P C}
    (h : s.dispatcher.IsConsistentWith registrations) (calls : List (Call P)) :
    (s.performAll calls).dispatcher.IsConsistentWith
      (registrations ++ calls.filterMap Call.registration?) := by
  induction calls generalizing s registrations with
  | nil => simpa [performAll] using h
  | cons call calls ih =>
      have hrest := ih (isConsistentWith_perform h call)
      rw [List.append_assoc] at hrest
      cases call <;> exact hrest

end Session

-- Whatever was called before, a node goes to the passes that were registered for its kind.
-- No position is outside, and the passes stay registered as they are.
theorem dispatch_follows_registration (calls : List (Call P)) (start : C) (node : Node)
    (context : C) :
    let d := (Session.performAll ⟨{}, start⟩ calls).dispatcher
    let registrations := calls.filterMap Call.registration?
    let dispatched := d.dispatch node context
    d.IsConsistentWith registrations ∧
      FollowsRegistration registrations node d.passes context dispatched ∧
      (∃ answer, dispatched.answer = .ok answer ∧
        (answer = true ↔ ∃ r ∈ registrations, r.Serves node.kind)) ∧
      (∀ position ∈ dispatched.runs.map Prod.fst, position < d.passes.length) ∧
      dispatched.dispatcher.routes = d.routes ∧
      dispatched.dispatcher.IsConsistentWith registrations := by
  intro d registrations dispatched
  have hd : d.IsConsistentWith registrations :=
    Session.isConsistentWith_performAll (s := ⟨{}, start⟩) IsConsistentWith.nil calls
  obtain ⟨hfollows, hanswer, hroutes, hconsistent⟩ := hd.dispatch node context
  refine ⟨hd, hfollows, hanswer, fun position hposition => ?_, hroutes, hconsistent⟩
  rw [hd.length_eq]
  exact lt_length_of_mem_positions (mem_positions.mpr ((hfollows.mem_iff position).mp hposition))

end Dispatcher

end PhpLint
