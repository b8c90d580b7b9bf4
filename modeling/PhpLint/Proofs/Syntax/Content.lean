import PhpLint.Proofs.Syntax.StatementLayout

namespace PhpLint.Syntax

open PhpLint.Syntax.Parser

-- What holds between a stream, the nodes that are built, and the stream that is left:
-- items and comments are taken, a placeholder is made where an error is reported, and the
-- call of a function is made of the name in front and of what follows it.
class Track (H : Stream → List Piece → Stream → Prop) : Prop where
  refl : ∀ s, H s [] s
  trans : ∀ {s t u v w}, H s v t → H t w u → H s (v ++ w) u
  taken : ∀ item rest last docs errors,
    H ⟨item :: rest, last, docs, errors⟩ [] ⟨rest, item.location, docs, errors⟩
  withdrawn : ∀ item rest last docs errors, H ⟨item :: rest, last, docs, errors⟩ []
    ⟨item :: rest, last, docs.remove item.location.start, errors⟩
  missing : ∀ item rest last docs errors, H ⟨item :: rest, last, docs, errors⟩
    [.expr (.invalid item.location)]
    ⟨item :: rest, last, docs, .unexpectedToken .expression item.location :: errors⟩
  plain : ∀ {piece s w t}, piece.isPlain → H s w t → H s (piece :: w) t
  called : ∀ {item rest last docs errors name arguments w t}, item.location = name.location →
    H ⟨rest, item.location, docs, errors⟩ w t →
    H ⟨item :: rest, last, docs, errors⟩
      (.expr (.call name arguments (name.location.cover t.last)) :: w) t

section Track

variable {H : Stream → List Piece → Stream → Prop} [hH : Track H]

instance : Passage fun s t => H s [] t where
  refl := hH.refl
  trans _ _ _ hst htu := hH.trans hst htu
  taken := hH.taken

instance : Filing fun s t => H s [] t where
  withdrawn h _ := hH.trans (hH.withdrawn ..) h

theorem track_taken {item : Item} {rest : List Item} {last : Location} {docs : Docs}
    {errors : List SyntaxError} {v : List Piece} {t : Stream}
    (h : H ⟨rest, item.location, docs, errors⟩ v t) : H ⟨item :: rest, last, docs, errors⟩ v t :=
  hH.trans (hH.taken item rest last docs errors) h

-- A region is built once all of its parts are.
theorem track_region {s t : Stream} {r : Region} {v : List Region} (hinner : r.inner = v)
    (hplain : r.isPlain) (h : H s (v.flatMap Region.pieces) t) :
    H s ([r].flatMap Region.pieces) t := by
  rw [List.flatMap_singleton, r.pieces_eq, hinner]
  rw [Region.isPlain] at hplain
  cases hpiece : r.piece? with
  | none => exact h
  | some piece => exact hH.plain (by simpa [hpiece] using hplain) h

theorem track_call {item : Item} {rest : List Item} {last : Location} {docs : Docs}
    {errors : List SyntaxError} {e : Expr} {name : Identifier} {v : List Region} {t : Stream}
    (hinner : e.inner = .name name :: v) (hname : name.location = item.location)
    (hlocation : e.location = item.location.cover t.last)
    (h : H ⟨rest, item.location, docs, errors⟩ (v.flatMap Region.pieces) t) :
    H ⟨item :: rest, last, docs, errors⟩ ([.expr e].flatMap Region.pieces) t := by
  by_cases hplain : (Region.expr e).isPlain
  · exact track_region hinner hplain (track_taken h)
  · cases e with
    | call other arguments location =>
        cases hinner
        cases hlocation
        rw [← hname]
        rw [List.flatMap_singleton, Region.pieces_eq]
        exact hH.called hname.symm h
    | invalid => cases hinner
    | _ => exact absurd rfl hplain

-- By induction on how the regions come about.
theorem Lays.track {s t : Stream} {v : List Region} (h : Lays s v t) :
    H s (v.flatMap Region.pieces) t := by
  induction h with
  | refl s => exact hH.refl s
  | trans _ _ hst htu =>
      rw [List.flatMap_append]
      exact hH.trans hst htu
  | taken item rest last docs errors => exact hH.taken item rest last docs errors
  | missing item rest last docs errors => exact hH.missing item rest last docs errors
  | withdrawn _ _ ih => exact hH.trans (hH.withdrawn ..) ih
  | opened _ hinner hplain _ _ ih => exact track_region hinner hplain (track_taken ih)
  | declared _ hinner hplain _ _ _ ih =>
      exact track_region hinner hplain (hH.trans (hH.withdrawn ..) (track_taken ih))
  | front _ _ hinner hplain _ _ _ ih => exact track_region hinner hplain ih
  | called _ hinner hname hlocation ih => exact track_call hinner hname hlocation ih
  | prefixed _ hinner hplain _ ih => exact track_region hinner hplain (track_taken ih)
  | extended _ _ hinner hplain _ hst htu =>
      have hparts := hH.trans hst (track_taken htu)
      rw [← List.flatMap_append] at hparts
      exact track_region hinner hplain hparts
  | joined _ hinner hplain _ ih => exact track_region hinner hplain ih

theorem track_statementAt {depth : Nat} {s t : Stream} {statement : Option Stmt}
    (h : statementAt depth s = .ok statement t) :
    H s (statement.toList.flatMap Stmt.pieces) t := by
  have hlays := (gives_statementAt depth s h).lays.track (H := H)
  rwa [List.flatMap_map] at hlays

end Track

end PhpLint.Syntax
