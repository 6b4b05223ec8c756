import Mathlib.Data.List.Basic

/-!
# Machines that take their input in pieces

A transducer is started, pushed some pieces and finished; it may refuse a piece, or the end.

* `outputs`, `pieces`   what it gives for each piece, and with that what it gives at the end;
* `result`              all of it in a row;
* `Seamless`            where the input is cut makes no difference;
* `Additive`            it makes none to any push, so the machine is seamless;
* `Undoes`              a seamless machine that gives back what another was pushed;
* `ofPiece`             a machine that keeps nothing: it is seamless if it goes letter by letter.
-/

namespace Lib

structure Transducer (σ α β : Type*) where
  start : σ
  push : σ → List α → Option (List β × σ)
  finish : σ → Option (List β)

namespace Transducer
variable {σ τ α β : Type*}

section
variable (f : Transducer σ α β)

/-- what is given for each of the pieces, and the state after them -/
def outputs : σ → List (List α) → Option (List (List β) × σ)
  | s, [] => some ([], s)
  | s, x :: xs => (f.push s x).bind fun p => (outputs p.2 xs).map fun q => (p.1 :: q.1, q.2)

/-- the same, with what the end gives -/
def pieces (s : σ) (xs : List (List α)) : Option (List (List β)) :=
  (f.outputs s xs).bind fun p => (f.finish p.2).map fun y => p.1 ++ [y]

def result (xs : List (List α)) : Option (List β) := (f.pieces f.start xs).map List.flatten

/-- where the input is cut makes no difference -/
def Seamless : Prop := ∀ xs ys : List (List α), xs.flatten = ys.flatten → f.result xs = f.result ys

/-- a piece is pushed like its parts, one after the other -/
structure Additive : Prop where
  nil (s : σ) : f.push s [] = some ([], s)
  append (s : σ) (x y : List α) : f.push s (x ++ y) =
    (f.push s x).bind fun p => (f.push p.2 y).map fun q => (p.1 ++ q.1, q.2)

/-- what `f` gives for some input, `g` takes back to that input, wherever it is cut -/
structure Undoes (g : Transducer τ β α) : Prop where
  seamless : g.Seamless
  whole (xs : List (List α)) (out : List β) :
    f.result xs = some out → g.result [out] = some xs.flatten

end

variable {f : Transducer σ α β} {g : Transducer τ β α}

theorem outputs_cons (s : σ) (x : List α) (xs : List (List α)) : f.outputs s (x :: xs) =
    (f.push s x).bind fun p => (f.outputs p.2 xs).map fun q => (p.1 :: q.1, q.2) := rfl

theorem pieces_nil (s : σ) : f.pieces s [] = (f.finish s).map fun y => [y] := rfl

theorem pieces_cons (s : σ) (x : List α) (xs : List (List α)) : f.pieces s (x :: xs) =
    (f.push s x).bind fun p => (f.pieces p.2 xs).map fun ys => p.1 :: ys := by
  unfold pieces
  rw [outputs_cons, Option.bind_assoc]
  congr 1
  funext p
  rw [Option.bind_map, Option.map_bind]
  congr 1
  funext q
  rw [Function.comp_apply, Function.comp_apply, Option.map_map]
  rfl

theorem pieces_cons_some {s : σ} {x : List α} {xs : List (List α)} {outs : List (List β)}
    (h : f.pieces s (x :: xs) = some outs) :
    ∃ y s' rest, f.push s x = some (y, s') ∧ f.pieces s' xs = some rest ∧ outs = y :: rest := by
  rw [pieces_cons] at h
  obtain ⟨⟨y, s'⟩, hpush, h⟩ := Option.bind_eq_some_iff.mp h
  obtain ⟨rest, hrest, rfl⟩ := Option.map_eq_some_iff.mp h
  exact ⟨y, s', rest, hpush, hrest, rfl⟩

theorem result_some {xs : List (List α)} {out : List β} (h : f.result xs = some out) :
    ∃ outs, f.pieces f.start xs = some outs ∧ outs.flatten = out :=
  Option.map_eq_some_iff.mp h

/-! ## cuts -/

theorem Additive.outputs (h : f.Additive) (s : σ) (xs : List (List α)) :
    (f.outputs s xs).map (fun p => (p.1.flatten, p.2)) = f.push s xs.flatten := by
  induction xs generalizing s with
  | nil => exact (h.nil s).symm
  | cons x xs ih =>
    rw [outputs_cons, List.flatten_cons, h.append, Option.map_bind]
    congr 1
    funext p
    rw [Function.comp_apply, ← ih p.2, Option.map_map, Option.map_map]
    rfl

theorem Additive.result_eq (h : f.Additive) (xs : List (List α)) :
    f.result xs = (f.push f.start xs.flatten).bind fun p => (f.finish p.2).map (p.1 ++ ·) := by
  rw [← h.outputs, Option.bind_map, result, pieces, Option.map_bind]
  congr 1
  funext p
  rw [Function.comp_apply, Function.comp_apply, Option.map_map]
  congr 1
  funext y
  show (p.1 ++ [y]).flatten = p.1.flatten ++ y
  rw [List.flatten_append, List.flatten_singleton]

theorem Additive.seamless (h : f.Additive) : f.Seamless := by
  intro xs ys hflat
  rw [h.result_eq, h.result_eq, hflat]

/-- What a machine gave is taken back, however it is cut. -/
theorem Undoes.result (h : f.Undoes g) {xs : List (List α)} {ys : List (List β)} {out : List β}
    (hout : f.result xs = some out) (hcut : ys.flatten = out) :
    g.result ys = some xs.flatten := by
  have hwhole : ys.flatten = [out].flatten := by rw [hcut, List.flatten_singleton]
  rw [h.seamless ys [out] hwhole]
  exact h.whole xs out hout

/-! ## machines that keep nothing -/

/-- a machine that takes each piece on its own -/
def ofPiece (g : List α → Option (List β)) : Transducer Unit α β where
  start := ()
  push _ x := (g x).map fun y => (y, ())
  finish _ := some []

/-- what each letter gives does not depend on the others -/
def Letterwise (g : List α → Option (List β)) : Prop :=
  ∃ table : α → Option (List β), ∀ x, g x = (x.mapM table).map List.flatten

section
variable {g : List α → Option (List β)}

theorem ofPiece_pieces (xs : List (List α)) :
    (ofPiece g).pieces () xs = (xs.mapM g).map fun ys => ys ++ [[]] := by
  induction xs with
  | nil => rfl
  | cons x xs ih =>
    rw [pieces_cons, List.mapM_cons]
    show ((g x).map fun y => (y, ())).bind _ = ((g x).bind fun y => (xs.mapM g).bind _).map _
    rw [Option.bind_map, Option.map_bind]
    congr 1
    funext y
    show ((ofPiece g).pieces () xs).map _ = ((xs.mapM g).bind fun ys => some (y :: ys)).map _
    rw [ih, Option.map_map, Option.map_bind]
    cases xs.mapM g <;> rfl

theorem ofPiece_result (xs : List (List α)) :
    (ofPiece g).result xs = (xs.mapM g).map List.flatten := by
  show ((ofPiece g).pieces () xs).map List.flatten = _
  rw [ofPiece_pieces, Option.map_map]
  congr 1
  funext ys
  show (ys ++ [[]]).flatten = ys.flatten
  rw [List.flatten_append, List.flatten_singleton, List.append_nil]

theorem ofPiece_single (x : List α) : (ofPiece g).result [x] = g x := by
  rw [ofPiece_result, List.mapM_cons]
  show ((g x).bind fun y => some [y]).map List.flatten = g x
  cases g x with
  | none => rfl
  | some y => exact congrArg some List.flatten_singleton

/-- an end that gives nothing is no piece -/
theorem ofPiece_append_nil (h : g [] = some []) (xs : List (List α)) :
    (ofPiece g).result (xs ++ [[]]) = (ofPiece g).result xs := by
  rw [ofPiece_result, ofPiece_result, List.mapM_append, List.mapM_cons, h]
  show ((xs.mapM g).bind fun ys => some (ys ++ [[]])).map List.flatten = _
  cases xs.mapM g with
  | none => rfl
  | some ys =>
    show some (ys ++ [[]]).flatten = some ys.flatten
    rw [List.flatten_append, List.flatten_singleton, List.append_nil]

theorem Letterwise.additive (h : Letterwise g) : (ofPiece g).Additive := by
  obtain ⟨table, htable⟩ := h
  have hg : g = fun x => (x.mapM table).map List.flatten := funext htable
  subst hg
  refine ⟨fun _ => rfl, ?_⟩
  intro _ x y
  show (((x ++ y).mapM table).map _).map _ = (((x.mapM table).map _).map _).bind fun p =>
    (((y.mapM table).map _).map _).map _
  rw [List.mapM_append]
  cases x.mapM table with
  | none => rfl
  | some xs =>
    cases y.mapM table with
    | none => rfl
    | some ys =>
      show some ((xs ++ ys).flatten, ()) = some (xs.flatten ++ ys.flatten, ())
      rw [List.flatten_append]

/-- Only a machine that goes letter by letter can be cut anywhere. -/
theorem ofPiece_seamless_iff : (ofPiece g).Seamless ↔ Letterwise g := by
  constructor
  · intro h
    refine ⟨fun a => g [a], ?_⟩
    intro x
    have hcut : [x].flatten = (x.map fun a => [a]).flatten := by
      rw [List.flatten_singleton]
      exact (List.flatMap_singleton' x).symm
    have hsame := h [x] (x.map fun a => [a]) hcut
    rw [ofPiece_single, ofPiece_result, List.mapM_map] at hsame
    exact hsame
  · exact fun h => h.additive.seamless

end

end Transducer
end Lib
