import NovaRuntime.Lib.Run

/-!
# A server of one request at a time

What a client of such a server sees: it asks, and gets a reply to each request.

* `Server`       the request in hand, how many were taken in hand, and the replies, newest first;
* `Server.Move`  a request is taken in hand or turned away, the one in hand is answered, the server
                 closes;
* `asked`        the requests of some moves, in their order;
* `run_asked`    each request has one reply, in the order in which they came, but the one in hand;
* `run_numbered` those that were taken in hand are numbered one after the other.
-/

namespace Lib

/-- the reply to a request; `number` counts those that were taken in hand -/
structure Replied (ε ρ : Type*) where
  request : ε
  number : Option ℕ
  reply : ρ

structure Server (ε ρ : Type*) where
  inHand : Option ε
  taken : ℕ
  closed : Bool
  /-- newest first -/
  replies : List (Replied ε ρ)

inductive Server.Move (ε ρ : Type*) where
  | take (e : ε)
  | turnAway (e : ε) (r : ρ)
  | answer (r : ρ)
  | close

namespace Server
variable {ε ρ : Type*} {s t : Server ε ρ}

/-- A request comes when none is in hand, and so does the end. -/
def step (s : Server ε ρ) : Move ε ρ → Option (Server ε ρ)
  | .take e =>
    match s.inHand, s.closed with
    | none, false => some { s with inHand := some e, taken := s.taken + 1 }
    | _, _ => none
  | .turnAway e r =>
    match s.inHand with
    | none => some { s with replies := ⟨e, none, r⟩ :: s.replies }
    | some _ => none
  | .answer r =>
    match s.inHand with
    | none => none
    | some e => some { s with inHand := none, replies := ⟨e, some s.taken, r⟩ :: s.replies }
  | .close =>
    match s.inHand with
    | none => some { s with closed := true }
    | some _ => none

def fresh : Server ε ρ := ⟨none, 0, false, []⟩

/-- what the client asks with a move -/
def Move.asks : Move ε ρ → Option ε
  | .take e | .turnAway e _ => some e
  | .answer _ | .close => none

def asked (ms : List (Move ε ρ)) : List ε := ms.filterMap Move.asks

theorem asked_cons (m : Move ε ρ) (ms : List (Move ε ρ)) :
    asked (m :: ms) = m.asks.toList ++ asked ms := by
  cases m <;> rfl

theorem asked_append (ms ns : List (Move ε ρ)) : asked (ms ++ ns) = asked ms ++ asked ns :=
  List.filterMap_append

/-- the requests that have a reply, and the one in hand, oldest first -/
def requests (s : Server ε ρ) : List ε := (s.replies.map Replied.request).reverse ++ s.inHand.toList

/-- the numbers of the replies, newest first -/
def numbers (s : Server ε ρ) : List ℕ := s.replies.filterMap Replied.number

/-- Everything a move can do. -/
inductive Step (s : Server ε ρ) : Move ε ρ → Server ε ρ → Prop
  | take (e : ε) (hidle : s.inHand = none) (hopen : s.closed = false) :
      Step s (.take e) { s with inHand := some e, taken := s.taken + 1 }
  | turnAway (e : ε) (r : ρ) (hidle : s.inHand = none) :
      Step s (.turnAway e r) { s with replies := ⟨e, none, r⟩ :: s.replies }
  | answer (e : ε) (r : ρ) (hbusy : s.inHand = some e) :
      Step s (.answer r) { s with inHand := none, replies := ⟨e, some s.taken, r⟩ :: s.replies }
  | close (hidle : s.inHand = none) : Step s .close { s with closed := true }

theorem step_cases {m : Move ε ρ} (h : step s m = some t) : Step s m t := by
  cases m with
  | take e =>
    simp only [step] at h
    split at h
    · next hidle hopen =>
      cases h
      exact .take e hidle hopen
    · cases h
  | turnAway e r =>
    simp only [step] at h
    split at h
    · next hidle =>
      cases h
      exact .turnAway e r hidle
    · cases h
  | answer r =>
    simp only [step] at h
    split at h
    · cases h
    · next e hbusy =>
      cases h
      exact .answer e r hbusy
  | close =>
    simp only [step] at h
    split at h
    · next hidle =>
      cases h
      exact .close hidle
    · cases h

/-! ## what a client can rely on -/

theorem step_asked {m : Move ε ρ} (h : step s m = some t) :
    t.requests = s.requests ++ m.asks.toList := by
  cases step_cases h with
  | take e hidle hopen =>
    show _ ++ [e] = _ ++ s.inHand.toList ++ [e]
    rw [hidle, Option.toList_none, List.append_nil]
  | turnAway e r hidle =>
    show (List.map Replied.request (_ :: _)).reverse ++ s.inHand.toList = _ ++ s.inHand.toList ++ [e]
    rw [hidle, List.map_cons, List.reverse_cons, Option.toList_none, List.append_nil,
      List.append_nil]
  | answer e r hbusy =>
    show (List.map Replied.request (_ :: _)).reverse ++ [] = _ ++ s.inHand.toList ++ []
    rw [hbusy, List.map_cons, List.reverse_cons, List.append_nil, List.append_nil]
    rfl
  | close hidle => exact (List.append_nil _).symm

/-- Each request of a run has one reply, in their order, but the one in hand. -/
theorem run_asked {ms : List (Move ε ρ)} (h : run step s ms = some t) :
    t.requests = s.requests ++ asked ms := by
  induction ms generalizing s with
  | nil =>
    rw [run_nil, Option.some.injEq] at h
    rw [h]
    exact (List.append_nil _).symm
  | cons m ms ih =>
    obtain ⟨s', h1, h2⟩ := run_cons_some _ h
    rw [ih h2, step_asked h1, asked_cons, List.append_assoc]

/-- The requests that were taken in hand are numbered in their order, without a gap. -/
def Numbered (s : Server ε ρ) : Prop :=
  s.numbers.reverse ++ (s.inHand.map fun _ => s.taken).toList = List.range' 1 s.taken

theorem fresh_numbered : (fresh : Server ε ρ).Numbered := rfl

theorem Numbered.step {m : Move ε ρ} (hs : s.Numbered) (h : step s m = some t) : t.Numbered := by
  unfold Numbered at hs ⊢
  cases step_cases h with
  | take e hidle hopen =>
    rw [hidle, Option.map_none, Option.toList_none, List.append_nil] at hs
    show s.numbers.reverse ++ [s.taken + 1] = List.range' 1 (s.taken + 1)
    rw [hs, List.range'_1_concat, Nat.add_comm]
  | turnAway e r hidle => exact hs
  | answer e r hbusy =>
    rw [hbusy] at hs
    show (s.taken :: s.numbers).reverse ++ [] = List.range' 1 s.taken
    rw [List.reverse_cons, List.append_nil]
    exact hs
  | close hidle => exact hs

theorem run_numbered {ms : List (Move ε ρ)} (h : run step fresh ms = some t) : t.Numbered :=
  run_inv step (fun _ _ _ hs h => hs.step h) fresh_numbered h

end Server

end Lib
