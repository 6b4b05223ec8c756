import NovaRuntime.Lib.Text

/-!
# URLs: records, their text, and the path of a text

* `pathOf`     the path of a URL's text, between its authority and its query;
* `isDot`      a segment that stands for this directory or the one above, its dots plain or encoded;
* `Dotted`     a text whose path has such a segment;
* `Parts`      what a parsed URL consists of, and `href`, its text (the WHATWG serializer);
* `Valid`      what a parser sees to: no dot segment is left in a path of segments, and a path that
               is not one is kept as it was written;
* `dotted_href_iff`   whose texts are dotted all the same.
-/

namespace Lib
namespace Url

/-! ## the path of a text -/

def segmentsOf : Text → List Text
  | [] => [[]]
  | c :: r =>
    if c = 47 then [] :: segmentsOf r
    else
      match segmentsOf r with
      | [] => [[c]]
      | s :: ss => (c :: s) :: ss

def endsScheme (c : Nat) : Bool := c = 58 || c = 47 || c = 63 || c = 35

def endsAuthority (c : Nat) : Bool := c = 47 || c = 63 || c = 35

def endsPath (c : Nat) : Bool := c = 63 || c = 35

def afterScheme (s : Text) : Text :=
  match s.dropWhile fun c => !endsScheme c with
  | 58 :: r => r
  | _ => s

def afterAuthority : Text → Text
  | 47 :: 47 :: r => r.dropWhile fun c => !endsAuthority c
  | s => s

def pathOf (s : Text) : Text := (afterAuthority (afterScheme s)).takeWhile fun c => !endsPath c

/-- a segment with its encoded dots decoded -/
def plainDots : Text → Text
  | 37 :: 50 :: c :: r => if c = 101 ∨ c = 69 then 46 :: plainDots r else 37 :: plainDots (50 :: c :: r)
  | c :: r => c :: plainDots r
  | [] => []

def isDot (segment : Text) : Bool := plainDots segment = [46] || plainDots segment = [46, 46]

/-- The path of this text has a dot segment. -/
def Dotted (s : Text) : Prop := ∃ segment ∈ segmentsOf (pathOf s), isDot segment = true

instance (s : Text) : Decidable (Dotted s) := by unfold Dotted; infer_instance

/-! ## records -/

inductive Path where
  | opaquePath (text : Text)
  | segments (ss : List Text)

/-- the components of a URL; the authority is all that stands between `//` and the path -/
structure Parts where
  scheme : Text
  authority : Option Text
  path : Path
  query : Option Text
  fragment : Option Text

/-- segments, a slash before each -/
def joined (ss : List Text) : Text := ss.flatMap (47 :: ·)

/-- The segments as they are written: without an authority, `/.` goes before a path that starts with
an empty segment, so that it does not read as an authority. -/
def written (authority : Option Text) : List Text → List Text
  | [] :: s :: ss => if authority = none then [46] :: [] :: s :: ss else [] :: s :: ss
  | ss => ss

def pathText (authority : Option Text) : Path → Text
  | .opaquePath t => t
  | .segments ss => joined (written authority ss)

def authorityText : Option Text → Text
  | some a => 47 :: 47 :: a
  | none => []

/-- a component after its mark -/
def marked (mark : Nat) : Option Text → Text
  | some t => mark :: t
  | none => []

def Parts.href (u : Parts) : Text :=
  u.scheme ++ 58 :: (authorityText u.authority ++ (pathText u.authority u.path ++
    (marked 63 u.query ++ marked 35 u.fragment)))

/-- what a parser sees to about a path -/
def Path.Valid (authority : Option Text) : Path → Prop
  | .opaquePath t => authority = none ∧ t.head? ≠ some 47 ∧ ∀ c ∈ t, endsPath c = false
  | .segments ss => ∀ s ∈ ss, isDot s = false ∧ ∀ c ∈ s, endsAuthority c = false

structure Parts.Valid (u : Parts) : Prop where
  scheme : ∀ c ∈ u.scheme, endsScheme c = false
  authority : ∀ a, u.authority = some a → ∀ c ∈ a, endsAuthority c = false
  path : u.path.Valid u.authority

/-! ## the path of a record's text -/

theorem segmentsOf_plain {s : Text} (h : ∀ c ∈ s, c ≠ 47) : segmentsOf s = [s] := by
  induction s with
  | nil => rfl
  | cons c s ih =>
    obtain ⟨hc, hs⟩ := List.forall_mem_cons.mp h
    rw [segmentsOf, if_neg hc, ih hs]

theorem segmentsOf_slash {s : Text} (h : ∀ c ∈ s, c ≠ 47) (r : Text) :
    segmentsOf (s ++ 47 :: r) = s :: segmentsOf r := by
  induction s with
  | nil => exact if_pos rfl
  | cons c s ih =>
    obtain ⟨hc, hs⟩ := List.forall_mem_cons.mp h
    rw [List.cons_append, segmentsOf, if_neg hc, ih hs]

theorem joined_cons (s : Text) (ss : List Text) : joined (s :: ss) = 47 :: (s ++ joined ss) := rfl

theorem segmentsOf_joined {s : Text} {ss : List Text} (h : ∀ t ∈ s :: ss, ∀ c ∈ t, c ≠ 47) :
    segmentsOf (s ++ joined ss) = s :: ss := by
  induction ss generalizing s with
  | nil =>
    rw [joined, List.flatMap_nil, List.append_nil]
    exact segmentsOf_plain (h s List.mem_cons_self)
  | cons t ss ih =>
    obtain ⟨hs, hss⟩ := List.forall_mem_cons.mp h
    rw [joined_cons, segmentsOf_slash hs, ih hss]

theorem mem_joined {ss : List Text} {c : Nat} (h : c ∈ joined ss) : c = 47 ∨ ∃ s ∈ ss, c ∈ s := by
  obtain ⟨s, hs, hc⟩ := List.mem_flatMap.mp h
  rcases List.mem_cons.mp hc with rfl | hc
  · exact .inl rfl
  · exact .inr ⟨s, hs, hc⟩

/-- a text that is empty or begins with a mark of query or fragment -/
def Tail (r : Text) : Prop := ∀ c ∈ r.head?, endsPath c = true

theorem tail_marked (query fragment : Option Text) : Tail (marked 63 query ++ marked 35 fragment) := by
  intro c hc
  cases query with
  | some q =>
    cases hc
    rfl
  | none =>
    cases fragment with
    | some f =>
      cases hc
      rfl
    | none => cases hc

theorem takeWhile_path {p r : Text} (hp : ∀ c ∈ p, endsPath c = false) (hr : Tail r) :
    ((p ++ r).takeWhile fun c => !endsPath c) = p := by
  have hstop : (r.takeWhile fun c => !endsPath c) = [] := by
    cases r with
    | nil => rfl
    | cons c r =>
      have hc : endsPath c = true := hr c rfl
      exact List.takeWhile_cons_of_neg (by rw [hc]; decide)
  rw [List.takeWhile_append_of_pos (fun c hc => by rw [hp c hc]; rfl), hstop, List.append_nil]

theorem afterScheme_href {scheme : Text} (h : ∀ c ∈ scheme, endsScheme c = false) (r : Text) :
    afterScheme (scheme ++ 58 :: r) = r := by
  have hdrop : (scheme ++ 58 :: r).dropWhile (fun c => !endsScheme c) = 58 :: r := by
    rw [List.dropWhile_append_of_pos fun c hc => by rw [h c hc]; rfl]
    rfl
  rw [afterScheme, hdrop]
  rfl

theorem afterAuthority_some {a r : Text} (ha : ∀ c ∈ a, endsAuthority c = false)
    (hr : ∀ c ∈ r.head?, endsAuthority c = true) :
    afterAuthority (authorityText (some a) ++ r) = r := by
  have hstop : (r.dropWhile fun c => !endsAuthority c) = r := by
    cases r with
    | nil => rfl
    | cons c r =>
      have hc : endsAuthority c = true := hr c rfl
      exact List.dropWhile_cons_of_neg (by rw [hc]; decide)
  show ((a ++ r).dropWhile fun c => !endsAuthority c) = r
  rw [List.dropWhile_append_of_pos (fun c hc => by rw [ha c hc]; rfl), hstop]

/-- A text that does not begin with two slashes has no authority. -/
theorem afterAuthority_none {r : Text} (h : ∀ t, r ≠ 47 :: 47 :: t) : afterAuthority r = r := by
  unfold afterAuthority
  split
  · next t => exact absurd rfl (h t)
  · rfl

theorem endsPath_of_authority {c : Nat} (h : endsAuthority c = false) : endsPath c = false := by
  simp only [endsAuthority, endsPath, Bool.or_eq_false_iff, decide_eq_false_iff_not] at h ⊢
  omega

theorem ne_slash_of_authority {c : Nat} (h : endsAuthority c = false) : c ≠ 47 := by
  simp only [endsAuthority, Bool.or_eq_false_iff, decide_eq_false_iff_not] at h
  omega

theorem joined_path {ss : List Text} (h : ∀ s ∈ ss, ∀ c ∈ s, endsAuthority c = false) :
    ∀ c ∈ joined ss, endsPath c = false := by
  intro c hc
  rcases mem_joined hc with rfl | ⟨s, hs, hc⟩
  · rfl
  · exact endsPath_of_authority (h s hs c hc)

theorem joined_head (ss : List Text) : ∀ c ∈ (joined ss).head?, c = 47 := by
  intro c hc
  cases ss with
  | nil => cases hc
  | cons s ss =>
    cases hc
    rfl

/-- no text of two slashes comes first -/
theorem written_none (ss : List Text) (hss : ∀ s ∈ ss, ∀ c ∈ s, c ≠ 47) {r : Text} (hr : Tail r) :
    ∀ t, joined (written none ss) ++ r ≠ 47 :: 47 :: t := by
  have htail : ∀ t, r ≠ 47 :: t := by
    rintro t rfl
    cases hr 47 rfl
  intro t ht
  cases ss with
  | nil => exact htail _ ht
  | cons s ss =>
    cases s with
    | cons c s =>
      have hc : c = 47 := (List.cons.inj (List.cons.inj ht).2).1
      exact hss _ List.mem_cons_self c List.mem_cons_self hc
    | nil =>
      cases ss with
      | nil => exact htail _ (List.cons.inj ht).2
      | cons s ss => cases (List.cons.inj (List.cons.inj ht).2).1

theorem mem_written {authority : Option Text} {ss : List Text} {s : Text}
    (h : s ∈ written authority ss) : s = [46] ∨ s ∈ ss := by
  unfold written at h
  split at h
  · split at h
    · exact List.mem_cons.mp h
    · exact .inr h
  · exact .inr h

theorem written_plain {authority : Option Text} {ss : List Text}
    (h : ∀ s ∈ ss, ∀ c ∈ s, endsAuthority c = false) :
    ∀ s ∈ written authority ss, ∀ c ∈ s, endsAuthority c = false := by
  intro s hs
  rcases mem_written hs with rfl | hs
  · simp [endsAuthority]
  · exact h s hs

/-- The path of a record's text is the path it was written from. -/
theorem pathOf_href {u : Parts} (hu : u.Valid) : pathOf u.href = pathText u.authority u.path := by
  obtain ⟨scheme, authority, path, query, fragment⟩ := u
  obtain ⟨hscheme, hauthority, hpath⟩ := hu
  have htail := tail_marked query fragment
  rw [pathOf, Parts.href, afterScheme_href hscheme]
  cases path with
  | opaquePath t =>
    obtain ⟨rfl, hhead, ht⟩ := hpath
    have hnone : ∀ r, t ++ (marked 63 query ++ marked 35 fragment) ≠ 47 :: 47 :: r := by
      intro r hr
      cases t with
      | nil =>
        rw [List.nil_append] at hr
        rw [hr] at htail
        cases htail 47 rfl
      | cons c t => exact hhead (congrArg some (List.cons.inj hr).1)
    exact (congrArg _ (afterAuthority_none hnone)).trans (takeWhile_path ht htail)
  | segments ss =>
    have hss : ∀ s ∈ ss, ∀ c ∈ s, endsAuthority c = false := fun s hs => (hpath s hs).2
    have hplain : ∀ s ∈ written authority ss, ∀ c ∈ s, endsAuthority c = false := written_plain hss
    have hwritten := joined_path hplain
    have hafter : afterAuthority (authorityText authority ++
        (joined (written authority ss) ++ (marked 63 query ++ marked 35 fragment))) =
          joined (written authority ss) ++ (marked 63 query ++ marked 35 fragment) := by
      cases authority with
      | none =>
        have hslash : ∀ s ∈ ss, ∀ c ∈ s, c ≠ 47 :=
          fun s hs c hc => ne_slash_of_authority (hss s hs c hc)
        exact afterAuthority_none (written_none ss hslash htail)
      | some a =>
        refine afterAuthority_some (hauthority a rfl) ?_
        intro c hc
        cases hj : joined (written (some a) ss) with
        | nil =>
          rw [hj, List.nil_append] at hc
          have hends := htail c hc
          simp only [endsPath, endsAuthority, Bool.or_eq_true, decide_eq_true_eq] at hends ⊢
          omega
        | cons d p =>
          have hd := joined_head (written (some a) ss) d (by rw [hj]; rfl)
          rw [hj, List.cons_append] at hc
          cases hc
          rw [hd]
          rfl
    exact (congrArg _ hafter).trans (takeWhile_path hwritten htail)

/-- The texts that have a dot segment all the same are those of a path kept as it was written, and
of a path that is guarded by one. -/
theorem dotted_href_iff {u : Parts} (hu : u.Valid) : Dotted u.href ↔
    (∃ t, u.path = .opaquePath t ∧ ∃ segment ∈ segmentsOf t, isDot segment = true) ∨
      u.authority = none ∧ ∃ s ss, u.path = .segments ([] :: s :: ss) := by
  rw [Dotted, pathOf_href hu]
  have hpath := hu.path
  cases hp : u.path with
  | opaquePath t => simp [pathText]
  | segments ss =>
    rw [hp] at hpath
    have hplain : ∀ s ∈ [] :: written u.authority ss, ∀ c ∈ s, c ≠ 47 := by
      refine List.forall_mem_cons.mpr ⟨by simp, fun s hs c hc => ?_⟩
      exact ne_slash_of_authority (written_plain (fun s hs => (hpath s hs).2) s hs c hc)
    rw [pathText, ← List.nil_append (joined _), segmentsOf_joined hplain]
    constructor
    · rintro ⟨segment, hmem, hdot⟩
      rcases List.mem_cons.mp hmem with rfl | hmem
      · cases hdot
      · unfold written at hmem
        split at hmem
        · split at hmem
          · next hnone => exact .inr ⟨hnone, _, _, rfl⟩
          · rw [(hpath segment hmem).1] at hdot
            cases hdot
        · rw [(hpath segment hmem).1] at hdot
          cases hdot
    · rintro (⟨t, ht, -⟩ | ⟨hnone, s, ss', hss⟩)
      · cases ht
      · cases hss
        refine ⟨[46], ?_, rfl⟩
        rw [hnone]
        simp [written]

end Url
end Lib
