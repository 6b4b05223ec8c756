import NovaRuntime.Crypto.HexText
import NovaRuntime.Lib.Draws

/-!
# Random values

What the guest makes of the bytes that the system draws.

* `CryptoJs.randomUUID`, `CryptoJs.getRandomValues`   the guest's two functions;
* `UuidV4`                 a random UUID, by the places of its characters;
* `randomUUID_spreads`     each of them is made of 64 draws, and nothing else of any;
* `getRandomValues_spreads`   each content of a view is made of one draw, and nothing else changes.
-/

namespace NovaRuntime
open Lib

/-! ## the code -/

def toInt32 (n : Int) : Int := Int.bmod n (2 ^ 32)

/-- `native_random`, with the system's bytes -/
def nativeRandom (entropy : Nat → UInt8) (count : Int) : List UInt8 :=
  (List.range (max 0 (min (toInt32 count) 65536)).toNat).map entropy

/-- the views of a buffer -/
inductive ViewKind where
  | int8Array | uint8Array | uint8ClampedArray | int16Array | uint16Array | int32Array | uint32Array
  | bigInt64Array | bigUint64Array | float32Array | float64Array | dataView
  deriving DecidableEq, Repr

/-- a view of the buffer, which lies inside of it -/
structure BufferView (buffer : List UInt8) where
  kind : ViewKind
  byteOffset : Nat
  byteLength : Nat
  fits : byteOffset + byteLength ≤ buffer.length

namespace CryptoJs

def INTEGER_VIEWS : List ViewKind :=
  [.int8Array, .uint8Array, .uint8ClampedArray, .int16Array, .uint16Array, .int32Array, .uint32Array,
    .bigInt64Array, .bigUint64Array]

def randomBytes (entropy : Nat → UInt8) (count : Nat) : List UInt8 := nativeRandom entropy count

/-- `target.set(bytes)`, in the buffer -/
def setBytes (buffer bytes : List UInt8) (byteOffset : Nat) : List UInt8 :=
  buffer.take byteOffset ++ bytes ++ buffer.drop (byteOffset + bytes.length)

/-- `crypto.getRandomValues`, of a view of a buffer or of something else -/
def getRandomValues (entropy : Nat → UInt8) {buffer : List UInt8} (view : Option (BufferView buffer)) :
    Except Fault (List UInt8) :=
  match view.filter fun view => INTEGER_VIEWS.contains view.kind with
  | none => throw (.exception (txt "TypeMismatchError")
      (.lit "getRandomValues expects an integer typed array"))
  | some view =>
    if view.byteLength > 65536 then
      throw (.exception (txt "QuotaExceededError")
        (.lit "getRandomValues accepts at most 65536 bytes"))
    else
      return setBytes buffer (randomBytes entropy view.byteLength) view.byteOffset

def slice (hex : Text) (start stop : Nat) : Text := (hex.take stop).drop start

def randomUUID (entropy : Nat → UInt8) : Text :=
  let bytes := randomBytes entropy 16
  let bytes := bytes.modify 6 fun byte => (byte &&& 0x0f) ||| 0x40
  let bytes := bytes.modify 8 fun byte => (byte &&& 0x3f) ||| 0x80
  let hex := (bytes.map byteText).flatten
  List.intercalate [45]
    [slice hex 0 8, slice hex 8 12, slice hex 12 16, slice hex 16 20, hex.drop 20]

end CryptoJs

def drawn {n : Nat} (draw : Fin n → UInt8) (i : Nat) : UInt8 := if h : i < n then draw ⟨i, h⟩ else 0

theorem randomBytes_drawn {n : Nat} (hn : n ≤ 65536) (draw : Fin n → UInt8) :
    CryptoJs.randomBytes (drawn draw) n = List.ofFn draw := by
  have hcount : (max 0 (min (toInt32 n) 65536)).toNat = n := by
    unfold toInt32
    rw [Int.bmod_eq_of_le (by omega) (by omega)]
    omega
  rw [CryptoJs.randomBytes, nativeRandom, hcount]
  refine List.ext_getElem (by simp) fun i h h' => ?_
  have hi : i < n := by simpa using h'
  rw [List.getElem_map, List.getElem_range, List.getElem_ofFn, drawn, dif_pos hi]

/-! ## a UUID -/

namespace Uuid

/-- the characters that stand in a place -/
def allowed (place : Nat) : Text :=
  if place = 120 then txt "0123456789abcdef" else if place = 121 then txt "89ab" else [place]

/-- the bytes of a UUID: the version and the variant have their bits in two of them -/
inductive Kind where
  | plain | version | variant

namespace Kind

def places : Kind → Text
  | plain => [120, 120]
  | version => [52, 120]
  | variant => [121, 120]

/-- the values that such a byte has -/
def Holds : Kind → UInt8 → Prop
  | plain, _ => True
  | version, byte => byte.toNat / 16 = 4
  | variant, byte => byte.toNat / 64 = 2

/-- how it is made of a byte that was drawn -/
def stamp : Kind → UInt8 → UInt8
  | plain, byte => byte
  | version, byte => (byte &&& 0x0f) ||| 0x40
  | variant, byte => (byte &&& 0x3f) ||| 0x80

/-- of how many bytes it is made -/
def draws : Kind → Nat
  | plain => 1
  | version => 16
  | variant => 4

end Kind

/-- the bytes of a UUID and its dashes -/
abbrev Layout := List (Option Kind)

def Layout.places (layout : Layout) : Text :=
  layout.flatMap fun
    | none => [45]
    | some kind => kind.places

/-- bytes in a layout -/
def render : Layout → List UInt8 → Text
  | none :: layout, bytes => 45 :: render layout bytes
  | some _ :: layout, byte :: bytes => Hex.ofByte byte ++ render layout bytes
  | _, _ => []

end Uuid

/-- a text that is a random UUID: `y` is one of four digits, and `x` is any -/
def UuidV4 (text : Text) : Prop :=
  List.Forall₂ (fun place c => c ∈ Uuid.allowed place) (txt "xxxxxxxx-xxxx-4xxx-yxxx-xxxxxxxxxxxx") text

namespace Uuid

theorem mem_allowed_digit {d : Nat} (h : d < 16) :
    Json.hexChar d ∈ allowed 120 ∧ (Json.hexChar d ∈ allowed 52 ↔ d = 4) ∧
      (Json.hexChar d ∈ allowed 121 ↔ d / 4 = 2) := by
  revert d
  decide

theorem digit_of_allowed : ∀ place ∈ [120, 52, 121], ∀ c ∈ allowed place,
    ∃ d < 16, c = Json.hexChar d := by
  decide

theorem ofByte_digits {d e : Nat} (hd : d < 16) (he : e < 16) :
    Hex.ofByte (UInt8.ofNat (16 * d + e)) = [Json.hexChar d, Json.hexChar e] := by
  have htoNat : (UInt8.ofNat (16 * d + e)).toNat = 16 * d + e := by
    rw [UInt8.toNat_ofNat']
    omega
  have hdiv : (16 * d + e) / 16 = d := by omega
  have hmod : (16 * d + e) % 16 = e := by omega
  rw [Hex.ofByte, htoNat, hdiv, hmod]

theorem ofByte_injective : Function.Injective Hex.ofByte := by
  intro byte byte' h
  obtain ⟨hhigh, hrest⟩ := List.cons.inj h
  have hread := Hex.pair_ofByte byte
  rw [hhigh, (List.cons.inj hrest).1, Hex.pair_ofByte] at hread
  exact (Option.some.inj hread).symm

/-- The digits of a byte fit in its places just if it has one of its values. -/
theorem Kind.holds_iff (kind : Kind) (byte : UInt8) :
    kind.Holds byte ↔ List.Forall₂ (fun place c => c ∈ allowed place) kind.places (Hex.ofByte byte) := by
  have hlt := byte.toNat_lt
  obtain ⟨hplain, hversion, hvariant⟩ := mem_allowed_digit (d := byte.toNat / 16) (by omega)
  obtain ⟨hlow, -, -⟩ := mem_allowed_digit (d := byte.toNat % 16) (by omega)
  have hpair {place : Nat} : List.Forall₂ (fun place c => c ∈ allowed place) [place, 120] (Hex.ofByte byte) ↔
      Json.hexChar (byte.toNat / 16) ∈ allowed place := by
    rw [Hex.ofByte, List.forall₂_cons, List.forall₂_cons]
    exact ⟨And.left, fun h => ⟨h, hlow, .nil⟩⟩
  cases kind with
  | plain => exact iff_of_true trivial (hpair.mpr hplain)
  | version => exact hversion.symm.trans hpair.symm
  | variant =>
    refine Iff.trans ?_ (hvariant.symm.trans hpair.symm)
    show byte.toNat / 64 = 2 ↔ _
    omega

theorem Kind.digits {kind : Kind} {text : Text}
    (h : List.Forall₂ (fun place c => c ∈ allowed place) kind.places text) :
    ∃ byte, kind.Holds byte ∧ Hex.ofByte byte = text := by
  have hplaces : ∃ place ∈ [120, 52, 121], kind.places = [place, 120] := by
    cases kind with
    | plain => exact ⟨120, by decide, rfl⟩
    | version => exact ⟨52, by decide, rfl⟩
    | variant => exact ⟨121, by decide, rfl⟩
  obtain ⟨place, hplace, hkind⟩ := hplaces
  have hfits := h
  rw [hkind] at hfits
  cases hfits with
  | cons hhigh hrest =>
    cases hrest with
    | cons hlow hnil =>
      cases hnil
      obtain ⟨d, hd, rfl⟩ := digit_of_allowed place hplace _ hhigh
      obtain ⟨e, he, rfl⟩ := digit_of_allowed 120 (by decide) _ hlow
      rw [← ofByte_digits hd he] at h
      exact ⟨_, (kind.holds_iff _).mpr h, ofByte_digits hd he⟩

theorem render_some (kind : Kind) (layout : Layout) (byte : UInt8) (bytes : List UInt8) :
    render (some kind :: layout) (byte :: bytes) = Hex.ofByte byte ++ render layout bytes := rfl

theorem render_none (layout : Layout) (bytes : List UInt8) :
    render (none :: layout) bytes = 45 :: render layout bytes := by
  cases bytes <;> rfl

/-- The texts in the places of a layout are the bytes in it. -/
theorem render_iff (layout : Layout) (text : Text) :
    List.Forall₂ (fun place c => c ∈ allowed place) layout.places text ↔
      ∃ bytes, List.Forall₂ Kind.Holds layout.reduceOption bytes ∧ render layout bytes = text := by
  induction layout generalizing text with
  | nil =>
    constructor
    · rintro ⟨⟩
      exact ⟨[], .nil, rfl⟩
    · rintro ⟨bytes, -, rfl⟩
      exact .nil
  | cons place layout ih =>
    cases place with
    | none =>
      show List.Forall₂ _ (45 :: Layout.places layout) text ↔ _
      rw [List.forall₂_cons_left_iff]
      constructor
      · rintro ⟨c, rest, hc, hrest, rfl⟩
        obtain rfl : c = 45 := List.mem_singleton.mp hc
        obtain ⟨bytes, hbytes, rfl⟩ := (ih rest).mp hrest
        exact ⟨bytes, hbytes, render_none layout bytes⟩
      · rintro ⟨bytes, hbytes, rfl⟩
        rw [render_none]
        exact ⟨45, _, List.mem_singleton_self _, (ih _).mpr ⟨bytes, hbytes, rfl⟩, rfl⟩
    | some kind =>
      show List.Forall₂ _ (kind.places ++ Layout.places layout) text ↔ _
      constructor
      · intro h
        have hplaces : kind.places.length = 2 := by cases kind <;> rfl
        have hdigits := List.forall₂_take 2 h
        have hrest := List.forall₂_drop 2 h
        rw [List.take_left' hplaces] at hdigits
        rw [List.drop_left' hplaces] at hrest
        obtain ⟨byte, hbyte, hread⟩ := Kind.digits hdigits
        obtain ⟨bytes, hbytes, hwritten⟩ := (ih _).mp hrest
        refine ⟨byte :: bytes, .cons hbyte hbytes, ?_⟩
        rw [render_some, hread, hwritten, List.take_append_drop]
      · rintro ⟨bytes, hbytes, rfl⟩
        cases hbytes with
        | cons hbyte hrest =>
          rw [render_some]
          exact List.rel_append ((kind.holds_iff _).mp hbyte) ((ih _).mpr ⟨_, hrest, rfl⟩)

theorem render_injective {layout : Layout} {bytes bytes' : List UInt8}
    (h : bytes.length = layout.reduceOption.length) (h' : bytes'.length = layout.reduceOption.length)
    (heq : render layout bytes = render layout bytes') : bytes = bytes' := by
  induction layout generalizing bytes bytes' with
  | nil =>
    rw [List.length_eq_zero_iff.mp h, List.length_eq_zero_iff.mp h']
  | cons place layout ih =>
    cases place with
    | none =>
      rw [render_none, render_none] at heq
      exact ih h h' (List.cons.inj heq).2
    | some kind =>
      cases bytes with
      | nil => cases h
      | cons byte bytes =>
        cases bytes' with
        | nil => cases h'
        | cons byte' bytes' =>
          obtain ⟨hbyte, hrest⟩ := List.append_inj heq rfl
          rw [ofByte_injective hbyte, ih (Nat.succ.inj h) (Nat.succ.inj h') hrest]

/-! ## how many draws -/

/-- A byte is stamped alike for all values of the bits that the stamp sets. -/
theorem spreads_mod {stamp : UInt8 → UInt8} {m k base : ℕ} (hm : m * k = 256)
    (hstamp : ∀ byte, (stamp byte).toNat = m * base + byte.toNat % m) :
    Spreads stamp k fun byte => byte.toNat / m = base where
  within byte := by
    have hpos : 0 < m := Nat.pos_of_mul_pos_right (by omega : 0 < m * k)
    rw [hstamp, Nat.mul_add_div hpos, Nat.div_eq_of_lt (Nat.mod_lt _ hpos), Nat.add_zero]
  card {byte} hbyte := by
    have hpos : 0 < m := Nat.pos_of_mul_pos_right (by omega : 0 < m * k)
    have hmod : byte.toNat % m < m := Nat.mod_lt _ hpos
    have hsplit : byte.toNat = m * base + byte.toNat % m := by
      rw [← hbyte, Nat.div_add_mod]
    have hfiber (a : UInt8) : stamp a = byte ↔ a.toNat % m = byte.toNat % m := by
      rw [← UInt8.toNat_inj, hstamp]
      omega
    have hread (i : Fin k) : (UInt8.ofNat (m * i + byte.toNat % m)).toNat = m * i + byte.toNat % m := by
      have hlt : m * i + byte.toNat % m < m * k := by
        calc m * i + byte.toNat % m < m * (i + 1) := by rw [Nat.mul_succ]; omega
          _ ≤ m * k := Nat.mul_le_mul_left m i.2
      rw [UInt8.toNat_ofNat']
      omega
    refine Nat.card_eq_of_equiv_fin ?_
    exact
      { toFun := fun a => ⟨a.1.toNat / m, by
          have hlt := a.1.toNat_lt
          exact Nat.div_lt_of_lt_mul (by omega)⟩
        invFun := fun i => ⟨UInt8.ofNat (m * i + byte.toNat % m), by
          rw [hfiber, hread, Nat.mul_add_mod, Nat.mod_mod]⟩
        left_inv := fun a => Subtype.ext <| UInt8.toNat_inj.mp <| by
          rw [hread, ← (hfiber a.1).mp a.2, Nat.div_add_mod]
        right_inv := fun i => Fin.ext <| by
          show (UInt8.ofNat _).toNat / m = i
          rw [hread, Nat.mul_add_div hpos, Nat.div_eq_of_lt hmod, Nat.add_zero] }

theorem stamp_bits : ∀ n < 256,
    n &&& 0x0f ||| 0x40 = 16 * 4 + n % 16 ∧ n &&& 0x3f ||| 0x80 = 64 * 2 + n % 64 := by
  decide +kernel

theorem Kind.spreads (kind : Kind) : Spreads kind.stamp kind.draws kind.Holds := by
  cases kind with
  | plain =>
    refine (Spreads.of_injective (f := id) Function.injective_id).iff fun byte => ?_
    exact iff_of_true ⟨byte, rfl⟩ trivial
  | version =>
    refine spreads_mod (m := 16) rfl fun byte => ?_
    exact (UInt8.toNat_or _ _).trans (stamp_bits _ byte.toNat_lt).1
  | variant =>
    refine spreads_mod (m := 64) rfl fun byte => ?_
    exact (UInt8.toNat_or _ _).trans (stamp_bits _ byte.toNat_lt).2

/-- the layout of a UUID -/
def kindAt (i : Fin 16) : Kind := if i = 6 then .version else if i = 8 then .variant else .plain

def layout : Layout :=
  let at_ (i : Fin 16) := some (kindAt i)
  [at_ 0, at_ 1, at_ 2, at_ 3, none, at_ 4, at_ 5, none, at_ 6, at_ 7, none, at_ 8, at_ 9, none,
    at_ 10, at_ 11, at_ 12, at_ 13, at_ 14, at_ 15]

theorem layout_places : layout.places = txt "xxxxxxxx-xxxx-4xxx-yxxx-xxxxxxxxxxxx" := by decide

theorem layout_kinds : layout.reduceOption = List.ofFn kindAt := rfl

theorem forall₂_ofFn {α β : Type} {R : α → β → Prop} {n : ℕ} (f : Fin n → α) (l : List β) :
    List.Forall₂ R (List.ofFn f) l ↔ ∃ g : Fin n → β, (∀ i, R (f i) (g i)) ∧ List.ofFn g = l := by
  rw [List.forall₂_iff_get]
  constructor
  · rintro ⟨hlength, heach⟩
    obtain rfl : n = l.length := (List.length_ofFn).symm.trans hlength
    refine ⟨l.get, fun i => ?_, List.ofFn_get l⟩
    have hi := heach i (by rw [List.length_ofFn]; exact i.2) i.2
    rwa [List.get_ofFn] at hi
  · rintro ⟨g, heach, rfl⟩
    refine ⟨by rw [List.length_ofFn, List.length_ofFn], fun i h h' => ?_⟩
    rw [List.get_ofFn, List.get_ofFn]
    exact heach _

theorem randomUUID_eq (draw : Fin 16 → UInt8) : CryptoJs.randomUUID (drawn draw) =
    render layout (List.ofFn fun i => (kindAt i).stamp (draw i)) := by
  unfold CryptoJs.randomUUID
  rw [randomBytes_drawn (by decide), funext byteText_eq]
  rfl

end Uuid

/-- A random UUID is any of those of its kind, and each of them is made of as many draws. -/
theorem randomUUID_spreads :
    Spreads (fun draw : Fin 16 → UInt8 => CryptoJs.randomUUID (drawn draw)) 64 UuidV4 := by
  rw [funext Uuid.randomUUID_eq]
  have hbytes := Spreads.pi fun i => (Uuid.kindAt i).spreads
  have hcount : ∏ i, (Uuid.kindAt i).draws = 64 := by decide
  rw [hcount] at hbytes
  have hlength (bytes : Fin 16 → UInt8) :
      (List.ofFn bytes).length = Uuid.layout.reduceOption.length := by
    rw [List.length_ofFn]
    rfl
  have hread (bytes bytes' : Fin 16 → UInt8) (h : Uuid.render Uuid.layout (List.ofFn bytes) =
      Uuid.render Uuid.layout (List.ofFn bytes')) : bytes = bytes' :=
    List.ofFn_injective (Uuid.render_injective (hlength bytes) (hlength bytes') h)
  refine (hbytes.map fun bytes bytes' _ _ => hread bytes bytes').iff fun text => ?_
  rw [UuidV4, ← Uuid.layout_places, Uuid.render_iff, Uuid.layout_kinds]
  constructor
  · rintro ⟨bytes, hholds, htext⟩
    exact ⟨List.ofFn bytes, (Uuid.forall₂_ofFn _ _).mpr ⟨bytes, hholds, rfl⟩, htext⟩
  · rintro ⟨_, hholds, htext⟩
    obtain ⟨bytes, heach, rfl⟩ := (Uuid.forall₂_ofFn _ _).mp hholds
    exact ⟨bytes, heach, htext⟩

/-! ## random values in a view -/

/-- the buffer after a write to the view: nothing else has changed -/
structure SameOutside {buffer : List UInt8} (view : BufferView buffer) (after : List UInt8) : Prop where
  length : after.length = buffer.length
  same {i : Nat} : i < view.byteOffset ∨ view.byteOffset + view.byteLength ≤ i → after[i]? = buffer[i]?

/-- What is written to a view is written there and nowhere else. -/
theorem sameOutside_iff {buffer : List UInt8} (view : BufferView buffer) (after : List UInt8) :
    SameOutside view after ↔ ∃ draw : Fin view.byteLength → UInt8,
      CryptoJs.setBytes buffer (List.ofFn draw) view.byteOffset = after := by
  have hfits := view.fits
  have hbefore : (buffer.take view.byteOffset).length = view.byteOffset := by
    rw [List.length_take]
    omega
  constructor
  · rintro ⟨hlength, hsame⟩
    have hsize : ((after.drop view.byteOffset).take view.byteLength).length = view.byteLength := by
      rw [List.length_take, List.length_drop]
      omega
    refine ⟨fun i => ((after.drop view.byteOffset).take view.byteLength).get (i.cast hsize.symm), ?_⟩
    have hdraw : List.ofFn (fun i : Fin view.byteLength =>
        ((after.drop view.byteOffset).take view.byteLength).get (i.cast hsize.symm)) =
          (after.drop view.byteOffset).take view.byteLength := by
      refine (List.ofFn_congr hsize.symm _).trans ?_
      exact List.ofFn_get _
    have htake : buffer.take view.byteOffset = after.take view.byteOffset := by
      refine List.ext_getElem? fun i => ?_
      rw [List.getElem?_take, List.getElem?_take]
      split
      · next hi => exact (hsame (.inl hi)).symm
      · rfl
    have hdrop : buffer.drop (view.byteOffset + view.byteLength) =
        after.drop (view.byteOffset + view.byteLength) := by
      refine List.ext_getElem? fun i => ?_
      rw [List.getElem?_drop, List.getElem?_drop]
      exact (hsame (.inr (Nat.le_add_right _ _))).symm
    rw [hdraw, CryptoJs.setBytes, hsize, htake, hdrop, List.append_assoc, ← List.drop_drop,
      List.take_append_drop, List.take_append_drop]
  · rintro ⟨draw, rfl⟩
    unfold CryptoJs.setBytes
    rw [List.length_ofFn]
    refine ⟨?_, fun hi => ?_⟩
    · rw [List.length_append, List.length_append, hbefore, List.length_ofFn, List.length_drop]
      omega
    · rcases hi with hi | hi
      · rw [List.append_assoc, List.getElem?_append_left (by omega), List.getElem?_take_of_lt hi]
      · have hmiddle : (buffer.take view.byteOffset ++ List.ofFn draw).length =
            view.byteOffset + view.byteLength := by
          rw [List.length_append, hbefore, List.length_ofFn]
        rw [List.getElem?_append_right (by omega), hmiddle, List.getElem?_drop]
        congr 1
        omega

theorem setBytes_injective {buffer : List UInt8} (view : BufferView buffer) :
    Function.Injective fun draw : Fin view.byteLength → UInt8 =>
      CryptoJs.setBytes buffer (List.ofFn draw) view.byteOffset := by
  intro draw draw' h
  dsimp only [CryptoJs.setBytes] at h
  rw [List.length_ofFn, List.length_ofFn] at h
  have hbytes := List.append_inj' h rfl
  exact List.ofFn_injective (List.append_inj hbytes.1 rfl).2

/-- An integer view of a size that is accepted is filled with what was drawn, each content by one draw,
and nothing around it changes; any other view is refused. -/
theorem getRandomValues_spreads {buffer : List UInt8} (view : BufferView buffer) :
    if view.kind ∈ CryptoJs.INTEGER_VIEWS ∧ view.byteLength ≤ 65536 then
      Spreads (fun draw : Fin view.byteLength → UInt8 =>
        CryptoJs.getRandomValues (drawn draw) (some view)) 1 fun result =>
          ∃ after, SameOutside view after ∧ .ok after = result
    else ∀ entropy, ∃ e, CryptoJs.getRandomValues entropy (some view) = .error e := by
  unfold CryptoJs.getRandomValues
  rw [Option.filter_some]
  split
  · next h =>
    obtain ⟨hkind, hsize⟩ := h
    rw [if_pos (List.contains_iff_mem.mpr hkind)]
    dsimp only
    simp only [if_neg (Nat.not_lt.mpr hsize), randomBytes_drawn hsize]
    have hwrites := (Spreads.of_injective (setBytes_injective view)).iff
      fun after => (sameOutside_iff view after).symm
    exact hwrites.map fun after after' _ _ h => Except.ok.inj h
  · next h =>
    intro entropy
    by_cases hkind : view.kind ∈ CryptoJs.INTEGER_VIEWS
    · have hsize : ¬view.byteLength ≤ 65536 := fun hsize => h ⟨hkind, hsize⟩
      rw [if_pos (List.contains_iff_mem.mpr hkind)]
      dsimp only
      rw [if_pos (Nat.not_le.mp hsize)]
      exact ⟨_, rfl⟩
    · rw [if_neg fun hcontains => hkind (List.contains_iff_mem.mp hcontains)]
      exact ⟨_, rfl⟩

end NovaRuntime
