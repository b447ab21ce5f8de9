import Gortex.Lib.Fueled
import Gortex.Lib.Wire
import Mathlib.Algebra.Order.Ring.Int

/-!
# The reader of protobuf messages

A SCIP index comes as protobuf, and is read by a reader of its own: a slice of bytes and a
position, an `int`, that moves on as numbers and contents are read. Lengths in the bytes are
numbers of 64 bits; they become `int`s, and are added to the position, before they are compared
with the length of the slice.

What a method does is what the exact reading of the wire format says (`Gortex.Semantic.Refines`):
it returns what has been read, with the position where what is left begins, or an error, and
every move stays within the slice; but where the exact reading comes to a content that would end
at `2 ^ 63` or after it, the sum is negative or goes back, and the method panics or makes a bad
move.
-/

namespace Gortex.Semantic

open Fueled

/-- The limit of an `int`. -/
abbrev intLimit : ℕ := 2 ^ 63

/-- A `[]byte`; its length is an `int`. -/
structure Slice where
  bytes : List UInt8
  length_lt : bytes.length < intLimit

namespace Slice

/-- `len(s)`. -/
def len (s : Slice) : ℕ := s.bytes.length

/-- `s[lo:hi]`, within the slice. -/
def sub (s : Slice) (lo hi : ℕ) : Slice where
  bytes := (s.bytes.drop lo).take (hi - lo)
  length_lt := (List.length_take_le' _ _).trans_lt
    ((List.drop_sublist _ _).length_le.trans_lt s.length_lt)

end Slice

/-- The `int` that a number becomes. -/
def int (n : ℤ) : ℤ := (n + 2 ^ 63) % 2 ^ 64 - 2 ^ 63

theorem int_of_lt {n : ℤ} (h0 : 0 ≤ n) (hlt : n < 2 ^ 63) : int n = n := by
  rw [int]
  omega

@[simp] theorem int_int (n : ℤ) : int (int n) = int n := by
  simp only [int]
  omega

/-- Only the `int` that is added counts. -/
theorem int_add {m n : ℤ} (h : int m = int n) (p : ℤ) : int (p + m) = int (p + n) := by
  simp only [int] at h ⊢
  omega

/-- **A sum that is too large goes back**, and may be negative. -/
theorem int_add_lt {p n : ℤ} (hp : p < 2 ^ 63) (hn : n < 2 ^ 64) (hsum : 2 ^ 63 ≤ p + n) :
    int (p + n) < p := by
  rw [int]
  omega

/-- An error of the decoder. -/
inductive DecodeError
  | unexpectedEOF
  | varintTooLong
  | expectedLengthDelimited (wireType : ℕ)
  | unknownWireType (wireType : ℕ)

/-- The text of an error. -/
def DecodeError.text : DecodeError → String
  | unexpectedEOF => "unexpected EOF"
  | varintTooLong => "varint too long"
  | expectedLengthDelimited wireType =>
    "expected wire type 2 (length-delimited), got " ++ toString wireType
  | unknownWireType wireType => "unknown wire type " ++ toString wireType

/-! ### The reader -/

/-- The reader. -/
structure ProtoReader where
  data : Slice
  pos : ℤ

/-- What happens to the position of a reader: it is set, or a turn of a loop ends. -/
inductive Event
  | moved (before after : ℤ) (len : ℕ)
  | turn (before after : ℤ) (len : ℕ)

/-- **The position stays within the slice**: it never goes back, and goes on in every turn. -/
def Event.Good : Event → Prop
  | moved before after len => 0 ≤ before ∧ before ≤ after ∧ after ≤ len
  | turn before after len => 0 ≤ before ∧ before < after ∧ after ≤ len

theorem good_moved {p q len : ℕ} (hpq : p ≤ q) (hq : q ≤ len) : (Event.moved p q len).Good :=
  ⟨Int.natCast_nonneg p, Int.ofNat_le.mpr hpq, Int.ofNat_le.mpr hq⟩

theorem good_turn {p q len : ℕ} (hpq : p < q) (hq : q ≤ len) : (Event.turn p q len).Good :=
  ⟨Int.natCast_nonneg p, Int.ofNat_lt.mpr hpq, Int.ofNat_le.mpr hq⟩

/-- A run of the decoder. -/
abbrev Decoding (α : Type) := Run Event DecodeError α

/-- What is done with a reader. -/
def Reading (α : Type) := ProtoReader → Decoding (α × ProtoReader)

instance : Monad Reading where
  pure a := fun r => ⟨.ok (a, r), []⟩
  bind x f := fun r => (x r).andThen fun p => f p.1 p.2

namespace Reading

variable {α : Type}

/-- The reader as it is. -/
def reader : Reading ProtoReader := fun r => ⟨.ok (r, r), []⟩

/-- An error is returned. -/
def fail (e : DecodeError) : Reading α := fun _ => ⟨.error e, []⟩

/-- The fuel is used up. -/
def outOfFuel : Reading α := fun _ => ⟨.outOfFuel, []⟩

/-- `r.pos = pos`. -/
def moveTo (pos : ℤ) : Reading Unit :=
  fun r => ⟨.ok ((), { r with pos := pos }), [.moved r.pos pos r.data.len]⟩

/-- `r.data[pos]`. -/
def byteAt (pos : ℤ) : Reading UInt8 := fun r =>
  match r.data.bytes[pos.toNat]? with
  | some b => if 0 ≤ pos then ⟨.ok (b, r), []⟩ else ⟨.panicked, []⟩
  | none => ⟨.panicked, []⟩

/-- `r.data[lo:hi]`. -/
def slice (lo hi : ℤ) : Reading Slice := fun r =>
  if 0 ≤ lo ∧ lo ≤ hi ∧ hi ≤ r.data.len then ⟨.ok (r.data.sub lo.toNat hi.toNat, r), []⟩
  else ⟨.panicked, []⟩

/-- The end of a turn that began at this position. -/
def turnFrom (before : ℤ) : Reading Unit :=
  fun r => ⟨.ok ((), r), [.turn before r.pos r.data.len]⟩

/-- What another function does. It has a reader of its own. -/
def call (run : Decoding α) : Reading α := fun r => run.andThen fun a => ⟨.ok (a, r), []⟩

/-- What is done with a new reader. -/
def start (x : Reading α) (data : Slice) : Decoding α :=
  (x ⟨data, 0⟩).andThen fun p => ⟨.ok p.1, []⟩

theorem bind_apply {β : Type} (x : Reading α) (f : α → Reading β) (r : ProtoReader) :
    (x >>= f) r = (x r).andThen fun p => f p.1 p.2 := rfl

theorem reader_bind (f : ProtoReader → Reading α) (r : ProtoReader) :
    (reader >>= f) r = f r r := rfl

/-- Nothing has happened where the byte is read. -/
theorem byteAt_bind {f : UInt8 → Reading α} {r : ProtoReader} {pos : ℕ} {b : UInt8}
    (h : r.data.bytes[pos]? = some b) : (byteAt pos >>= f) r = f b r := by
  have hbyte : byteAt pos r = ⟨.ok (b, r), []⟩ := by
    rw [byteAt, Int.toNat_natCast, h]
    exact if_pos (Int.natCast_nonneg pos)
  rw [bind_apply, hbyte]
  rfl

end Reading

open Reading

/-- `hasMore`. -/
def ProtoReader.hasMore (r : ProtoReader) : Prop := r.pos < r.data.len

instance (r : ProtoReader) : Decidable r.hasMore := inferInstanceAs (Decidable (r.pos < r.data.len))

/-- The loop of `readVarint`. The shift is below 64 in every turn. -/
def readVarintFrom : ℕ → UInt64 → UInt64 → Reading UInt64
  | 0, _, _ => outOfFuel
  | fuel + 1, val, shift => do
    let r ← reader
    if r.pos ≥ r.data.len then fail .unexpectedEOF
    else
      let b ← byteAt r.pos
      moveTo (int (r.pos + 1))
      let val := val ||| ((b &&& 0x7F).toUInt64 <<< shift)
      if b < 0x80 then pure val
      else if shift + 7 ≥ 64 then fail .varintTooLong
      else readVarintFrom fuel val (shift + 7)

/-- `readVarint`. -/
def readVarint (fuel : ℕ) : Reading UInt64 := do
  let r ← reader
  if r.pos ≥ r.data.len then fail .unexpectedEOF else readVarintFrom fuel 0 0

/-- `readTag`: the number of a field, and a wire type. Both are small. -/
def readTag (fuel : ℕ) : Reading (ℕ × ℕ) := do
  let v ← readVarint fuel
  pure ((v >>> 3).toNat, (v &&& 7).toNat)

/-- How `readBytes` takes so many bytes. -/
def takeBytes (n : ℤ) : Reading Slice := do
  let r ← reader
  if int (r.pos + n) > r.data.len then fail .unexpectedEOF
  else
    let data ← slice r.pos (int (r.pos + n))
    moveTo (int (r.pos + n))
    pure data

/-- `readBytes`. -/
def readBytes (fuel wireType : ℕ) : Reading Slice :=
  if wireType ≠ 2 then fail (.expectedLengthDelimited wireType)
  else do
    let length ← readVarint fuel
    takeBytes (int length.toNat)

/-- `readString`: a string is its bytes. -/
def readString (fuel wireType : ℕ) : Reading (List UInt8) := do
  let data ← readBytes fuel wireType
  pure data.bytes

/-- How `skipField` leaves so many bytes out. -/
def skipBytes (n : ℤ) : Reading Unit := do
  let r ← reader
  if int (r.pos + n) > r.data.len then fail .unexpectedEOF else moveTo (int (r.pos + n))

/-- `skipField`. -/
def skipField (fuel wireType : ℕ) : Reading Unit :=
  match wireType with
  | 0 => do
    let _ ← readVarint fuel
    pure ()
  | 1 => skipBytes 8
  | 2 => do
    let length ← readVarint fuel
    skipBytes (int length.toNat)
  | 5 => skipBytes 4
  | _ => fail (.unknownWireType wireType)

/-- `for reader.hasMore()`: a loop over something that the turns fill in. -/
def whileMore {α : Type} (body : ℕ → α → Reading α) : ℕ → α → Reading α
  | 0, _ => outOfFuel
  | fuel + 1, acc => do
    let r ← reader
    if r.hasMore then
      let acc ← body fuel acc
      turnFrom r.pos
      whileMore body fuel acc
    else pure acc

/-! ### What the methods do -/

section Refines

variable {α β γ : Type}

/-- **What a program does is what a reading says**, about a slice of which some is left: a value
that stands for the value read, and the position where the rest begins; an error; or failure. -/
def Follows (f : α → β) (data : Slice) (program : ℕ → Decoding (α × ProtoReader)) :
    Wire.Result β → Prop
  | .accepted b rest => ∃ a, ∃ q ≤ data.len, f a = b ∧ data.bytes.drop q = rest ∧
      Settles Event.Good program (.ok (a, ⟨data, q⟩))
  | .refused => ∃ e, Settles Event.Good program (.error e)
  | .overlong => Fails Event.Good program

/-- **A method of the reader refines a reading.** -/
def Refines (f : α → β) (method : ℕ → Reading α) (s : Wire.Scan β) : Prop :=
  ∀ (data : Slice), ∀ p ≤ data.len,
    Follows f data (fun fuel => method fuel ⟨data, p⟩) (s data.len (data.bytes.drop p))

theorem Follows.of_turn {f : α → β} {data : Slice}
    {program turn : ℕ → Decoding (α × ProtoReader)} {result : Wire.Result β}
    (hzero : (program 0).outcome = .outOfFuel) (hsucc : ∀ fuel, program (fuel + 1) = turn fuel)
    (h : Follows f data turn result) : Follows f data program result := by
  cases result with
  | accepted b rest =>
    obtain ⟨a, q, hq, hab, hrest, hsettles⟩ := h
    exact ⟨a, q, hq, hab, hrest, hsettles.of_turn hzero hsucc⟩
  | refused =>
    obtain ⟨e, hsettles⟩ := h
    exact ⟨e, hsettles.of_turn hzero hsucc⟩
  | overlong => exact Fails.of_turn hzero hsucc h

/-- What comes after a program that has settled on a value. -/
theorem Follows.after {f : β → γ} {data : Slice} {program : ℕ → Decoding α} {a : α}
    (next : α → ℕ → Decoding (β × ProtoReader)) {result : Wire.Result γ}
    (hprogram : Settles Event.Good program (.ok a)) (h : Follows f data (next a) result) :
    Follows f data (fun fuel => (program fuel).andThen fun a => next a fuel) result := by
  cases result with
  | accepted b rest =>
    obtain ⟨b', q, hq, hb, hrest, hsettles⟩ := h
    exact ⟨b', q, hq, hb, hrest, hprogram.bind hsettles⟩
  | refused =>
    obtain ⟨e, hsettles⟩ := h
    exact ⟨e, hprogram.bind hsettles⟩
  | overlong => exact hprogram.bind_fails h

/-- **One method after another.** -/
theorem Refines.bind {δ : Type} {f : α → β} {g : γ → δ} {method : ℕ → Reading α}
    {next : α → ℕ → Reading γ} {s : Wire.Scan β} {t : β → Wire.Scan δ} (h : Refines f method s)
    (hnext : ∀ a, Refines g (next a) (t (f a))) :
    Refines g (fun fuel => method fuel >>= fun a => next a fuel) (s.bind t) := by
  intro data p hp
  have hfirst := h data p hp
  rw [Wire.Scan.bind]
  cases hs : s data.len (data.bytes.drop p) with
  | accepted b rest =>
    rw [hs] at hfirst
    obtain ⟨a, q, hq, rfl, rfl, hsettles⟩ := hfirst
    exact Follows.after (fun p fuel => next p.1 fuel p.2) hsettles (hnext a data q hq)
  | refused =>
    rw [hs] at hfirst
    obtain ⟨e, hsettles⟩ := hfirst
    exact ⟨e, hsettles.bind_error⟩
  | overlong =>
    rw [hs] at hfirst
    exact Fails.bind hfirst

/-- A method that does nothing. -/
theorem refines_pure (f : α → β) (a : α) :
    Refines f (fun _ => (pure a : Reading α)) (Wire.Scan.value (f a)) :=
  fun _ p hp => ⟨a, p, hp, rfl, rfl, .of_forall_eq (fun _ => rfl) (List.forall_mem_nil _) (by simp)⟩

/-- A method whose value is put into something, when the value does not matter. -/
theorem Refines.void {f : α → β} {method : ℕ → Reading α} {s : Wire.Scan β}
    (h : Refines f method s) (g : α → γ) :
    Refines (fun _ => ()) (fun fuel => method fuel >>= fun a => pure (g a)) s.void :=
  h.bind fun a => refines_pure (fun _ => ()) (g a)

theorem follows_fail (f : α → β) {data : Slice} {program : ℕ → Decoding (α × ProtoReader)}
    {e : DecodeError} (h : ∀ fuel, program fuel = ⟨.error e, []⟩) :
    Follows f data program .refused :=
  ⟨e, .of_forall_eq h (List.forall_mem_nil _) (by simp)⟩

theorem follows_value {f : α → β} {data : Slice} {program : ℕ → Decoding (α × ProtoReader)}
    {a : α} {q : ℕ} {events : List Event} (hq : q ≤ data.len)
    (h : ∀ fuel, program fuel = ⟨.ok (a, ⟨data, q⟩), events⟩) (hgood : ∀ e ∈ events, e.Good) :
    Follows f data program (.accepted (f a) (data.bytes.drop q)) :=
  ⟨a, q, hq, rfl, rfl, .of_forall_eq h hgood (by simp)⟩

/-! #### Numbers -/

variable {data : Slice} {p : ℕ}

theorem readVarintFrom_of_le (h : data.len ≤ p) (fuel : ℕ) (val shift : UInt64) :
    readVarintFrom (fuel + 1) val shift ⟨data, p⟩ = ⟨.error .unexpectedEOF, []⟩ := by
  have hge : (p : ℤ) ≥ data.len := by omega
  rw [readVarintFrom, reader_bind, if_pos hge]
  rfl

/-- **A byte of a number** is read where there is one. -/
theorem readVarintFrom_of_drop {b : UInt8} {rest : List UInt8}
    (h : data.bytes.drop p = b :: rest) (fuel : ℕ) (val shift : UInt64) :
    readVarintFrom (fuel + 1) val shift ⟨data, p⟩ =
      Run.andThen ⟨.ok ((), ⟨data, (p + 1 : ℕ)⟩), [.moved p (p + 1 : ℕ) data.len]⟩ fun x =>
        (if b < 0x80 then pure (val ||| ((b &&& 0x7F).toUInt64 <<< shift))
        else if shift + 7 ≥ 64 then fail .varintTooLong
        else readVarintFrom fuel (val ||| ((b &&& 0x7F).toUInt64 <<< shift)) (shift + 7)) x.2 := by
  have hlt : p < data.len := by
    have hlen := congrArg List.length h
    rw [List.length_drop, List.length_cons] at hlen
    rw [Slice.len]
    omega
  have hnot : ¬(p : ℤ) ≥ data.len := by omega
  have hget : data.bytes[p]? = some b := by
    rw [← Nat.add_zero p, ← List.getElem?_drop, h, List.getElem?_cons_zero]
  have hint : int ((p : ℤ) + 1) = (p + 1 : ℕ) := by
    have hlimit := data.length_lt
    rw [Slice.len] at hlt
    rw [int_of_lt (by omega) (by simp only [intLimit] at hlimit; omega)]
    rfl
  rw [readVarintFrom, reader_bind, if_neg hnot, byteAt_bind hget, hint]
  rfl

/-- A move that stays within the slice. -/
theorem settles_moveTo {q : ℕ} (hpq : p ≤ q) (hq : q ≤ data.len) :
    Settles Event.Good (fun _ => moveTo (q : ℤ) ⟨data, p⟩) (.ok ((), ⟨data, q⟩)) :=
  .of_forall_eq (fun _ => rfl) (List.forall_mem_singleton.mpr (good_moved hpq hq)) (by simp)

theorem follows_readVarintFrom (hp : p ≤ data.len) (val shift : UInt64) :
    Follows id data (fun fuel => readVarintFrom fuel val shift ⟨data, p⟩)
      (Wire.varintFrom val shift (data.bytes.drop p)) := by
  generalize hrest : data.bytes.drop p = rest
  induction rest generalizing p val shift with
  | nil =>
    have hle : data.len ≤ p := List.drop_eq_nil_iff.mp hrest
    exact .of_turn rfl (fun fuel => readVarintFrom_of_le hle fuel val shift)
      (follows_fail id fun _ => rfl)
  | cons b rest ih =>
    have hdrop : data.bytes.drop (p + 1) = rest := by
      rw [← List.drop_drop, hrest]
      rfl
    have hlt : p < data.len := by
      have hlen := congrArg List.length hrest
      rw [List.length_drop, List.length_cons] at hlen
      rw [Slice.len]
      omega
    refine .of_turn rfl (fun fuel => readVarintFrom_of_drop hrest fuel val shift) ?_
    refine Follows.after _ (settles_moveTo (Nat.le_succ p) hlt) ?_
    by_cases hb : b < 0x80
    · simp only [Wire.varintFrom, if_pos hb]
      rw [← hdrop]
      exact follows_value hlt (fun _ => rfl) (List.forall_mem_nil _)
    · by_cases hshift : 64 ≤ shift + 7
      · simp only [Wire.varintFrom, if_neg hb, if_pos hshift, ge_iff_le]
        exact follows_fail id fun _ => rfl
      · simp only [Wire.varintFrom, if_neg hb, if_neg hshift, ge_iff_le]
        exact ih hlt _ _ hdrop

/-- **`readVarint` reads a number.** -/
theorem refines_readVarint : Refines id readVarint Wire.varint := by
  intro data p hp
  by_cases hge : (p : ℤ) ≥ data.len
  · have hnil : data.bytes.drop p = [] := List.drop_eq_nil_iff.mpr (Int.ofNat_le.mp hge)
    rw [Wire.varint, hnil]
    refine follows_fail (e := .unexpectedEOF) id fun fuel => ?_
    rw [readVarint, reader_bind, if_pos hge]
    rfl
  · have hfrom := follows_readVarintFrom hp 0 0
    simp only [readVarint, reader_bind, if_neg hge]
    exact hfrom

/-- **`readTag` reads a tag.** -/
theorem refines_readTag : Refines id readTag Wire.tag :=
  refines_readVarint.bind fun v => refines_pure id ((v >>> 3).toNat, (v &&& 7).toNat)

/-! #### Contents -/

/-- A content, where something has been read of the slice. -/
theorem content_drop (hp : p ≤ data.len) (n : ℕ) :
    Wire.content intLimit n data.len (data.bytes.drop p) =
      if intLimit ≤ p + n then .overlong
      else if data.len < p + n then .refused
      else .accepted ((data.bytes.drop p).take n) (data.bytes.drop (p + n)) := by
  have hlen : (data.bytes.drop p).length = data.len - p := List.length_drop
  have hoffset : data.len - (data.len - p) = p := by omega
  have hless : data.len - p < n ↔ data.len < p + n := by omega
  simp only [Wire.content, hlen, hoffset, hless, List.drop_drop]

variable {n : ℕ} {m : ℤ}

/-- The end of a content that is within the limit. -/
theorem int_add_of_lt (hm : int m = int n) (hsum : p + n < intLimit) :
    int (p + m) = (p + n : ℕ) := by
  rw [int_add hm, int_of_lt (by omega) (by simp only [intLimit] at hsum; omega)]
  rfl

/-- The end of a content that is not goes back. -/
theorem int_add_lt_of_le (hp : p ≤ data.len) (hn : n < 2 ^ 64) (hm : int m = int n)
    (hsum : intLimit ≤ p + n) : int (p + m) < p := by
  have hlimit := data.length_lt
  rw [Slice.len] at hp
  simp only [intLimit] at hlimit hsum
  rw [int_add hm]
  exact int_add_lt (by omega) (by omega) (by omega)

/-- **`skipField` leaves a content out.** -/
theorem refines_skipBytes (hn : n < 2 ^ 64) (hm : int m = int n) :
    Refines (fun _ => ()) (fun _ => skipBytes m) (Wire.content intLimit n).void := by
  intro data p hp
  rw [Wire.Scan.void, Wire.Scan.bind, content_drop hp]
  simp only [skipBytes, reader_bind]
  by_cases hsum : intLimit ≤ p + n
  · have hback := int_add_lt_of_le hp hn hm hsum
    have hnot : ¬int (p + m) > data.len := by omega
    rw [if_pos hsum]
    simp only [if_neg hnot]
    -- the position goes back
    refine Fails.of_not_clean fun fuel hclean => ?_
    have hgood : (Event.moved p (int (p + m)) data.len).Good :=
      hclean _ (List.mem_singleton.mpr rfl)
    obtain ⟨-, hle, -⟩ := hgood
    omega
  · have hend := int_add_of_lt hm (Nat.lt_of_not_le hsum)
    rw [if_neg hsum, hend]
    by_cases hlt : data.len < p + n
    · have hgt : ((p + n : ℕ) : ℤ) > data.len := Int.ofNat_lt.mpr hlt
      simp only [if_pos hlt, if_pos hgt]
      exact follows_fail _ fun _ => rfl
    · have hnot : ¬((p + n : ℕ) : ℤ) > data.len := fun hgt => hlt (Int.ofNat_lt.mp hgt)
      simp only [if_neg hlt, if_neg hnot]
      exact follows_value (Nat.le_of_not_lt hlt) (fun _ => rfl)
        (List.forall_mem_singleton.mpr (good_moved (Nat.le_add_right p n) (Nat.le_of_not_lt hlt)))

/-- **`readBytes` takes a content.** -/
theorem refines_takeBytes (hn : n < 2 ^ 64) (hm : int m = int n) :
    Refines Slice.bytes (fun _ => takeBytes m) (Wire.content intLimit n) := by
  intro data p hp
  rw [content_drop hp]
  simp only [takeBytes, reader_bind]
  by_cases hsum : intLimit ≤ p + n
  · have hback := int_add_lt_of_le hp hn hm hsum
    have hnot : ¬int (p + m) > data.len := by omega
    have hempty : ¬(0 ≤ (p : ℤ) ∧ (p : ℤ) ≤ int (p + m) ∧ int (p + m) ≤ data.len) := by omega
    rw [if_pos hsum]
    simp only [if_neg hnot]
    -- the slice ends before it begins
    refine Fails.of_panicked fun fuel => ?_
    rw [bind_apply, slice, if_neg hempty]
    rfl
  · have hend := int_add_of_lt hm (Nat.lt_of_not_le hsum)
    rw [if_neg hsum, hend]
    by_cases hlt : data.len < p + n
    · have hgt : ((p + n : ℕ) : ℤ) > data.len := Int.ofNat_lt.mpr hlt
      simp only [if_pos hlt, if_pos hgt]
      exact follows_fail _ fun _ => rfl
    · have hnot : ¬((p + n : ℕ) : ℤ) > data.len := fun hgt => hlt (Int.ofNat_lt.mp hgt)
      have hwithin : 0 ≤ (p : ℤ) ∧ (p : ℤ) ≤ (p + n : ℕ) ∧ ((p + n : ℕ) : ℤ) ≤ data.len := by omega
      simp only [if_neg hlt, if_neg hnot]
      have hsub : (data.sub p (p + n)).bytes = (data.bytes.drop p).take n := by
        simp only [Slice.sub, Nat.add_sub_cancel_left]
      rw [← hsub]
      refine follows_value (Nat.le_of_not_lt hlt) (fun _ => ?_)
        (List.forall_mem_singleton.mpr (good_moved (Nat.le_add_right p n) (Nat.le_of_not_lt hlt)))
      rw [bind_apply, slice, if_pos hwithin]
      rfl

/-- **`readBytes` reads bytes with their length before them.** -/
theorem refines_readBytes (wireType : ℕ) :
    Refines Slice.bytes (fun fuel => readBytes fuel wireType)
      (Wire.bytes intLimit wireType) := by
  by_cases htype : wireType = 2
  · simp only [readBytes, Wire.bytes, if_pos htype, if_neg (not_not_intro htype)]
    exact refines_readVarint.bind fun length =>
      refines_takeBytes length.toNat_lt (int_int length.toNat)
  · simp only [readBytes, Wire.bytes, if_neg htype, if_pos htype, ne_eq]
    exact fun _ _ _ => follows_fail _ fun _ => rfl

/-- **`readString` reads the same bytes.** -/
theorem refines_readString (wireType : ℕ) :
    Refines id (fun fuel => readString fuel wireType) (Wire.bytes intLimit wireType) := by
  have hvalue := (refines_readBytes wireType).bind fun data => refines_pure id data.bytes
  rwa [Wire.Scan.bind_value] at hvalue

/-- **`skipField` leaves out what is not looked into.** -/
theorem refines_skipField : ∀ wireType, Refines (fun _ => ())
    (fun fuel => skipField fuel wireType) (Wire.skip intLimit wireType)
  | 0 => refines_readVarint.void fun _ => ()
  | 1 => refines_skipBytes (by decide) rfl
  | 2 => by
    rw [Wire.skip, Wire.delimited, Wire.Scan.void_bind]
    exact refines_readVarint.bind fun length =>
      refines_skipBytes length.toNat_lt (int_int length.toNat)
  | 5 => refines_skipBytes (by decide) rfl
  | 3 | 4 | _ + 6 => fun _ _ _ => follows_fail _ fun _ => rfl

/-! #### Loops and calls -/

theorem whileMore_of_le {body : ℕ → α → Reading α} (h : data.len ≤ p) (fuel : ℕ) (acc : α) :
    whileMore body (fuel + 1) acc ⟨data, p⟩ = ⟨.ok (acc, ⟨data, p⟩), []⟩ := by
  have hnot : ¬(⟨data, p⟩ : ProtoReader).hasMore := Int.not_lt.mpr (Int.ofNat_le.mpr h)
  rw [whileMore, reader_bind, if_neg hnot]
  rfl

/-- A turn of a loop. -/
theorem whileMore_of_lt {body : ℕ → α → Reading α} (h : p < data.len) (fuel : ℕ) (acc : α) :
    whileMore body (fuel + 1) acc ⟨data, p⟩ =
      (body fuel acc ⟨data, p⟩).andThen fun x =>
        (turnFrom p x.2).andThen fun y => whileMore body fuel x.1 y.2 := by
  have hmore : (⟨data, p⟩ : ProtoReader).hasMore := Int.ofNat_lt.mpr h
  rw [whileMore, reader_bind, if_pos hmore]
  rfl

theorem Follows.whileMore {body : ℕ → α → Reading α} {s : Wire.Scan Unit}
    (hbody : ∀ acc, Refines (fun _ => ()) (fun fuel => body fuel acc) s) (hs : s.Reads 1) (n : ℕ)
    (hp : p ≤ data.len) (hn : data.len - p ≤ n) (acc : α) :
    Follows (fun _ => ()) data (fun fuel => whileMore body fuel acc ⟨data, p⟩)
      (s.turns data.len n (data.bytes.drop p)) := by
  -- by induction on how many turns there can be
  induction n generalizing p acc with
  | zero =>
    have hle : data.len ≤ p := by omega
    rw [List.drop_eq_nil_iff.mpr hle, Wire.Scan.turns_nil, ← List.drop_eq_nil_iff.mpr hle]
    exact .of_turn rfl (fun fuel => whileMore_of_le hle fuel acc)
      (follows_value hp (fun _ => rfl) (List.forall_mem_nil _))
  | succ n ih =>
    obtain hle | hlt := le_or_gt data.len p
    · rw [List.drop_eq_nil_iff.mpr hle, Wire.Scan.turns_nil, ← List.drop_eq_nil_iff.mpr hle]
      exact .of_turn rfl (fun fuel => whileMore_of_le hle fuel acc)
        (follows_value hp (fun _ => rfl) (List.forall_mem_nil _))
    have hne : data.bytes.drop p ≠ [] := fun hnil =>
      Nat.not_le_of_lt hlt (List.drop_eq_nil_iff.mp hnil)
    have hturn := hbody acc data p hp
    rw [Wire.Scan.turns_succ s data.len n hne, Wire.Scan.bind]
    refine .of_turn rfl (fun fuel => whileMore_of_lt hlt fuel acc) ?_
    cases hscan : s data.len (data.bytes.drop p) with
    | accepted b rest =>
      have hread := hs _ _ _ _ hscan
      rw [hscan] at hturn
      obtain ⟨acc', q, hq, -, rfl, hsettles⟩ := hturn
      have hpq : p < q := by
        rw [List.length_drop, List.length_drop] at hread
        rw [Slice.len] at hlt
        omega
      -- the position has gone on, and there are fewer turns left
      refine Follows.after _ hsettles
        (Follows.after (a := ((), ⟨data, q⟩)) _ ?_ (ih hq (by omega) acc'))
      exact .of_forall_eq (fun _ => rfl) (List.forall_mem_singleton.mpr (good_turn hpq hq))
        (by simp)
    | refused =>
      rw [hscan] at hturn
      obtain ⟨e, hsettles⟩ := hturn
      exact ⟨e, hsettles.bind_error⟩
    | overlong =>
      rw [hscan] at hturn
      exact Fails.bind hturn

/-- **A loop reads again and again**: every turn goes on, so that the turns come to an end. -/
theorem Refines.whileMore (body : ℕ → α → Reading α) {s : Wire.Scan Unit}
    (hbody : ∀ acc, Refines (fun _ => ()) (fun fuel => body fuel acc) s) (hs : s.Reads 1)
    (acc : α) : Refines (fun _ => ()) (fun fuel => whileMore body fuel acc) s.repeated := by
  intro data p hp
  have hlen : (data.bytes.drop p).length = data.len - p := List.length_drop
  exact Follows.whileMore hbody hs _ hp hlen.ge acc

/-- **What a function says of a slice is what a reading of it says.** -/
def Decodes (program : ℕ → Decoding α) : Wire.Result Unit → Prop
  | .accepted _ _ => ∃ a, Settles Event.Good program (.ok a)
  | .refused => ∃ e, Settles Event.Good program (.error e)
  | .overlong => Fails Event.Good program

theorem Refines.start {method : ℕ → Reading α} {s : Wire.Scan Unit}
    (h : Refines (fun _ => ()) method s) (data : Slice) :
    Decodes (fun fuel => start (method fuel) data) (s data.len data.bytes) := by
  have hdata := h data 0 (Nat.zero_le _)
  rw [List.drop_zero] at hdata
  cases hs : s data.len data.bytes with
  | accepted b rest =>
    rw [hs] at hdata
    obtain ⟨a, q, -, -, -, hsettles⟩ := hdata
    exact ⟨a, hsettles.bind (.of_forall_eq (fun _ => rfl) (List.forall_mem_nil _) (by simp))⟩
  | refused =>
    rw [hs] at hdata
    obtain ⟨e, hsettles⟩ := hdata
    exact ⟨e, hsettles.bind_error⟩
  | overlong =>
    rw [hs] at hdata
    exact Fails.bind hdata

/-- **What is called** reads a content as a message of its own. -/
theorem Refines.call {function : ℕ → Decoding α} {s : Wire.Scan Unit} {data : Slice}
    (h : Decodes function (s data.len data.bytes)) :
    Refines (fun _ => ()) (fun fuel => call (function fuel)) (s.within data.bytes) := by
  intro outer p hp
  rw [Wire.Scan.within, ← Slice.len]
  cases hs : s data.len data.bytes with
  | accepted b rest =>
    rw [hs] at h
    obtain ⟨a, hsettles⟩ := h
    exact ⟨a, p, hp, rfl, rfl,
      hsettles.bind (.of_forall_eq (fun _ => rfl) (List.forall_mem_nil _) (by simp))⟩
  | refused =>
    rw [hs] at h
    obtain ⟨e, hsettles⟩ := h
    exact ⟨e, hsettles.bind_error⟩
  | overlong =>
    rw [hs] at h
    exact Fails.bind h

end Refines

/-! ### Reading what has been written -/

section Takes

variable {α β γ δ : Type} {f : α → β} {g : γ → δ} {method : ℕ → Reading α} {bytes : List UInt8}
  {b : β}

/-- **A method takes bytes**: wherever they are next, it returns what they stand for, and goes on
to what comes after them. -/
def Takes (f : α → β) (method : ℕ → Reading α) (bytes : List UInt8) (b : β) : Prop :=
  ∀ (data : Slice), ∀ p ≤ data.len, ∀ rest, data.bytes.drop p = bytes ++ rest →
    Follows f data (fun fuel => method fuel ⟨data, p⟩) (.accepted b rest)

/-- A method takes what the reading that it refines accepts. -/
theorem Refines.takes {s : Wire.Scan β} (h : Refines f method s)
    (hs : ∀ size < intLimit, ∀ rest, (bytes ++ rest).length ≤ size →
      s size (bytes ++ rest) = .accepted b rest) : Takes f method bytes b := by
  intro data p hp rest hdrop
  have hfollows := h data p hp
  have hle : (bytes ++ rest).length ≤ data.len := by
    rw [← hdrop, List.length_drop]
    exact Nat.sub_le _ _
  rwa [hdrop, hs data.len data.length_lt rest hle] at hfollows

/-- **One method after another** takes the bytes of the one and of the other. -/
theorem Takes.bind {next : α → ℕ → Reading γ} {bytes' : List UInt8} {d : δ}
    (h : Takes f method bytes b) (hnext : ∀ a, f a = b → Takes g (next a) bytes' d) :
    Takes g (fun fuel => method fuel >>= fun a => next a fuel) (bytes ++ bytes') d := by
  intro data p hp rest hdrop
  rw [List.append_assoc] at hdrop
  obtain ⟨a, q, hq, hab, hrest, hsettles⟩ := h data p hp _ hdrop
  exact Follows.after (fun p fuel => next p.1 fuel p.2) hsettles (hnext a hab data q hq rest hrest)

/-- Nothing is taken. -/
theorem takes_pure (a : α) : Takes id (fun _ => (pure a : Reading α)) [] a := by
  intro data p hp rest hdrop
  rw [List.nil_append] at hdrop
  rw [← hdrop]
  exact follows_value (f := id) hp (fun _ => rfl) (List.forall_mem_nil _)

/-- What a function is called with has been taken before. -/
theorem takes_call {function : ℕ → Decoding α} {a : α}
    (h : Settles Event.Good function (.ok a)) :
    Takes id (fun fuel => call (function fuel)) [] a := by
  intro data p hp rest hdrop
  rw [List.nil_append] at hdrop
  exact ⟨a, p, hp, rfl, hdrop,
    h.bind (.of_forall_eq (fun _ => rfl) (List.forall_mem_nil _) (by simp))⟩

theorem takes_readVarint (v : UInt64) : Takes id readVarint (Wire.uvarint v) v :=
  refines_readVarint.takes fun size _ rest _ => Wire.varint_uvarint v size rest

theorem takes_readTag {num wireType : ℕ} (hnum : num < 2 ^ 61) (htype : wireType < 8) :
    Takes id readTag (Wire.tagBytes num wireType) (num, wireType) :=
  refines_readTag.takes fun size _ rest _ => Wire.tag_tagBytes hnum htype size rest

theorem takes_readBytes (content : List UInt8) :
    Takes Slice.bytes (fun fuel => readBytes fuel 2) (Wire.withLength content) content :=
  (refines_readBytes 2).takes fun _ hsize _ hle =>
    Wire.bytes_withLength intLimit hsize (by decide) hle

theorem takes_readString (content : List UInt8) :
    Takes id (fun fuel => readString fuel 2) (Wire.withLength content) content :=
  (refines_readString 2).takes fun _ hsize _ hle =>
    Wire.bytes_withLength intLimit hsize (by decide) hle

/-- **A loop takes one piece of bytes in each turn.** -/
theorem takes_whileMore {turn : ℕ → α → Reading α} {pieces : List (List UInt8 × (α → α))}
    (hturn : ∀ piece ∈ pieces, piece.1 ≠ [] ∧
      ∀ acc, Takes id (fun fuel => turn fuel acc) piece.1 (piece.2 acc))
    {data : Slice} {p : ℕ} (hp : p ≤ data.len)
    (hdrop : data.bytes.drop p = pieces.flatMap Prod.fst) (acc : α) :
    Follows id data (fun fuel => whileMore turn fuel acc ⟨data, p⟩)
      (.accepted (pieces.foldl (fun acc piece => piece.2 acc) acc) []) := by
  induction pieces generalizing p acc with
  | nil =>
    have hle : data.len ≤ p := List.drop_eq_nil_iff.mp hdrop
    rw [List.flatMap_nil] at hdrop
    rw [← hdrop]
    exact .of_turn rfl (fun fuel => whileMore_of_le hle fuel acc)
      (follows_value (f := id) hp (fun _ => rfl) (List.forall_mem_nil _))
  | cons piece pieces ih =>
    obtain ⟨hne, htakes⟩ := hturn piece List.mem_cons_self
    rw [List.flatMap_cons] at hdrop
    have hlt : p < data.len := by
      by_contra hnot
      rw [List.drop_eq_nil_iff.mpr (Nat.le_of_not_lt hnot)] at hdrop
      exact hne (List.append_eq_nil_iff.mp hdrop.symm).1
    obtain ⟨_, q, hq, rfl, hrest, hsettles⟩ := htakes acc data p hp _ hdrop
    have hpq : p < q := by
      have hlen := congrArg List.length hrest
      have hlen' := congrArg List.length hdrop
      have hpos := List.length_pos_iff.mpr hne
      rw [List.length_append, List.length_drop] at hlen'
      rw [List.length_drop] at hlen
      rw [Slice.len] at hlt hq
      omega
    refine .of_turn rfl (fun fuel => whileMore_of_lt hlt fuel acc) ?_
    refine Follows.after _ hsettles (Follows.after (a := ((), ⟨data, q⟩)) _ ?_
      (ih (fun x hx => hturn x (List.mem_cons_of_mem piece hx)) hq hrest _))
    exact .of_forall_eq (fun _ => rfl) (List.forall_mem_singleton.mpr (good_turn hpq hq)) (by simp)

/-- **A decoder of a message that is written piece by piece.** -/
theorem settles_message {turn : ℕ → α → Reading α} {pieces : List (List UInt8 × (α → α))}
    (hturn : ∀ piece ∈ pieces, piece.1 ≠ [] ∧
      ∀ acc, Takes id (fun fuel => turn fuel acc) piece.1 (piece.2 acc))
    {data : Slice} (hdata : data.bytes = pieces.flatMap Prod.fst) {acc a : α}
    (ha : pieces.foldl (fun acc piece => piece.2 acc) acc = a) :
    Settles Event.Good (fun fuel => start (whileMore turn fuel acc) data) (.ok a) := by
  obtain ⟨a', q, -, rfl, -, hsettles⟩ := takes_whileMore hturn (Nat.zero_le _) hdata acc
  rw [← ha]
  exact hsettles.bind (.of_forall_eq (fun _ => rfl) (List.forall_mem_nil _) (by simp))

end Takes

end Gortex.Semantic
