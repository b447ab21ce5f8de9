import Mathlib.Algebra.Group.Nat.Defs
import Mathlib.Data.Nat.Notation
import Mathlib.Order.Basic

/-!
# The wire format of messages

The bytes of a message are fields, one after another; a field begins with a tag, that says its
number and its wire type, and the number says what shape its content has. The reading here is
exact: it knows no position, only what is left of the bytes, and its lengths are natural numbers.
It goes on, it is refused, or it comes to a content that would end at the limit or after it, if
there were that many bytes (`Wire.Result.overlong`): a reader that adds in integers with a largest
value cannot say where such a content ends.
-/

namespace Wire

/-- Bytes. -/
abbrev Bytes := List UInt8

/-- **What a reading says**: a value and the bytes that are left, no, or that a content ends at
the limit or after it. -/
inductive Result (β : Type)
  | accepted (b : β) (rest : Bytes)
  | refused
  | overlong

/-- A reading of what is left of a message, of which it knows the size. -/
abbrev Scan (β : Type) := ℕ → Bytes → Result β

namespace Scan

variable {β γ : Type}

/-- Nothing is read. -/
def value (b : β) : Scan β := fun _ bytes => .accepted b bytes

/-- One reading after another. -/
def bind (s : Scan β) (t : β → Scan γ) : Scan γ := fun size bytes =>
  match s size bytes with
  | .accepted b rest => t b size rest
  | .refused => .refused
  | .overlong => .overlong

/-- A reading for which the value does not matter. -/
def void (s : Scan β) : Scan Unit := s.bind fun _ => value ()

@[simp] theorem bind_value (s : Scan β) : s.bind value = s := by
  funext size bytes
  simp only [bind]
  cases s size bytes <;> rfl

@[simp] theorem void_eq (s : Scan Unit) : s.void = s := s.bind_value

theorem void_bind (s : Scan β) (t : β → Scan γ) :
    (s.bind t).void = s.bind fun b => (t b).void := by
  funext size bytes
  simp only [void, bind]
  cases s size bytes <;> rfl

/-- A reading, a number of times at most, until nothing is left. -/
def turns (s : Scan Unit) (size : ℕ) : ℕ → Bytes → Result Unit
  | _, [] => .accepted () []
  | 0, _ :: _ => .refused
  | n + 1, b :: bytes =>
    match s size (b :: bytes) with
    | .accepted _ rest => turns s size n rest
    | .refused => .refused
    | .overlong => .overlong

@[simp] theorem turns_nil (s : Scan Unit) (size n : ℕ) : s.turns size n [] = .accepted () [] := by
  cases n <;> rfl

theorem turns_succ (s : Scan Unit) (size n : ℕ) {bytes : Bytes} (h : bytes ≠ []) :
    s.turns size (n + 1) bytes = s.bind (fun _ size rest => s.turns size n rest) size bytes := by
  cases bytes with
  | nil => exact absurd rfl h
  | cons b bytes =>
    simp only [turns, bind]
    cases s size (b :: bytes) <;> rfl

/-- **A reading again and again**, until nothing is left. If there is less left after every turn,
as many turns as there are bytes are enough. -/
def repeated (s : Scan Unit) : Scan Unit := fun size bytes => s.turns size bytes.length bytes

/-- The reading of a content, as a message of its own. -/
def within (s : Scan Unit) (content : Bytes) : Scan Unit := fun _ rest =>
  match s content.length content with
  | .accepted _ _ => .accepted () rest
  | .refused => .refused
  | .overlong => .overlong

/-- Where it goes on, at least so many bytes have been read. -/
def Reads (k : ℕ) (s : Scan β) : Prop :=
  ∀ size bytes b rest, s size bytes = .accepted b rest → rest.length + k ≤ bytes.length

theorem Reads.mono {k l : ℕ} {s : Scan β} (hs : s.Reads l) (hle : k ≤ l) : s.Reads k := by
  intro size bytes b rest h
  have hread := hs size bytes b rest h
  omega

theorem Reads.value (b : β) : (value b).Reads 0 := by
  rintro size bytes _ _ ⟨⟩
  exact Nat.le_refl _

theorem Reads.refused (k : ℕ) : Reads k fun _ _ => (Result.refused : Result β) := by
  intro size bytes b rest h
  simp at h

theorem Reads.bind {k l : ℕ} {s : Scan β} {t : β → Scan γ} (hs : s.Reads k)
    (ht : ∀ b, (t b).Reads l) : (s.bind t).Reads (k + l) := by
  intro size bytes c rest h
  rw [Scan.bind] at h
  split at h
  · rename_i b rest' heq
    have hfirst := hs size bytes b rest' heq
    have hsecond := ht b size rest' c rest h
    omega
  · simp at h
  · simp at h

theorem Reads.within (s : Scan Unit) (content : Bytes) : (s.within content).Reads 0 := by
  intro size bytes b rest h
  rw [Scan.within] at h
  split at h
  · cases h
    exact Nat.le_refl _
  · simp at h
  · simp at h

theorem Reads.void {k : ℕ} {s : Scan β} (hs : s.Reads k) : s.void.Reads k :=
  hs.bind fun _ => .value ()

end Scan

variable (limit : ℕ)

/-! ### Numbers, contents and tags -/

/-- The rest of a number: seven bits of it in each byte, the lowest ones first, and nothing but
these seven bits in the last byte. -/
def varintFrom (val shift : UInt64) : Bytes → Result UInt64
  | [] => .refused
  | b :: rest =>
    let val := val ||| ((b &&& 0x7F).toUInt64 <<< shift)
    if b < 0x80 then .accepted val rest
    else if 64 ≤ shift + 7 then .refused
    else varintFrom val (shift + 7) rest

/-- A number of 64 bits. -/
def varint : Scan UInt64 := fun _ bytes => varintFrom 0 0 bytes

/-- **So many bytes.** They begin after what has been read of the message. -/
def content (n : ℕ) : Scan Bytes := fun size bytes =>
  if limit ≤ size - bytes.length + n then .overlong
  else if bytes.length < n then .refused
  else .accepted (bytes.take n) (bytes.drop n)

/-- Bytes with their length before them. -/
def delimited : Scan Bytes := varint.bind fun n => content limit n.toNat

/-- A number and a wire type. -/
def tag : Scan (ℕ × ℕ) := varint.bind fun v => .value ((v >>> 3).toNat, (v &&& 7).toNat)

/-- The content of a field that has to have its length before it. -/
def bytes (wireType : ℕ) : Scan Bytes :=
  if wireType = 2 then delimited limit else fun _ _ => .refused

/-- The content of a field that is not looked into. -/
def skip (wireType : ℕ) : Scan Unit :=
  match wireType with
  | 0 => varint.void
  | 1 => (content limit 8).void
  | 2 => (delimited limit).void
  | 5 => (content limit 4).void
  | _ => fun _ _ => .refused

theorem reads_varintFrom {val shift : UInt64} {bytes rest : Bytes} {v : UInt64}
    (h : varintFrom val shift bytes = .accepted v rest) : rest.length + 1 ≤ bytes.length := by
  induction bytes generalizing val shift with
  | nil => simp [varintFrom] at h
  | cons b bytes ih =>
    simp only [varintFrom] at h
    split at h
    · cases h
      exact Nat.le_refl _
    · split at h
      · simp at h
      · exact Nat.le_succ_of_le (ih h)

theorem reads_varint : varint.Reads 1 := fun _ _ _ _ h => reads_varintFrom h

theorem reads_content (n : ℕ) : (content limit n).Reads 0 := by
  intro size bytes b rest h
  rw [content] at h
  split at h
  · simp at h
  · split at h
    · simp at h
    · cases h
      rw [List.length_drop]
      omega

theorem reads_delimited : (delimited limit).Reads 1 :=
  reads_varint.bind fun n => reads_content limit n.toNat

theorem reads_tag : tag.Reads 1 := reads_varint.bind fun _ => .value _

theorem reads_bytes (wireType : ℕ) : (bytes limit wireType).Reads 0 := by
  rw [bytes]
  split
  · exact (reads_delimited limit).mono (Nat.zero_le _)
  · exact .refused 0

theorem reads_skip (wireType : ℕ) : (skip limit wireType).Reads 0 := by
  unfold skip
  split
  · exact reads_varint.void.mono (Nat.zero_le _)
  · exact (reads_content limit 8).void
  · exact (reads_delimited limit).void.mono (Nat.zero_le _)
  · exact (reads_content limit 4).void
  · exact .refused 0

/-! ### Shapes -/

/-- **What a field holds**: something that is not looked into, a number (whatever the wire type
says), bytes, numbers (one, or many after their length), or a message, with fields of its own. -/
inductive Shape
  | unknown
  | number
  | text
  | numbers
  | message (fields : ℕ → Shape)

namespace Shape

/-- The reading of a field's content. -/
def scan : Shape → ℕ → Scan Unit
  | unknown, wireType => skip limit wireType
  | number, _ => varint.void
  | text, wireType => (bytes limit wireType).void
  | numbers, wireType =>
    if wireType = 2 then (bytes limit wireType).bind varint.void.repeated.within
    else varint.void
  | message fields, wireType =>
    (bytes limit wireType).bind
      (Scan.repeated (tag.bind fun t => (fields t.1).scan t.2)).within

end Shape

/-- The reading of a field, of a message with these fields. -/
def field (fields : ℕ → Shape) : Scan Unit := tag.bind fun t => (fields t.1).scan limit t.2

/-- **The reading of a message.** -/
def message (fields : ℕ → Shape) : Scan Unit := (field limit fields).repeated

theorem scan_message (fields : ℕ → Shape) (wireType : ℕ) :
    (Shape.message fields).scan limit wireType =
      (bytes limit wireType).bind (message limit fields).within := rfl

theorem reads_scan (shape : Shape) (wireType : ℕ) : (shape.scan limit wireType).Reads 0 := by
  cases shape with
  | unknown => exact reads_skip limit wireType
  | number => exact reads_varint.void.mono (Nat.zero_le _)
  | text => exact (reads_bytes limit wireType).void
  | numbers =>
    rw [Shape.scan]
    split
    · exact (reads_bytes limit wireType).bind fun _ => .within _ _
    · exact reads_varint.void.mono (Nat.zero_le _)
  | message fields => exact (reads_bytes limit wireType).bind fun _ => .within _ _

/-- **A field is at least its tag**: there is less left after it. -/
theorem reads_field (fields : ℕ → Shape) : (field limit fields).Reads 1 :=
  reads_tag.bind fun t => reads_scan limit (fields t.1) t.2

/-! ### Writing -/

/-- **The bytes of a number**: seven bits of it in each byte, the lowest ones first, and the eighth
bit in all but the last one. -/
def uvarint (x : UInt64) : Bytes :=
  if 0x80 ≤ x then (x.toUInt8 ||| 0x80) :: uvarint (x >>> 7) else [x.toUInt8]
termination_by x.toNat
decreasing_by
  rename_i h
  have hle : 128 ≤ x.toNat := UInt64.le_iff_toNat_le.mp h
  simp only [UInt64.toNat_shiftRight, UInt64.reduceToNat, Nat.reduceMod, Nat.shiftRight_eq_div_pow]
  omega

theorem uvarint_ne_nil (x : UInt64) : uvarint x ≠ [] := by
  rw [uvarint]
  split <;> simp

/-- The bytes of a tag. -/
def tagBytes (num wireType : ℕ) : Bytes := uvarint (UInt64.ofNat (num <<< 3 ||| wireType))

/-- A content with its length before it. -/
def withLength (content : Bytes) : Bytes := uvarint (UInt64.ofNat content.length) ++ content

/-- The seven bits of a byte are added to what has been read. -/
theorem toNat_or_shiftLeft {val shift : UInt64} {b : UInt8} {k : ℕ} (hs : shift.toNat < 64)
    (hval : val.toNat < 2 ^ shift.toNat) (hb : (b &&& 0x7F).toNat = k)
    (hfit : k * 2 ^ shift.toNat < 2 ^ 64) :
    (val ||| ((b &&& 0x7F).toUInt64 <<< shift)).toNat = val.toNat + k * 2 ^ shift.toNat := by
  rw [UInt64.toNat_or, UInt64.toNat_shiftLeft, UInt8.toNat_toUInt64, hb, Nat.mod_eq_of_lt hs,
    Nat.shiftLeft_eq, Nat.mod_eq_of_lt hfit, Nat.or_comm, Nat.mul_comm,
    ← Nat.two_pow_add_eq_or_of_lt hval, Nat.add_comm]

theorem toNat_and_0x7F (b : UInt8) : (b &&& 0x7F).toNat = b.toNat % 128 := by
  rw [UInt8.toNat_and]
  exact Nat.and_two_pow_sub_one_eq_mod b.toNat 7

theorem toNat_or_0x80 (b : UInt8) : (b ||| 0x80).toNat = b.toNat % 128 + 128 := by
  have hall : ∀ i : Fin 256, i.val ||| 128 = i.val % 128 + 128 := by decide +kernel
  rw [UInt8.toNat_or]
  exact hall ⟨b.toNat, b.toNat_lt⟩

/-- **A number that has been written is read back**, where some of it has been read. -/
theorem varintFrom_uvarint {val shift x : UInt64} (hs : shift.toNat < 64)
    (hval : val.toNat < 2 ^ shift.toNat) (hx : x.toNat * 2 ^ shift.toNat < 2 ^ 64) (rest : Bytes) :
    ∃ v, varintFrom val shift (uvarint x ++ rest) = .accepted v rest ∧
      v.toNat = val.toNat + x.toNat * 2 ^ shift.toNat := by
  induction hn : x.toNat using Nat.strongRecOn generalizing val shift x with
  | ind n ih =>
    subst hn
    rw [uvarint]
    by_cases hlarge : 0x80 ≤ x
    · have hle : 128 ≤ x.toNat := UInt64.le_iff_toNat_le.mp hlarge
      have hseven : shift.toNat + 7 < 64 := by
        by_contra hnot
        have hpow : 2 ^ 57 ≤ 2 ^ shift.toNat := Nat.pow_le_pow_right (by omega) (by omega)
        have hmul := Nat.mul_le_mul hle hpow
        omega
      have hb : ((x.toUInt8 ||| 0x80) &&& 0x7F).toNat = x.toNat % 128 := by
        rw [toNat_and_0x7F, toNat_or_0x80, UInt64.toNat_toUInt8]
        omega
      have hnot : ¬x.toUInt8 ||| 0x80 < 0x80 := by
        rw [UInt8.lt_iff_toNat_lt, toNat_or_0x80]
        simp
      have hshift : (shift + 7).toNat = shift.toNat + 7 := by
        rw [UInt64.toNat_add]
        simp only [UInt64.reduceToNat]
        omega
      have hmore : ¬64 ≤ shift + 7 := by
        rw [UInt64.le_iff_toNat_le, hshift]
        simp only [UInt64.reduceToNat]
        omega
      have hpow : 2 ^ (shift.toNat + 7) = 128 * 2 ^ shift.toNat := by
        rw [Nat.pow_add, Nat.mul_comm]
      have hdiv : (x >>> 7).toNat = x.toNat / 128 := by
        simp only [UInt64.toNat_shiftRight, UInt64.reduceToNat, Nat.reduceMod,
          Nat.shiftRight_eq_div_pow, Nat.reducePow]
      -- the seven bits, and what is left of the number
      have hsplit : x.toNat % 128 * 2 ^ shift.toNat + x.toNat / 128 * (128 * 2 ^ shift.toNat) =
          x.toNat * 2 ^ shift.toNat := by
        rw [← Nat.mul_assoc, ← Nat.add_mul, Nat.mul_comm (x.toNat / 128), Nat.mod_add_div]
      have hadd := toNat_or_shiftLeft hs hval hb (by omega)
      have hbits : x.toNat % 128 * 2 ^ shift.toNat ≤ 127 * 2 ^ shift.toNat :=
        Nat.mul_le_mul_right _ (by omega)
      have hval' : (val ||| (((x.toUInt8 ||| 0x80) &&& 0x7F).toUInt64 <<< shift)).toNat <
          2 ^ (shift + 7).toNat := by
        rw [hshift, hpow, hadd]
        omega
      have hx' : (x >>> 7).toNat * 2 ^ (shift + 7).toNat < 2 ^ 64 := by
        rw [hshift, hpow, hdiv]
        omega
      have hs' : (shift + 7).toNat < 64 := by
        rw [hshift]
        exact hseven
      obtain ⟨v, hv, hsum⟩ := ih (x >>> 7).toNat (by omega) hs' hval' hx' rfl
      rw [if_pos hlarge, List.cons_append, varintFrom]
      simp only [if_neg hnot, if_neg hmore]
      refine ⟨v, hv, ?_⟩
      rw [hsum, hadd, hshift, hpow, hdiv]
      omega
    · have hlt : x.toNat < 128 := by
        rw [UInt64.le_iff_toNat_le] at hlarge
        simp only [UInt64.reduceToNat] at hlarge
        omega
      have hb : (x.toUInt8 &&& 0x7F).toNat = x.toNat := by
        rw [toNat_and_0x7F, UInt64.toNat_toUInt8]
        omega
      have hlast : x.toUInt8 < 0x80 := by
        rw [UInt8.lt_iff_toNat_lt, UInt64.toNat_toUInt8]
        simp only [UInt8.reduceToNat]
        omega
      rw [if_neg hlarge, List.singleton_append, varintFrom]
      simp only [if_pos hlast]
      exact ⟨_, rfl, toNat_or_shiftLeft hs hval hb hx⟩

/-- **A number that has been written is read back.** -/
theorem varint_uvarint (x : UInt64) (size : ℕ) (rest : Bytes) :
    varint size (uvarint x ++ rest) = .accepted x rest := by
  have hs : (0 : UInt64).toNat < 64 := by decide
  have hval : (0 : UInt64).toNat < 2 ^ (0 : UInt64).toNat := by decide
  have hx : x.toNat * 2 ^ (0 : UInt64).toNat < 2 ^ 64 := by
    have hlt := x.toNat_lt
    simp only [UInt64.reduceToNat]
    omega
  obtain ⟨v, hv, hsum⟩ := varintFrom_uvarint hs hval hx rest
  have hvx : v = x := UInt64.toNat_inj.mp (by rw [hsum]; simp)
  rw [varint, hv, hvx]

/-- **A tag that has been written is read back.** -/
theorem tag_tagBytes {num wireType : ℕ} (hnum : num < 2 ^ 61) (htype : wireType < 8) (size : ℕ)
    (rest : Bytes) :
    tag size (tagBytes num wireType ++ rest) = .accepted (num, wireType) rest := by
  have hor : num <<< 3 ||| wireType = num * 8 + wireType := by
    rw [← Nat.shiftLeft_add_eq_or_of_lt htype, Nat.shiftLeft_eq]
  have hval : (UInt64.ofNat (num <<< 3 ||| wireType)).toNat = num * 8 + wireType := by
    rw [hor, UInt64.toNat_ofNat']
    omega
  have hnum : (UInt64.ofNat (num <<< 3 ||| wireType) >>> 3).toNat = num := by
    rw [UInt64.toNat_shiftRight, hval]
    simp only [UInt64.reduceToNat, Nat.reduceMod, Nat.shiftRight_eq_div_pow, Nat.reducePow]
    omega
  have htype : (UInt64.ofNat (num <<< 3 ||| wireType) &&& 7).toNat = wireType := by
    rw [UInt64.toNat_and, hval]
    exact (Nat.and_two_pow_sub_one_eq_mod _ 3).trans (by omega)
  rw [tag, Scan.bind, tagBytes, varint_uvarint]
  simp only [hnum, htype]
  rfl

/-- **A content that has been written is read back**, if the message ends before the limit. -/
theorem bytes_withLength {content : Bytes} {size : ℕ} (hsize : size < limit)
    (hlimit : limit ≤ 2 ^ 64) {rest : Bytes} (hle : (withLength content ++ rest).length ≤ size) :
    bytes limit 2 size (withLength content ++ rest) = .accepted content rest := by
  rw [withLength, List.append_assoc, List.length_append, List.length_append] at hle
  have hlen : (UInt64.ofNat content.length).toNat = content.length := by
    rw [UInt64.toNat_ofNat']
    omega
  rw [bytes, if_pos rfl, delimited, Scan.bind, withLength, List.append_assoc, varint_uvarint]
  simp only [Wire.content, hlen, List.length_append]
  rw [if_neg (by omega), if_neg (by omega), List.take_left, List.drop_left]

end Wire
