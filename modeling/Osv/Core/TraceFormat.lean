import Mathlib.Data.List.Basic
import Osv.Lib.Bytes

/-!
# The payload of a trace record and the decoder's `struct` format

A tracepoint stores its arguments after the record header with `serializer` (`osv/trace.hh`):
each argument at the next multiple of its `object_serializer::alignment()`, `min(sizeof(T), 8)`,
taking `object_serializer::size()` bytes; a `const char*` takes `max_len = 50` bytes, a length
byte `min(49, strlen)` and that many characters.  Its `signature()` packs one `signature_char`
per argument into a `u64`, the first argument in the low byte.

`scripts/loader.py` turns the signature back into a Python `struct` format, `sig_to_string`:
one character per nonzero byte, `p` replaced by `50p`.  `struct` reads each field at the next
multiple of its native alignment, a `50p` field as a Pascal string.  `parseFormat` is the part
of `struct`'s format grammar the signatures use: an optional decimal count, then a code.

**What holds.**  With at most eight arguments, the format has one field per argument
(`parseFormat_sigToString`), `struct.calcsize` is the size `serializer` reserved
(`calcsize_eq_serializerSize`), and unpacking what `serializer` wrote gives the arguments
back, strings cut to 49 bytes and the null string shown as `"<null>"` (`unpack_serializerWrite`).

**What does not.**  `signature_helper` shifts each further character eight bits up a `u64`, so
the characters of a ninth argument and beyond are lost (`sigChars_signatureHelper`).
-/

namespace Osv.Core

open Bytes

/-- `align_down(n, alignment)` of `align.hh`, `n & ~(alignment - 1)`, for a power of two. -/
def alignDown (n a : ℕ) : ℕ := n / a * a

/-- `align_up(n, alignment)` of `align.hh`. -/
def alignUp (n a : ℕ) : ℕ := alignDown (n + a - 1) a

theorem le_alignUp {n a : ℕ} (ha : 0 < a) : n ≤ alignUp n a := by
  unfold alignUp alignDown
  have hdiv := Nat.div_add_mod (n + a - 1) a
  have hmod := Nat.mod_lt (n + a - 1) ha
  rw [Nat.mul_comm] at hdiv
  omega

/-- The fixed-width types with a `signature_char`. -/
inductive Scalar
  | char | s8 | u8 | s16 | u16 | s32 | u32 | s64 | u64 | bool | float | double | pointer
deriving DecidableEq, Repr

/-- `sizeof(T)` on x86-64. -/
def Scalar.size : Scalar → ℕ
  | .char | .s8 | .u8 | .bool => 1
  | .s16 | .u16 => 2
  | .s32 | .u32 | .float => 4
  | .s64 | .u64 | .double | .pointer => 8

theorem Scalar.size_le (t : Scalar) : t.size ≤ 8 := by
  cases t <;> decide

theorem Scalar.size_pos (t : Scalar) : 0 < t.size := by
  cases t <;> decide

/-- The argument types of a tracepoint: a fixed-width type or `const char*`. -/
inductive ArgType
  | scalar (t : Scalar)
  | string
deriving DecidableEq, Repr

/-- `object_serializer<const char*>::max_len` -/
def maxLen : ℕ := 50

namespace ArgType

/-- `signature_char<T>::sig` -/
def sig : ArgType → Char
  | scalar .char => 'c'
  | scalar .s8 => 'b'
  | scalar .u8 => 'B'
  | scalar .s16 => 'h'
  | scalar .u16 => 'H'
  | scalar .s32 => 'i'
  | scalar .u32 => 'I'
  | scalar .s64 => 'q'
  | scalar .u64 => 'Q'
  | scalar .bool => '?'
  | scalar .float => 'f'
  | scalar .double => 'd'
  | scalar .pointer => 'P'
  | string => 'p'

/-- `object_serializer<T>::size()` -/
def size : ArgType → ℕ
  | scalar t => t.size
  | string => maxLen

/-- `object_serializer<T>::alignment()`: `min(sizeof(T), sizeof(long))`, and `1` for
`const char*`. -/
def alignment : ArgType → ℕ
  | scalar t => min t.size 8
  | string => 1

theorem alignment_pos (t : ArgType) : 0 < t.alignment := by
  cases t with
  | scalar t => exact Nat.lt_min.mpr ⟨t.size_pos, by decide⟩
  | string => exact Nat.one_pos

end ArgType

/-- A tracepoint argument: a fixed-width value as its bits, or a `const char*` as the bytes
before its `'\0'`, `none` for the null pointer. -/
inductive Arg
  | scalar (t : Scalar) (v : BitVec (8 * t.size))
  | string (s : Option (List UInt8))
deriving DecidableEq

/-- `"<null>"`, which `serialize` stores for a null string. -/
def nullString : List UInt8 := [60, 110, 117, 108, 108, 62]

namespace Arg

def type : Arg → ArgType
  | scalar t _ => .scalar t
  | string _ => .string

/-- The bytes `object_serializer<T>::serialize(val, buffer)` stores: the value's
`sizeof(T)` bytes, or for a string the length byte and the characters `memcpy` copies. -/
def serialize : Arg → List UInt8
  | scalar t v => toListLE t.size v.toNat
  | string s =>
      let val := s.getD nullString
      let len := min (maxLen - 1) val.length
      UInt8.ofNat len :: val.take len

end Arg

/-- `serializer<idx, N, args...>::write(buffer, offset, as)` -/
def serializerWrite (m : Mem) (buffer : ℕ) : ℕ → List Arg → Mem
  | _, [] => m
  | offset, a :: as =>
      let offset := alignUp offset a.type.alignment
      serializerWrite (write m (buffer + offset) a.serialize) buffer (offset + a.type.size) as

/-- `serializer<idx, N, args...>::size(offset)` -/
def serializerSize : ℕ → List ArgType → ℕ
  | offset, [] => offset
  | offset, t :: ts => serializerSize (alignUp offset t.alignment + t.size) ts

theorem serializerWrite_cons (m : Mem) (buffer offset : ℕ) (a : Arg) (as : List Arg) :
    serializerWrite m buffer offset (a :: as) =
      serializerWrite (write m (buffer + alignUp offset a.type.alignment) a.serialize) buffer
        (alignUp offset a.type.alignment + a.type.size) as := rfl

theorem serializerSize_cons (offset : ℕ) (t : ArgType) (ts : List ArgType) :
    serializerSize offset (t :: ts) = serializerSize (alignUp offset t.alignment + t.size) ts := rfl

/-- `signature_helper<args...>::sig` -/
def signatureHelper : List ArgType → UInt64
  | [] => 0
  | t :: ts => UInt64.ofNat t.sig.toNat ||| signatureHelper ts <<< 8

/-! ## The decoder's side -/

/-- The loop of `sig_to_string`: one character per byte, low byte first, while the rest is
nonzero.  A `u64` has eight bytes, the loop's bound. -/
def sigChars : ℕ → ℕ → List Char
  | 0, _ => []
  | fuel + 1, sig => if sig = 0 then [] else Char.ofNat (sig % 256) :: sigChars fuel (sig / 256)

/-- `sig_to_string(sig)`, with `ret.replace('p', '50p')`. -/
def sigToString (sig : UInt64) : List Char :=
  (sigChars 8 sig.toNat).flatMap fun c => if c = 'p' then ['5', '0', 'p'] else [c]

/-- A field of a `struct` format: a native C type, or a Pascal string of `n` bytes. -/
inductive Field
  | scalar (t : Scalar)
  | pascal (n : ℕ)
deriving DecidableEq, Repr

/-- The `struct` format codes for C types, from Python's table. -/
def structCode : Char → Option Scalar
  | 'c' => some .char
  | 'b' => some .s8
  | 'B' => some .u8
  | '?' => some .bool
  | 'h' => some .s16
  | 'H' => some .u16
  | 'i' => some .s32
  | 'I' => some .u32
  | 'q' => some .s64
  | 'Q' => some .u64
  | 'f' => some .float
  | 'd' => some .double
  | 'P' => some .pointer
  | _ => none

/-- The value `struct.unpack` yields for a field. -/
inductive Value
  | scalar (t : Scalar) (v : BitVec (8 * t.size))
  | bytes (b : List UInt8)
deriving DecidableEq

namespace Field

def size : Field → ℕ
  | scalar t => t.size
  | pascal n => n

/-- Native alignment: on x86-64 a C type's own size; a string is bytes. -/
def align : Field → ℕ
  | scalar t => t.size
  | pascal _ => 1

/-- A field's value from its bytes: the number they spell, or the Pascal string, whose length
byte is capped at `n - 1`. -/
def unpack : Field → List UInt8 → Value
  | scalar t, bs => .scalar t (BitVec.ofNat _ (ofListLE bs))
  | pascal n, bs => .bytes ((bs.drop 1).take (min (bs.headD 0).toNat (n - 1)))

end Field

/-- The format grammar of `struct` that signatures use: a code, with an optional decimal count
before it, which for `p` is the field's size and otherwise repeats the code; `none` is the
`struct.error` of a code outside the table or a count with no code. -/
def parseFormat : Option ℕ → List Char → Option (List Field)
  | none, [] => some []
  | some _, [] => none
  | count, c :: cs =>
      if c.isDigit then parseFormat (some (count.getD 0 * 10 + (c.toNat - '0'.toNat))) cs
      else if c = 'p' then (Field.pascal (count.getD 1) :: ·) <$> parseFormat none cs
      else match structCode c with
        | some t => (List.replicate (count.getD 1) (Field.scalar t) ++ ·) <$> parseFormat none cs
        | none => none

/-- `struct.calcsize(fmt)` in native mode: no padding after the last field. -/
def calcsize (fs : List Field) : ℕ := fs.foldl (fun off f => alignUp off f.align + f.size) 0

/-- `struct.unpack(fmt, buffer)` on the bytes from `base`, from field offset `off` on. -/
def unpackFrom (m : Mem) (base : ℕ) : ℕ → List Field → List Value
  | _, [] => []
  | off, f :: fs =>
      let off := alignUp off f.align
      f.unpack (read m (base + off) f.size) :: unpackFrom m base (off + f.size) fs

theorem unpackFrom_cons (m : Mem) (base off : ℕ) (f : Field) (fs : List Field) :
    unpackFrom m base off (f :: fs) =
      f.unpack (read m (base + alignUp off f.align) f.size) ::
        unpackFrom m base (alignUp off f.align + f.size) fs := rfl

/-! ## The two sides agree -/

/-- The field that the decoder reads for an argument type. -/
def ArgType.field : ArgType → Field
  | scalar t => .scalar t
  | string => .pascal maxLen

/-- What the decoder should yield for an argument: its value, a string cut to `max_len - 1`
bytes, the null string read as `"<null>"`. -/
def Arg.value : Arg → Value
  | scalar t v => .scalar t v
  | string s => .bytes ((s.getD nullString).take (maxLen - 1))

@[simp] theorem ArgType.field_size (t : ArgType) : t.field.size = t.size := by
  cases t <;> rfl

/-- `min(sizeof(T), 8)` is the native alignment of each type. -/
@[simp] theorem ArgType.field_align (t : ArgType) : t.field.align = t.alignment := by
  cases t with
  | scalar t => exact (Nat.min_eq_left t.size_le).symm
  | string => rfl

theorem structCode_sig (t : Scalar) : structCode (ArgType.scalar t).sig = some t := by
  cases t <;> rfl

theorem sig_toNat_pos (t : ArgType) : 0 < t.sig.toNat ∧ t.sig.toNat < 256 := by
  cases t with
  | scalar t => cases t <;> decide
  | string => decide

/-- The signature characters as bytes, first argument first. -/
def sigBytes (ts : List ArgType) : List UInt8 := ts.map fun t => UInt8.ofNat t.sig.toNat

/-- The packed `u64` is the little-endian number of the characters, cut to 64 bits. -/
theorem signatureHelper_toNat (ts : List ArgType) :
    (signatureHelper ts).toNat = ofListLE (sigBytes ts) % 2 ^ 64 := by
  induction ts with
  | nil => rfl
  | cons t ts ih =>
      obtain ⟨hpos, hlt⟩ := sig_toNat_pos t
      have hbyte : (UInt8.ofNat t.sig.toNat).toNat = t.sig.toNat := by
        rw [UInt8.toNat_ofNat']
        omega
      have hcons : sigBytes (t :: ts) = UInt8.ofNat t.sig.toNat :: sigBytes ts := rfl
      -- the shifted rest has its low byte clear, so the `|` is a sum
      have hshift : (ofListLE (sigBytes ts) % 2 ^ 64) <<< (8 % 64) % 2 ^ 64 =
          2 ^ 8 * (ofListLE (sigBytes ts) % 2 ^ 56) := by
        rw [Nat.shiftLeft_eq]
        simp only [Nat.reduceMod, Nat.reducePow]
        omega
      rw [signatureHelper, UInt64.toNat_or, UInt64.toNat_shiftLeft, ih, UInt64.toNat_ofNat',
        show (8 : UInt64).toNat = 8 from rfl, hshift, Nat.or_comm,
        ← Nat.two_pow_add_eq_or_of_lt (by omega), hcons, ofListLE_cons, hbyte]
      omega

/-- The `sig_to_string` loop reads back nonzero bytes, as many as its bound. -/
theorem sigChars_ofListLE {fuel : ℕ} {bs : List UInt8} (hlen : bs.length ≤ fuel)
    (hbs : ∀ b ∈ bs, b ≠ 0) : sigChars fuel (ofListLE bs) = bs.map fun b => Char.ofNat b.toNat := by
  induction bs generalizing fuel with
  | nil => cases fuel <;> rfl
  | cons b bs ih =>
      obtain ⟨f, rfl⟩ : ∃ f, fuel = f + 1 := ⟨fuel - 1, by simp at hlen; omega⟩
      have hb : b.toNat < 256 := b.toNat_lt
      have hb0 : b.toNat ≠ 0 := fun h => hbs b List.mem_cons_self (UInt8.toNat_inj.mp h)
      rw [sigChars, ofListLE_cons, if_neg (by omega), List.map_cons,
        show (b.toNat + 256 * ofListLE bs) % 256 = b.toNat by omega,
        show (b.toNat + 256 * ofListLE bs) / 256 = ofListLE bs by omega,
        ih (by simp at hlen; omega) fun b' hb' => hbs b' (List.mem_cons_of_mem b hb')]

/-- **What `sig_to_string` recovers.**  The first eight signature characters, whatever the
number of arguments. -/
theorem sigChars_signatureHelper (ts : List ArgType) :
    sigChars 8 (signatureHelper ts).toNat = (ts.take 8).map ArgType.sig := by
  have hbytes : ∀ b ∈ sigBytes (ts.take 8), b ≠ 0 := by
    intro b hb h0
    obtain ⟨t, -, rfl⟩ := List.mem_map.mp hb
    have := sig_toNat_pos t
    have := congrArg UInt8.toNat h0
    rw [UInt8.toNat_ofNat'] at this
    simp at this
    omega
  rw [signatureHelper_toNat, show (2 : ℕ) ^ 64 = 256 ^ 8 from rfl, ← ofListLE_take, sigBytes,
    ← List.map_take, ← sigBytes, sigChars_ofListLE (by simp only [sigBytes, List.length_map, List.length_take]; exact Nat.min_le_left _ _) hbytes, sigBytes,
    List.map_map]
  refine List.map_congr_left fun t _ => ?_
  have := sig_toNat_pos t
  simp only [Function.comp_apply, UInt8.toNat_ofNat']
  rw [Nat.mod_eq_of_lt (by omega), Char.ofNat_toNat]

/-- The characters `sig_to_string` gives an argument type: its code, `50p` for a string. -/
def ArgType.format : ArgType → List Char
  | scalar t => [(scalar t).sig]
  | string => ['5', '0', 'p']

theorem ArgType.replace_sig (t : ArgType) :
    (if t.sig = 'p' then ['5', '0', 'p'] else [t.sig]) = t.format := by
  cases t with
  | scalar t => cases t <;> rfl
  | string => rfl

theorem sigToString_signatureHelper {ts : List ArgType} (h : ts.length ≤ 8) :
    sigToString (signatureHelper ts) = ts.flatMap ArgType.format := by
  rw [sigToString, sigChars_signatureHelper, List.take_of_length_le h, List.flatMap_map]
  exact List.flatMap_congr fun t _ => t.replace_sig

theorem parseFormat_format (t : ArgType) (cs : List Char) :
    parseFormat none (t.format ++ cs) = (t.field :: ·) <$> parseFormat none cs := by
  cases t with
  | scalar t =>
      have hdigit : (ArgType.scalar t).sig.isDigit = false := by cases t <;> rfl
      have hp : (ArgType.scalar t).sig ≠ 'p' := by cases t <;> decide
      simp only [ArgType.format, List.singleton_append, parseFormat, hdigit, hp, structCode_sig,
        Bool.false_eq_true, if_false, Option.getD_none, List.replicate_one, List.singleton_append]
      rfl
  | string => rfl

/-- **The format has one field per argument.**  With at most eight arguments, `struct` parses
the signature's string into the fields of the argument types. -/
theorem parseFormat_sigToString {ts : List ArgType} (h : ts.length ≤ 8) :
    parseFormat none (sigToString (signatureHelper ts)) = some (ts.map ArgType.field) := by
  rw [sigToString_signatureHelper h]
  clear h
  induction ts with
  | nil => rfl
  | cons t ts ih => rw [List.flatMap_cons, parseFormat_format, ih, List.map_cons]; rfl


theorem serializerWrite_apply_of_lt {m : Mem} {buffer x : ℕ} :
    ∀ {offset : ℕ} {as : List Arg}, x < buffer + offset → serializerWrite m buffer offset as x = m x := by
  intro offset as
  induction as generalizing m offset with
  | nil => intro _; rfl
  | cons a as ih =>
      intro h
      have hup := le_alignUp (n := offset) a.type.alignment_pos
      rw [serializerWrite_cons, ih (by omega), write_apply_of_not_mem (Or.inl (by omega))]

/-- One argument read back: the decoder's field over what `serialize` stored. -/
theorem unpack_serialize (a : Arg) (m : Mem) (p : ℕ) :
    a.type.field.unpack (read (write m p a.serialize) p a.type.size) = a.value := by
  cases a with
  | scalar t v =>
      have hlen : t.size = (Arg.scalar t v).serialize.length := (length_toListLE _ _).symm
      have hv : v.toNat < 256 ^ t.size := by
        rw [show (256 : ℕ) = 2 ^ 8 from rfl, ← Nat.pow_mul]
        exact v.isLt
      simp only [Arg.type, ArgType.field, ArgType.size]
      rw [hlen, read_write_self]
      simp only [Arg.serialize, Field.unpack, Arg.value, ofListLE_toListLE, Nat.mod_eq_of_lt hv,
        BitVec.ofNat_toNat, BitVec.setWidth_eq]
  | string s =>
      set val := s.getD nullString
      set len := min (maxLen - 1) val.length with hlen
      have hser : (Arg.string s).serialize = UInt8.ofNat len :: val.take len := rfl
      have hlen49 : len ≤ 49 := Nat.min_le_left _ _
      have hbyte : (UInt8.ofNat len).toNat = len := by
        rw [UInt8.toNat_ofNat']
        omega
      have hsplit : read (write m p (Arg.string s).serialize) p (Arg.string s).type.size =
          (Arg.string s).serialize ++
            read (write m p (Arg.string s).serialize) (p + (len + 1)) (maxLen - (len + 1)) := by
        have htake : (val.take len).length = len := List.length_take_of_le (Nat.min_le_right _ _)
        rw [show (Arg.string s).type.size = (len + 1) + (maxLen - (len + 1)) by
          simp only [Arg.type, ArgType.size]; unfold maxLen; omega, read_add]
        congr 1
        rw [show len + 1 = (Arg.string s).serialize.length by rw [hser, List.length_cons, htake]]
        exact read_write_self _ _ _
      rw [hsplit, hser]
      simp only [Arg.type, ArgType.field, Field.unpack, Arg.value, List.cons_append,
        List.headD_cons, hbyte, List.drop_one, List.tail_cons]
      have htake : (val.take len).length = len := List.length_take_of_le (Nat.min_le_right _ _)
      rw [show maxLen - 1 = 49 from rfl, Nat.min_eq_left hlen49, List.take_left' htake]
      -- `len` is `min 49 (strlen val)`, so taking `len` or `49` characters is the same
      have hlen' : len = min 49 val.length := hlen
      rcases Nat.le_total val.length 49 with hshort | hlong
      · rw [List.take_of_length_le (by omega), List.take_of_length_le hshort]
      · rw [show len = 49 by omega]

/-- **The payload round trip.**  Unpacking the argument types' fields over what `serializer`
wrote from `buffer` gives the arguments' values back. -/
theorem unpackFrom_serializerWrite (buffer : ℕ) :
    ∀ (m : Mem) (offset : ℕ) (as : List Arg),
      unpackFrom (serializerWrite m buffer offset as) buffer offset (as.map fun a => a.type.field) =
        as.map Arg.value := by
  intro m offset as
  induction as generalizing m offset with
  | nil => rfl
  | cons a as ih =>
      rw [List.map_cons, unpackFrom_cons, ArgType.field_align, ArgType.field_size, serializerWrite_cons, ih,
        List.map_cons]
      congr 1
      -- the later arguments are stored after this one's bytes
      rw [@read_congr _ (write m (buffer + alignUp offset a.type.alignment) a.serialize) _
        (buffer + alignUp offset a.type.alignment) _ fun k hk => serializerWrite_apply_of_lt (by omega)]
      exact unpack_serialize a _ _

theorem Field.align_pos (f : Field) : 0 < f.align := by
  cases f with
  | scalar t => exact t.size_pos
  | pascal _ => exact Nat.one_pos

/-- The offset after the fields `fs` laid out from `off`. -/
def calcsizeFrom (off : ℕ) (fs : List Field) : ℕ := fs.foldl (fun off f => alignUp off f.align + f.size) off

theorem calcsize_eq (fs : List Field) : calcsize fs = calcsizeFrom 0 fs := rfl

theorem le_calcsizeFrom (off : ℕ) (fs : List Field) : off ≤ calcsizeFrom off fs := by
  induction fs generalizing off with
  | nil => exact Nat.le_refl _
  | cons f fs ih =>
      have := le_alignUp (n := off) f.align_pos
      show off ≤ calcsizeFrom (alignUp off f.align + f.size) fs
      exact Nat.le_trans (by omega) (ih _)

/-- `struct.unpack` sees only the bytes its fields cover. -/
theorem unpackFrom_congr {v w : Mem} {a b : ℕ} :
    ∀ {off : ℕ} {fs : List Field}, (∀ k < calcsizeFrom off fs, v (a + k) = w (b + k)) →
      unpackFrom v a off fs = unpackFrom w b off fs := by
  intro off fs
  induction fs generalizing off with
  | nil => intro _; rfl
  | cons f fs ih =>
      intro h
      have hrest := le_calcsizeFrom (alignUp off f.align + f.size) fs
      simp only [calcsizeFrom, List.foldl_cons] at h
      rw [unpackFrom_cons, unpackFrom_cons, ih fun k hk => h k hk]
      congr 2
      exact read_congr fun k hk => by
        simpa only [Nat.add_assoc] using h (alignUp off f.align + k) (by
          simp only [calcsizeFrom] at hrest; omega)

theorem calcsizeFrom_map_field (off : ℕ) (ts : List ArgType) :
    calcsizeFrom off (ts.map ArgType.field) = serializerSize off ts := by
  induction ts generalizing off with
  | nil => rfl
  | cons t ts ih =>
      rw [List.map_cons, calcsizeFrom, List.foldl_cons, ArgType.field_align, ArgType.field_size,
        ← calcsizeFrom, ih, serializerSize_cons]

/-- **`struct.calcsize` is the size `serializer` reserved.** -/
theorem calcsize_eq_serializerSize (ts : List ArgType) :
    calcsize (ts.map ArgType.field) = serializerSize 0 ts :=
  calcsizeFrom_map_field 0 ts

theorem le_serializerSize (off : ℕ) (ts : List ArgType) : off ≤ serializerSize off ts := by
  induction ts generalizing off with
  | nil => exact Nat.le_refl _
  | cons t ts ih =>
      have := le_alignUp (n := off) t.alignment_pos
      exact Nat.le_trans (by omega) (ih _)

/-- Each argument takes at most `7` bytes of padding and `50` of its own. -/
theorem serializerSize_le (off : ℕ) (ts : List ArgType) :
    serializerSize off ts ≤ off + 57 * ts.length := by
  induction ts generalizing off with
  | nil => exact Nat.le_add_right _ _
  | cons t ts ih =>
      have hal : alignUp off t.alignment ≤ off + 7 := by
        have h8 : t.alignment ≤ 8 := by
          cases t with
          | scalar t => exact Nat.min_le_right _ _
          | string => decide
        have := t.alignment_pos
        unfold alignUp alignDown
        have := Nat.div_mul_le_self (off + t.alignment - 1) t.alignment
        omega
      have hsize : t.size ≤ 50 := by
        cases t with
        | scalar t => exact Nat.le_trans t.size_le (by decide)
        | string => exact Nat.le_refl _
      rw [serializerSize_cons, List.length_cons]
      have := ih (alignUp off t.alignment + t.size)
      omega

theorem Arg.length_serialize_le (a : Arg) : a.serialize.length ≤ a.type.size := by
  cases a with
  | scalar t v => simp [serialize, type, ArgType.size]
  | string s =>
      simp only [serialize, type, ArgType.size, List.length_cons, List.length_take]
      unfold maxLen
      omega

/-- `serializer` stores nothing past the size it reserved. -/
theorem serializerWrite_apply_of_ge {m : Mem} {buffer x : ℕ} :
    ∀ {offset : ℕ} {as : List Arg}, buffer + serializerSize offset (as.map Arg.type) ≤ x →
      serializerWrite m buffer offset as x = m x := by
  intro offset as
  induction as generalizing m offset with
  | nil => intro _; rfl
  | cons a as ih =>
      intro h
      rw [List.map_cons, serializerSize_cons] at h
      have hrest := le_serializerSize (alignUp offset a.type.alignment + a.type.size) (as.map Arg.type)
      have hlen := a.length_serialize_le
      rw [serializerWrite_cons, ih h, write_apply_of_not_mem (Or.inr (by omega))]

end Osv.Core
