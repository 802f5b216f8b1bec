import Mathlib.Data.Vector.Basic
import Mathlib.Data.List.Basic

/-! Fixed-size little-endian record layouts. A layout carries its own width and
round-trip law, so that products, representation changes and arrays of records
derive theirs. Reading is total: bytes beyond the end of the input read as zero. -/
namespace Ant.Library.ByteLayout

abbrev Bytes := List UInt8

def encodeNat : Nat → Nat → Bytes
  | 0,_ => []
  | width+1,value => UInt8.ofNat value :: encodeNat width (value / 256)

def decodeNat : Nat → Bytes → Nat
  | 0,_ => 0
  | width+1,bytes => (bytes.headD 0).toNat + 256 * decodeNat width bytes.tail

theorem encodeNat_length (width value : Nat) : (encodeNat width value).length = width := by
  induction width generalizing value with
  | zero => rfl
  | succ width ih => simp [encodeNat,ih]

theorem decodeNat_encodeNat (width value : Nat) (rest : Bytes) (bound : value < 256^width) :
    decodeNat width (encodeNat width value ++ rest) = value := by
  induction width generalizing value with
  | zero => simp only [Nat.pow_zero,Nat.lt_one_iff] at bound; simp [decodeNat,bound]
  | succ width ih =>
    have high : value / 256 < 256^width := by
      rw [Nat.div_lt_iff_lt_mul (by omega)]
      simpa only [Nat.pow_succ] using bound
    have low : (UInt8.ofNat value).toNat = value % 256 := by simp
    simp only [encodeNat,decodeNat,List.cons_append,List.headD_cons,List.tail_cons,ih _ high]
    omega

structure Layout (α : Type) where
  size : Nat
  encode : α → Bytes
  decode : Bytes → α
  encode_length : ∀ value, (encode value).length = size
  decode_encode : ∀ value rest, decode (encode value ++ rest) = value

namespace Layout

def u8 : Layout UInt8 where
  size := 1
  encode value := [value]
  decode bytes := bytes.headD 0
  encode_length _ := rfl
  decode_encode _ _ := rfl

def u32 : Layout UInt32 where
  size := 4
  encode value := encodeNat 4 value.toNat
  decode bytes := UInt32.ofNat (decodeNat 4 bytes)
  encode_length value := encodeNat_length 4 value.toNat
  decode_encode value rest := by
    rw [decodeNat_encodeNat 4 _ _ (by simpa using value.toNat_lt)]
    exact UInt32.ofNat_toNat

def u64 : Layout UInt64 where
  size := 8
  encode value := encodeNat 8 value.toNat
  decode bytes := UInt64.ofNat (decodeNat 8 bytes)
  encode_length value := encodeNat_length 8 value.toNat
  decode_encode value rest := by
    rw [decodeNat_encodeNat 8 _ _ (by simpa using value.toNat_lt)]
    exact UInt64.ofNat_toNat

def raw (count : Nat) : Layout (Vector UInt8 count) where
  size := count
  encode value := value.toList
  decode bytes := Vector.ofFn fun i => bytes.getD i 0
  encode_length value := by simp
  decode_encode value rest := by
    ext i bound
    simp [List.getElem?_append_left]

def pair {α β : Type} (first : Layout α) (second : Layout β) : Layout (α × β) where
  size := first.size + second.size
  encode value := first.encode value.1 ++ second.encode value.2
  decode bytes := (first.decode bytes,second.decode (bytes.drop first.size))
  encode_length value := by simp [first.encode_length,second.encode_length]
  decode_encode value rest := by
    have skip : (first.encode value.1 ++ (second.encode value.2 ++ rest)).drop first.size =
        second.encode value.2 ++ rest := by
      rw [← first.encode_length value.1]
      exact List.drop_left
    rw [List.append_assoc,skip,first.decode_encode,second.decode_encode]

def iso {α β : Type} (layout : Layout α) (pack : α → β) (unpack : β → α)
    (inverse : ∀ value, pack (unpack value) = value) : Layout β where
  size := layout.size
  encode value := layout.encode (unpack value)
  decode bytes := pack (layout.decode bytes)
  encode_length value := layout.encode_length (unpack value)
  decode_encode value rest := by rw [layout.decode_encode,inverse]

variable {α : Type} (layout : Layout α)

def encodeAll (values : List α) : Bytes := values.flatMap layout.encode

def decodeAll : Nat → Bytes → List α
  | 0,_ => []
  | count+1,bytes => layout.decode bytes :: decodeAll count (bytes.drop layout.size)

@[simp] theorem encodeAll_nil : layout.encodeAll [] = [] := rfl

theorem encodeAll_length (values : List α) : (layout.encodeAll values).length = values.length * layout.size := by
  induction values with
  | nil => simp
  | cons value values ih =>
    simp only [encodeAll,List.flatMap_cons,List.length_append,layout.encode_length,List.length_cons] at ih ⊢
    rw [ih,Nat.add_mul,Nat.one_mul,Nat.add_comm]

theorem decodeAll_length (count : Nat) (bytes : Bytes) : (layout.decodeAll count bytes).length = count := by
  induction count generalizing bytes with
  | zero => rfl
  | succ count ih => simp [decodeAll,ih]

theorem decodeAll_encodeAll {values : List α} {rest : Bytes} :
    layout.decodeAll values.length (layout.encodeAll values ++ rest) = values := by
  induction values with
  | nil => rfl
  | cons value values ih =>
    have skip : (layout.encode value ++ (layout.encodeAll values ++ rest)).drop layout.size =
        layout.encodeAll values ++ rest := by
      rw [← layout.encode_length value]
      exact List.drop_left
    change layout.decodeAll (values.length+1)
      ((layout.encode value ++ layout.encodeAll values) ++ rest) = value :: values
    rw [List.append_assoc]
    simp only [decodeAll,layout.decode_encode,skip,ih]

theorem decodeAll_at (values : List α) {before : Bytes} (rest : Bytes) {offset : Nat} (position : before.length = offset) :
    layout.decodeAll values.length ((before ++ (layout.encodeAll values ++ rest)).drop offset) = values := by
  rw [← position,List.drop_left]
  exact layout.decodeAll_encodeAll

end Layout

end Ant.Library.ByteLayout
