import Mathlib.Algebra.Group.Nat.Defs
import Mathlib.Data.List.Basic
import Mathlib.Data.List.Induction

/-!
# Big-endian words on the wire

`toBigEndian w n` writes the `w` low-order bytes of `n`, most significant first, as
the `Put` and `Append` functions of a big-endian byte order do; `fromBigEndian` reads
bytes back.  Conversions to a narrower word keep the low-order bytes, so the
encoder of a length is total and its truncation is visible.
-/

namespace GossipMesh.Foundation

abbrev Bytes := List UInt8

def toBigEndian : Nat → Nat → Bytes
  | 0, _ => []
  | w + 1, n => toBigEndian w (n / 256) ++ [UInt8.ofNat n]

def fromBigEndian (bytes : Bytes) : Nat :=
  bytes.foldl (fun acc b => acc * 256 + b.toNat) 0

@[simp] theorem toBigEndian_length (w n : Nat) : (toBigEndian w n).length = w := by
  induction w generalizing n with
  | zero => rfl
  | succ w ih => simp [toBigEndian, ih]

theorem fromBigEndian_snoc (bytes : Bytes) (b : UInt8) :
    fromBigEndian (bytes ++ [b]) = fromBigEndian bytes * 256 + b.toNat := by
  simp [fromBigEndian]

theorem fromBigEndian_toBigEndian (w n : Nat) : fromBigEndian (toBigEndian w n) = n % 256 ^ w := by
  induction w generalizing n with
  | zero => simp [toBigEndian, fromBigEndian, Nat.mod_one]
  | succ w ih =>
      rw [toBigEndian, fromBigEndian_snoc, ih, Nat.pow_succ, Nat.mul_comm (256 ^ w) 256,
        Nat.mod_mul]
      simp only [UInt8.toNat_ofNat']
      omega

theorem fromBigEndian_toBigEndian_of_lt {w n : Nat} (h : n < 256 ^ w) :
    fromBigEndian (toBigEndian w n) = n := by
  rw [fromBigEndian_toBigEndian, Nat.mod_eq_of_lt h]

theorem fromBigEndian_lt (bytes : Bytes) : fromBigEndian bytes < 256 ^ bytes.length := by
  induction bytes using List.reverseRecOn with
  | nil => simp [fromBigEndian]
  | append_singleton bytes b ih =>
      have hb := b.toNat_lt
      rw [fromBigEndian_snoc, List.length_append, List.length_singleton, Nat.pow_succ]
      omega

theorem toBigEndian_fromBigEndian (bytes : Bytes) :
    toBigEndian bytes.length (fromBigEndian bytes) = bytes := by
  induction bytes using List.reverseRecOn with
  | nil => rfl
  | append_singleton bytes b ih =>
      have hb := b.toNat_lt
      have hhigh : (fromBigEndian bytes * 256 + b.toNat) / 256 = fromBigEndian bytes := by
        omega
      have hlow : UInt8.ofNat (fromBigEndian bytes * 256 + b.toNat) = b := by
        apply UInt8.toNat_inj.mp
        rw [UInt8.toNat_ofNat']
        omega
      rw [fromBigEndian_snoc, List.length_append, List.length_singleton, toBigEndian, hhigh, hlow,
        ih]

/-! ## Fixed-width words -/

def putUint16 (v : UInt16) : Bytes := toBigEndian 2 v.toNat
def putUint32 (v : UInt32) : Bytes := toBigEndian 4 v.toNat
def putUint64 (v : UInt64) : Bytes := toBigEndian 8 v.toNat

def uint16 (bytes : Bytes) : UInt16 := UInt16.ofNat (fromBigEndian (bytes.take 2))
def uint32 (bytes : Bytes) : UInt32 := UInt32.ofNat (fromBigEndian (bytes.take 4))
def uint64 (bytes : Bytes) : UInt64 := UInt64.ofNat (fromBigEndian (bytes.take 8))

@[simp] theorem putUint16_length (v : UInt16) : (putUint16 v).length = 2 :=
  toBigEndian_length 2 _

@[simp] theorem putUint32_length (v : UInt32) : (putUint32 v).length = 4 :=
  toBigEndian_length 4 _

@[simp] theorem putUint64_length (v : UInt64) : (putUint64 v).length = 8 :=
  toBigEndian_length 8 _

@[simp] theorem uint16_append (v : UInt16) (rest : Bytes) :
    uint16 (putUint16 v ++ rest) = v := by
  have hlt : v.toNat < 256 ^ 2 := v.toNat_lt
  rw [uint16, List.take_left' (putUint16_length v), putUint16,
    fromBigEndian_toBigEndian_of_lt hlt, UInt16.ofNat_toNat]

@[simp] theorem uint32_append (v : UInt32) (rest : Bytes) :
    uint32 (putUint32 v ++ rest) = v := by
  have hlt : v.toNat < 256 ^ 4 := v.toNat_lt
  rw [uint32, List.take_left' (putUint32_length v), putUint32,
    fromBigEndian_toBigEndian_of_lt hlt, UInt32.ofNat_toNat]

@[simp] theorem uint64_append (v : UInt64) (rest : Bytes) :
    uint64 (putUint64 v ++ rest) = v := by
  have hlt : v.toNat < 256 ^ 8 := v.toNat_lt
  rw [uint64, List.take_left' (putUint64_length v), putUint64,
    fromBigEndian_toBigEndian_of_lt hlt, UInt64.ofNat_toNat]

theorem putUint16_uint16 {bytes : Bytes} (h : bytes.length = 2) :
    putUint16 (uint16 bytes) = bytes := by
  have hlt : fromBigEndian bytes < 2 ^ 16 := by
    have hbound := fromBigEndian_lt bytes
    rw [h] at hbound
    exact hbound
  rw [putUint16, uint16, List.take_of_length_le (Nat.le_of_eq h), UInt16.toNat_ofNat',
    Nat.mod_eq_of_lt hlt, ← h, toBigEndian_fromBigEndian]

theorem putUint32_uint32 {bytes : Bytes} (h : bytes.length = 4) :
    putUint32 (uint32 bytes) = bytes := by
  have hlt : fromBigEndian bytes < 2 ^ 32 := by
    have hbound := fromBigEndian_lt bytes
    rw [h] at hbound
    exact hbound
  rw [putUint32, uint32, List.take_of_length_le (Nat.le_of_eq h), UInt32.toNat_ofNat',
    Nat.mod_eq_of_lt hlt, ← h, toBigEndian_fromBigEndian]

theorem putUint64_uint64 {bytes : Bytes} (h : bytes.length = 8) :
    putUint64 (uint64 bytes) = bytes := by
  have hlt : fromBigEndian bytes < 2 ^ 64 := by
    have hbound := fromBigEndian_lt bytes
    rw [h] at hbound
    exact hbound
  rw [putUint64, uint64, List.take_of_length_le (Nat.le_of_eq h), UInt64.toNat_ofNat',
    Nat.mod_eq_of_lt hlt, ← h, toBigEndian_fromBigEndian]

/-! ## Writes that may fail -/

/--
A write that fails after `n` bytes (`some n`) or not at all: the bytes the
writer accepted, and whether it returned without an error.
-/
def write (fault : Option Nat) (data : Bytes) : Bytes × Bool :=
  match fault with
  | none => (data, true)
  | some n => (data.take n, false)

theorem write_initial (fault : Option Nat) (data : Bytes) : (write fault data).1 <+: data := by
  cases fault with
  | none => exact List.prefix_rfl
  | some n => exact List.take_prefix n data

theorem write_of_ok {fault : Option Nat} {data : Bytes} (h : (write fault data).2 = true) :
    (write fault data).1 = data := by
  cases fault with
  | none => rfl
  | some n => cases h

/-! ## Encodings of whole values -/

/-- An encoding, which may fail; what can be encoded is decoded unchanged. -/
structure Marshaller (α : Type) where
  marshal : α → Option Bytes
  unmarshal : Bytes → Option α
  lossless : ∀ value data, marshal value = some data → unmarshal data = some value

def Marshaller.ofList {α : Type} [DecidableEq α] (values : List α) (hfew : values.length ≤ 256) :
    Marshaller α where
  marshal value := (values.idxOf? value).map fun i => [UInt8.ofNat i]
  unmarshal data := data.head?.bind fun i => values[i.toNat]?
  lossless value data h := by
    obtain ⟨i, hi, rfl⟩ := Option.map_eq_some_iff.mp h
    obtain ⟨hlt, hvalue, -⟩ := List.idxOf?_eq_some_iff.mp hi
    have hbyte : (UInt8.ofNat i).toNat = i := by
      rw [UInt8.toNat_ofNat']
      omega
    simp [hbyte, hlt, hvalue]

end GossipMesh.Foundation
