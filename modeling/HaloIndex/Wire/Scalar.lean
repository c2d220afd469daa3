namespace HaloIndex

namespace LittleEndian

def bytes : (width n : Nat) → List UInt8
  | 0, _ => []
  | width + 1, n => UInt8.ofNat n :: bytes width (n / 256)

def value : List UInt8 → Nat
  | [] => 0
  | b :: rest => b.toNat + 256 * value rest

def capacity : (width : Nat) → Nat
  | 0 => 1
  | width + 1 => 256 * capacity width

@[simp]
theorem length_bytes (width n : Nat) : (bytes width n).length = width := by
  induction width generalizing n with
  | zero => rfl
  | succ width ih => simp [bytes, ih]

theorem value_lt {bs : List UInt8} {width : Nat} (h : bs.length = width) :
    value bs < capacity width := by
  subst h
  induction bs with
  | nil => simp [value, capacity]
  | cons b rest ih =>
    have hb := b.toNat_lt
    simp only [value, List.length_cons, capacity]
    omega

theorem value_bytes (width n : Nat) : value (bytes width n) = n % capacity width := by
  induction width generalizing n with
  | zero => simp [bytes, value, capacity, Nat.mod_one]
  | succ width ih =>
    simp only [bytes, value, ih, capacity, Nat.mod_mul]
    simp

theorem bytes_value {bs : List UInt8} {width : Nat} (h : bs.length = width) :
    bytes width (value bs) = bs := by
  subst h
  induction bs with
  | nil => rfl
  | cons b rest ih =>
    have hb := b.toNat_lt
    have hdiv : (b.toNat + 256 * value rest) / 256 = value rest := by omega
    have hlow : UInt8.ofNat (b.toNat + 256 * value rest) = b := by
      apply UInt8.toNat_inj.mp
      simp only [UInt8.toNat_ofNat']
      omega
    simp [bytes, value, hdiv, hlow, ih]

end LittleEndian

/-- A fixed-width value that can be packed into bytes. -/
class Scalar (α : Type) where
  name : String
  /-- Where the type is declared, which tells it apart from others of its name. -/
  path : String := name
  width : Nat
  /-- The packed form, `width` bytes long. -/
  bytes : α → List UInt8
  /-- The value of a packed form of `width` bytes. -/
  ofBytes : List UInt8 → α
  text : α → String

/-- Every value has a packed form of the right width and is read back from it. -/
class LawfulScalar (α : Type) [Scalar α] : Prop where
  length_bytes (a : α) : (Scalar.bytes a).length = Scalar.width α
  ofBytes_bytes (a : α) : Scalar.ofBytes (Scalar.bytes a) = a

/-- Every byte list of the right width is the packed form of the value it reads as. -/
class ExactScalar (α : Type) [Scalar α] : Prop extends LawfulScalar α where
  bytes_ofBytes (bs : List UInt8) (h : bs.length = Scalar.width α) :
    Scalar.bytes (Scalar.ofBytes bs : α) = bs

/-- A size or slot number; it travels in eight bytes under a name of its own. -/
structure Extent where
  value : UInt64
  deriving DecidableEq

instance : LT Extent := ⟨fun a b => a.value < b.value⟩

instance : DecidableLT Extent := fun a b => inferInstanceAs (Decidable (a.value < b.value))

/-- The number of a mesh cell: an identifier type of an application, ordered by its number. -/
structure CellId where
  value : UInt32
  deriving DecidableEq

instance : LT CellId := ⟨fun a b => a.value < b.value⟩

instance : DecidableLT CellId := fun a b => inferInstanceAs (Decidable (a.value < b.value))

open LittleEndian (value)

/-- One byte; every byte other than zero reads as true. -/
instance : Scalar Bool where
  name := "bool"
  width := 1
  bytes a := [if a then 1 else 0]
  ofBytes bs := value bs != 0
  text a := if a then "true" else "false"

instance : Scalar UInt8 where
  name := "u8"
  width := 1
  bytes a := LittleEndian.bytes 1 a.toNat
  ofBytes bs := UInt8.ofNat (value bs)
  text a := toString a.toNat

instance : Scalar UInt32 where
  name := "u32"
  width := 4
  bytes a := LittleEndian.bytes 4 a.toNat
  ofBytes bs := UInt32.ofNat (value bs)
  text a := toString a.toNat

instance : Scalar UInt64 where
  name := "u64"
  width := 8
  bytes a := LittleEndian.bytes 8 a.toNat
  ofBytes bs := UInt64.ofNat (value bs)
  text a := toString a.toNat

/-- A signed number travels as the unsigned number with the same bits. -/
instance : Scalar Int32 where
  name := "i32"
  width := 4
  bytes a := LittleEndian.bytes 4 a.toUInt32.toNat
  ofBytes bs := (UInt32.ofNat (value bs)).toInt32
  text a := toString a.toInt

instance : Scalar Int64 where
  name := "i64"
  width := 8
  bytes a := LittleEndian.bytes 8 a.toUInt64.toNat
  ofBytes bs := (UInt64.ofNat (value bs)).toInt64
  text a := toString a.toInt

instance : Scalar Extent where
  name := "usize"
  width := 8
  bytes a := LittleEndian.bytes 8 a.value.toNat
  ofBytes bs := ⟨UInt64.ofNat (value bs)⟩
  text a := toString a.value.toNat

instance : Scalar CellId where
  name := "CellId"
  width := 4
  bytes a := LittleEndian.bytes 4 a.value.toNat
  ofBytes bs := ⟨UInt32.ofNat (value bs)⟩
  text a := "CellId(" ++ toString a.value.toNat ++ ")"

section Laws

open LittleEndian

instance : LawfulScalar Bool where
  length_bytes _ := rfl
  ofBytes_bytes a := by cases a <;> rfl

instance : ExactScalar UInt8 where
  length_bytes _ := length_bytes _ _
  ofBytes_bytes a := by
    have hlt : a.toNat < capacity 1 := a.toNat_lt
    change UInt8.ofNat (value (bytes 1 a.toNat)) = a
    rw [value_bytes, Nat.mod_eq_of_lt hlt, UInt8.ofNat_toNat]
  bytes_ofBytes bs h := by
    have hlt : value bs < UInt8.size := value_lt h
    change bytes 1 (UInt8.ofNat (value bs)).toNat = bs
    rw [UInt8.toNat_ofNat_of_lt' hlt]
    exact bytes_value h

instance : ExactScalar UInt32 where
  length_bytes _ := length_bytes _ _
  ofBytes_bytes a := by
    have hlt : a.toNat < capacity 4 := a.toNat_lt
    change UInt32.ofNat (value (bytes 4 a.toNat)) = a
    rw [value_bytes, Nat.mod_eq_of_lt hlt, UInt32.ofNat_toNat]
  bytes_ofBytes bs h := by
    have hlt : value bs < UInt32.size := value_lt h
    change bytes 4 (UInt32.ofNat (value bs)).toNat = bs
    rw [UInt32.toNat_ofNat_of_lt' hlt]
    exact bytes_value h

instance : ExactScalar UInt64 where
  length_bytes _ := length_bytes _ _
  ofBytes_bytes a := by
    have hlt : a.toNat < capacity 8 := a.toNat_lt
    change UInt64.ofNat (value (bytes 8 a.toNat)) = a
    rw [value_bytes, Nat.mod_eq_of_lt hlt, UInt64.ofNat_toNat]
  bytes_ofBytes bs h := by
    have hlt : value bs < UInt64.size := value_lt h
    change bytes 8 (UInt64.ofNat (value bs)).toNat = bs
    rw [UInt64.toNat_ofNat_of_lt' hlt]
    exact bytes_value h

instance : ExactScalar Int32 where
  length_bytes _ := length_bytes _ _
  ofBytes_bytes a := by
    have h : UInt32.ofNat (value (bytes 4 a.toUInt32.toNat)) = a.toUInt32 :=
      LawfulScalar.ofBytes_bytes a.toUInt32
    change (UInt32.ofNat (value (bytes 4 a.toUInt32.toNat))).toInt32 = a
    rw [h, Int32.toInt32_toUInt32]
  bytes_ofBytes bs h := ExactScalar.bytes_ofBytes (α := UInt32) bs h

instance : ExactScalar Int64 where
  length_bytes _ := length_bytes _ _
  ofBytes_bytes a := by
    have h : UInt64.ofNat (value (bytes 8 a.toUInt64.toNat)) = a.toUInt64 :=
      LawfulScalar.ofBytes_bytes a.toUInt64
    change (UInt64.ofNat (value (bytes 8 a.toUInt64.toNat))).toInt64 = a
    rw [h, Int64.toInt64_toUInt64]
  bytes_ofBytes bs h := ExactScalar.bytes_ofBytes (α := UInt64) bs h

instance : ExactScalar Extent where
  length_bytes _ := length_bytes _ _
  ofBytes_bytes a := congrArg Extent.mk (LawfulScalar.ofBytes_bytes a.value)
  bytes_ofBytes bs h := ExactScalar.bytes_ofBytes (α := UInt64) bs h

instance : ExactScalar CellId where
  length_bytes _ := length_bytes _ _
  ofBytes_bytes a := congrArg CellId.mk (LawfulScalar.ofBytes_bytes a.value)
  bytes_ofBytes bs h := ExactScalar.bytes_ofBytes (α := UInt32) bs h

end Laws

end HaloIndex
