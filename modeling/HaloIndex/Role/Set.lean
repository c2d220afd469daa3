import HaloIndex.Role

namespace HaloIndex

/-- A selection of roles: one bit for each code. -/
structure RoleSet (A : Type) where
  bits : Vector UInt64 4
  deriving DecidableEq

namespace RoleSet

variable {A : Type}

def empty : RoleSet A := ⟨.replicate 4 0⟩

def all : RoleSet A := ⟨.replicate 4 (~~~0)⟩

theorem toNat_shiftRight_six (code : UInt8) : (code >>> 6).toNat = code.toNat / 64 := by
  rw [UInt8.toNat_shiftRight, Nat.shiftRight_eq_div_pow]
  rfl

theorem shiftRight_six_lt (code : UInt8) : (code >>> 6).toNat < 4 := by
  have hcode : code.toNat < 256 := code.toNat_lt
  rw [toNat_shiftRight_six]
  omega

def place (code : UInt8) : Fin 4 := ⟨(code >>> 6).toNat, shiftRight_six_lt code⟩

def mask (code : UInt8) : UInt64 := 1 <<< (code &&& 63).toUInt64

def word (s : RoleSet A) (code : UInt8) : UInt64 := s.bits[place code]

def withWord (s : RoleSet A) (code : UInt8) (word : UInt64) : RoleSet A :=
  ⟨s.bits.set (place code) word⟩

def hasCode (s : RoleSet A) (code : UInt8) : Bool := s.word code &&& mask code != 0

def union (s t : RoleSet A) : RoleSet A := ⟨s.bits.zipWith (· ||| ·) t.bits⟩

def isEmpty (s : RoleSet A) : Bool := s.bits.all (· == 0)

def codes (s : RoleSet A) : List UInt8 :=
  ((List.range 256).map UInt8.ofNat).filter s.hasCode

def words (s : RoleSet A) : List Nat := s.bits.toList.map UInt64.toNat

def ofWords (words : List Nat) : RoleSet A := ⟨.ofFn fun i => .ofNat (words.getD i 0)⟩

section Bits

theorem place_eq_iff {c d : UInt8} : place c = place d ↔ c.toNat / 64 = d.toNat / 64 := by
  rw [← toNat_shiftRight_six, ← toNat_shiftRight_six]
  exact Fin.ext_iff

theorem word_withWord (s : RoleSet A) (c d : UInt8) (word : UInt64) :
    (s.withWord d word).word c = if place c = place d then word else s.word c := by
  simp only [RoleSet.word, withWord, Fin.getElem_fin, Vector.getElem_set, Fin.val_inj, eq_comm]

theorem word_congr (s : RoleSet A) {c d : UInt8} (h : place c = place d) :
    s.word c = s.word d := by
  simp only [word, h]

theorem toBitVec_mask (c : UInt8) : (mask c).toBitVec = BitVec.twoPow 64 (c.toNat % 64) := by
  have hoffset : (c.toNat &&& 63) = c.toNat % 64 := Nat.and_two_pow_sub_one_eq_mod _ 6
  rw [mask, BitVec.twoPow_eq, UInt64.toBitVec_shiftLeft]
  simp [hoffset]

/-- A code has its bit at its remainder in its word. -/
theorem hasCode_eq_getLsbD (s : RoleSet A) (c : UInt8) :
    s.hasCode c = (s.word c).toBitVec.getLsbD (c.toNat % 64) := by
  have hone : BitVec.twoPow 64 (c.toNat % 64) ≠ 0#64 := by
    intro hzero
    have hbit := congrArg (·.getLsbD (c.toNat % 64)) hzero
    simp [Nat.mod_lt] at hbit
  rw [hasCode, Bool.eq_iff_iff, bne_iff_ne, ne_eq, ← UInt64.toBitVec_inj, UInt64.toBitVec_and,
    toBitVec_mask, BitVec.and_twoPow]
  cases (s.word c).toBitVec.getLsbD (c.toNat % 64)
  · simp
  · simpa using hone

theorem getLsbD_mask {c d : UInt8} (h : place c = place d) :
    (mask d).toBitVec.getLsbD (c.toNat % 64) = decide (c = d) := by
  have hplace := place_eq_iff.mp h
  have hcode : c = d ↔ c.toNat % 64 = d.toNat % 64 := by
    rw [← UInt8.toNat_inj]
    omega
  simp [toBitVec_mask, hcode, Nat.mod_lt]

theorem hasCode_withWord (s : RoleSet A) (c d : UInt8) (word : UInt64) :
    (s.withWord d word).hasCode c =
      if place c = place d then word.toBitVec.getLsbD (c.toNat % 64) else s.hasCode c := by
  rw [hasCode_eq_getLsbD, word_withWord, hasCode_eq_getLsbD]
  split <;> rfl

theorem ext_hasCode {s t : RoleSet A} (h : ∀ c, s.hasCode c = t.hasCode c) : s = t := by
  obtain ⟨bits⟩ := s
  obtain ⟨bits'⟩ := t
  congr 1
  apply Vector.ext
  intro i hi
  apply UInt64.toBitVec_inj.mp
  apply BitVec.eq_of_getLsbD_eq
  intro j hj
  have hcode : (UInt8.ofNat (64 * i + j)).toNat = 64 * i + j := Nat.mod_eq_of_lt (by omega)
  have hbit := h (.ofNat (64 * i + j))
  have hplace : place (.ofNat (64 * i + j)) = ⟨i, hi⟩ := by
    apply Fin.ext
    change (UInt8.ofNat (64 * i + j) >>> 6).toNat = i
    rw [toNat_shiftRight_six, hcode]
    omega
  have hoffset : (64 * i + j) % 64 = j := by omega
  simpa only [hasCode_eq_getLsbD, word, hplace, hcode, hoffset, Fin.getElem_fin] using hbit

@[simp]
theorem hasCode_empty (c : UInt8) : (empty : RoleSet A).hasCode c = false := by
  simp [empty, hasCode, word]

@[simp]
theorem hasCode_all (c : UInt8) : (all : RoleSet A).hasCode c = true := by
  have hoffset : c.toNat % 64 < 64 := Nat.mod_lt _ (by decide)
  simp only [hasCode_eq_getLsbD, all, word, Fin.getElem_fin, Vector.getElem_replicate,
    UInt64.toBitVec_not, BitVec.getLsbD_not, decide_eq_true hoffset]
  simp

@[simp]
theorem hasCode_union (s t : RoleSet A) (c : UInt8) :
    (s.union t).hasCode c = (s.hasCode c || t.hasCode c) := by
  simp [hasCode_eq_getLsbD, union, word]

theorem isEmpty_iff {s : RoleSet A} : s.isEmpty = true ↔ s = empty := by
  obtain ⟨bits⟩ := s
  simp [isEmpty, empty, Vector.ext_iff]

end Bits

variable [Role A]

def insert (s : RoleSet A) (a : A) : RoleSet A :=
  let code := Role.code a
  s.withWord code (s.word code ||| mask code)

def erase (s : RoleSet A) (a : A) : RoleSet A :=
  let code := Role.code a
  s.withWord code (s.word code &&& ~~~mask code)

def contains (s : RoleSet A) (a : A) : Bool := s.hasCode (Role.code a)

def admits (s : RoleSet A) : RolePredicate A := s.contains

def ofList (roles : List A) : RoleSet A := roles.foldl insert empty

/-- The members in braces; a code that the role type does not define is written as a number. -/
def text (s : RoleSet A) : String :=
  let member (c : UInt8) : String := match (Role.ofCode? c : Option A) with
    | some a => Role.text a
    | none => toString c.toNat
  "\x7b" ++ ", ".intercalate (s.codes.map member) ++ "\x7d"

theorem hasCode_insert (s : RoleSet A) (a : A) (c : UInt8) :
    (s.insert a).hasCode c = (s.hasCode c || decide (c = Role.code a)) := by
  rw [insert, hasCode_withWord]
  split
  next h =>
    rw [UInt64.toBitVec_or, BitVec.getLsbD_or, getLsbD_mask h, hasCode_eq_getLsbD,
      s.word_congr h]
  next h =>
    have hne : c ≠ Role.code a := fun he => h (congrArg place he)
    rw [decide_eq_false hne, Bool.or_false]

theorem hasCode_erase (s : RoleSet A) (a : A) (c : UInt8) :
    (s.erase a).hasCode c = (s.hasCode c && !decide (c = Role.code a)) := by
  rw [erase, hasCode_withWord]
  split
  next h =>
    have hoffset : c.toNat % 64 < 64 := Nat.mod_lt _ (by decide)
    rw [UInt64.toBitVec_and, UInt64.toBitVec_not, BitVec.getLsbD_and, BitVec.getLsbD_not,
      getLsbD_mask h, decide_eq_true hoffset, Bool.true_and, hasCode_eq_getLsbD, s.word_congr h]
  next h =>
    have hne : c ≠ Role.code a := fun he => h (congrArg place he)
    rw [decide_eq_false hne, Bool.not_false, Bool.and_true]

end RoleSet

end HaloIndex
