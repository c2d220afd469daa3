import HaloIndex.Wire.Unpacker

namespace HaloIndex

variable {α β : Type}

def Registry.Knows (r : Registry) (α : Type) [Scalar α] : Prop :=
  r.descriptor α = .ok ⟨Scalar.name α, Scalar.width α⟩

/-- What is needed for messages about keys with identifiers of type `G`. -/
structure Registry.Speaks (r : Registry) (G : Type) [Scalar G] : Prop where
  globalId : r.Knows G
  role : r.Knows UInt8
  count : r.Knows Int32

structure Registry.SpeaksFully (r : Registry) (G : Type) [Scalar G] :
    Prop extends r.Speaks G where
  flag : r.Knows Bool

theorem Registry.Knows.packed {r : Registry} [Scalar α] (h : r.Knows α) (a : α) :
    r.packed a = .ok (Scalar.bytes a) := by
  rw [Registry.packed, h]

theorem Registry.eq_bytes_of_packed {r : Registry} [Scalar α] {a : α} {bytes : List UInt8}
    (h : r.packed a = .ok bytes) : bytes = Scalar.bytes a := by
  unfold packed at h
  split at h
  · exact (Except.ok.inj h).symm
  · cases h

theorem Registry.le_of_packedCount {r : Registry} {n : Nat} {bytes : List UInt8}
    (h : r.packedCount n = .ok bytes) : n ≤ maxCount := by
  unfold packedCount at h
  split at h
  · assumption
  · cases h

theorem Registry.eq_bytes_of_packedCount {r : Registry} {n : Nat} {bytes : List UInt8}
    (h : r.packedCount n = .ok bytes) : bytes = Scalar.bytes (Int32.ofNat n) := by
  have hn := r.le_of_packedCount h
  rw [packedCount, if_pos hn] at h
  exact r.eq_bytes_of_packed h

theorem ok_of_bind {x : Except Fault α} {f : α → Except Fault β} {b : β} (h : x >>= f = .ok b) :
    ∃ a, x = .ok a ∧ f a = .ok b := by
  cases x with
  | error => cases h
  | ok a => exact ⟨a, rfl, h⟩

theorem Registry.packedEach_cons {pack : α → Except Fault (List UInt8)} {a : α} {rest : List α}
    {bytes : List UInt8} (h : packedEach pack (a :: rest) = .ok bytes) :
    ∃ first others, pack a = .ok first ∧ packedEach pack rest = .ok others ∧
      bytes = first ++ others := by
  obtain ⟨first, hfirst, h⟩ := ok_of_bind h
  obtain ⟨others, hothers, h⟩ := ok_of_bind h
  cases h
  exact ⟨first, others, hfirst, hothers, rfl⟩

theorem Registry.packedEach_append {pack : α → Except Fault (List UInt8)} {as as' : List α}
    {bytes : List UInt8} (h : packedEach pack (as ++ as') = .ok bytes) :
    ∃ first others, packedEach pack as = .ok first ∧ packedEach pack as' = .ok others ∧
      bytes = first ++ others := by
  induction as generalizing bytes with
  | nil => exact ⟨[], bytes, rfl, h, rfl⟩
  | cons a as ih =>
    obtain ⟨first, others, hfirst, hothers, rfl⟩ := packedEach_cons h
    obtain ⟨more, last, hmore, hlast, rfl⟩ := ih hothers
    refine ⟨first ++ more, last, ?_, hlast, (List.append_assoc ..).symm⟩
    simp only [packedEach, hfirst, hmore]
    rfl

theorem Registry.packedEach_ok {pack : α → Except Fault (List UInt8)} {as : List α}
    (h : ∀ a ∈ as, ∃ bytes, pack a = .ok bytes) : ∃ bytes, packedEach pack as = .ok bytes := by
  induction as with
  | nil => exact ⟨[], rfl⟩
  | cons a as ih =>
    obtain ⟨first, hfirst⟩ := h a (List.mem_cons_self ..)
    obtain ⟨others, hothers⟩ := ih fun a ha => h a (List.mem_cons_of_mem _ ha)
    refine ⟨first ++ others, ?_⟩
    simp only [packedEach, hfirst, hothers]
    rfl

namespace Unpack

/-- From any place, a step takes exactly these bytes and ends with a value. -/
def Reads (item : Unpack α) (bytes : List UInt8) (a : α) : Prop :=
  ∀ position rest, item ⟨position, bytes ++ rest⟩ = (.ok a, ⟨position + bytes.length, rest⟩)

theorem Reads.pure (a : α) : Reads (pure a) [] a := fun _ _ => rfl

theorem bind_of_ok {item : Unpack α} {f : α → Unpack β} {c d : Cursor} {a : α}
    (h : item c = (.ok a, d)) : (item >>= f) c = f a d := by
  change (item >>= f).run.run c = _
  simp only [ExceptT.run_bind, StateT.run_bind]
  rw [show item.run.run c = (.ok a, d) from h]
  rfl

theorem Reads.bind {item : Unpack α} {f : α → Unpack β} {bytes more : List UInt8} {a : α} {b : β}
    (h : item.Reads bytes a) (h' : (f a).Reads more b) :
    (item >>= f).Reads (bytes ++ more) b := by
  intro position rest
  rw [List.append_assoc, bind_of_ok (h position _), h', List.length_append, Nat.add_assoc]

theorem Reads.map {item : Unpack α} {bytes : List UInt8} {a : α} (h : item.Reads bytes a)
    (f : α → β) : (item >>= fun a => Pure.pure (f a)).Reads bytes (f a) := by
  have hread := h.bind (f := fun a => Pure.pure (f a)) (.pure (f a))
  rwa [List.append_nil] at hread

theorem Reads.times {item : Unpack α} {pack : α → Except Fault (List UInt8)} {as : List α}
    {bytes : List UInt8} (h : ∀ a ∈ as, ∀ first, pack a = .ok first → item.Reads first a)
    (hpack : Registry.packedEach pack as = .ok bytes) :
    (times item as.length).Reads bytes as := by
  induction as generalizing bytes with
  | nil =>
    cases hpack
    exact .pure []
  | cons a as ih =>
    obtain ⟨first, others, hfirst, hothers, rfl⟩ := Registry.packedEach_cons hpack
    have hrest := ih (fun a ha => h a (List.mem_cons_of_mem _ ha)) hothers
    exact (h a (List.mem_cons_self ..) first hfirst).bind (hrest.map (a :: ·))

theorem Reads.whole {item : Unpack α} {bytes : List UInt8} {a : α} (h : item.Reads bytes a) :
    whole item bytes = .ok a := by
  have hall := h 0 []
  rw [List.append_nil] at hall
  have hread := bind_of_ok (f := fun a => do finish; return a) hall
  exact congrArg Prod.fst hread

variable {registry : Registry}

theorem reads_scalar [Scalar α] [LawfulScalar α] (h : registry.Knows α) (a : α) :
    (scalar registry α).Reads (Scalar.bytes a) a := by
  intro position rest
  have hlength := LawfulScalar.length_bytes a
  simp only [scalar, show registry.descriptor α = _ from h, Cursor.remaining, List.length_append,
    hlength, Nat.le_add_right, if_true, Cursor.skip]
  rw [← hlength, List.take_left, List.drop_left, LawfulScalar.ofBytes_bytes]

theorem reads_count (h : registry.Knows Int32) {r : Registry} {n : Nat} {bytes : List UInt8}
    (hpack : r.packedCount n = .ok bytes) : (count registry).Reads bytes n := by
  have hn : n < 2147483648 := Nat.lt_succ_of_le (r.le_of_packedCount hpack)
  have htoInt : (Int32.ofNat n).toInt = n := Int32.toInt_ofNat_of_lt hn
  have hsign : ¬Int32.ofNat n < 0 := by
    rw [Int32.lt_iff_toInt_lt, htoInt]
    exact Int.not_lt.mpr (Int.natCast_nonneg n)
  rw [r.eq_bytes_of_packedCount hpack, ← List.append_nil (Scalar.bytes _), count]
  apply (reads_scalar h (Int32.ofNat n)).bind
  simp only [if_neg hsign, htoInt, Int.toNat_natCast]
  exact .pure n

theorem reads_role {A : Type} [Role A] [LawfulRole A] (h : registry.Knows UInt8) (a : A) :
    (role registry A).Reads (Scalar.bytes (Role.code a)) a := by
  have hcode : Role.ofCode? (Role.code a) = some a :=
    (LawfulRole.ofCode?_eq_some_iff _ a).mpr rfl
  rw [← List.append_nil (Scalar.bytes _), role]
  apply (reads_scalar h (Role.code a)).bind
  simp only [hcode]
  exact .pure a

end Unpack

end HaloIndex
