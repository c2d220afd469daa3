import HaloIndex.Proofs.Wire.Faults

namespace HaloIndex

variable {α β : Type}

/-- Cut short or continued, these bytes cannot be decoded. -/
structure Tight (read : List UInt8 → Except Fault α) (bytes : List UInt8) : Prop where
  cut : ∀ buffer, buffer <+: bytes → buffer ≠ bytes → ∃ detail,
    read buffer = .error (.undecodable detail)
  continued : ∀ buffer, bytes <+: buffer → buffer ≠ bytes →
    ∃ detail, read buffer = .error (.undecodable detail)

theorem Tight.bind {read : List UInt8 → Except Fault α} {bytes : List UInt8}
    (h : Tight read bytes) (f : α → Except Fault β) :
    Tight (fun buffer => read buffer >>= f) bytes := by
  constructor
  case cut =>
    intro buffer hcut hne
    obtain ⟨detail, hread⟩ := h.cut buffer hcut hne
    exact ⟨detail, by rw [hread]; rfl⟩
  case continued =>
    intro buffer hcontinued hne
    obtain ⟨detail, hread⟩ := h.continued buffer hcontinued hne
    exact ⟨detail, by rw [hread]; rfl⟩

def Cursor.followedBy (c : Cursor) (more : List UInt8) : Cursor :=
  { c with rest := c.rest ++ more }

namespace Unpack

/-- Unless a step runs short of bytes, it makes no difference to it what follows them. -/
def Stable (item : Unpack α) : Prop := ∀ (c : Cursor) (more : List UInt8),
  (∃ detail d, item c = (.error (.undecodable detail), d)) ∨
    ∃ result d, item c = (result, d) ∧ item (c.followedBy more) = (result, d.followedBy more)

theorem Stable.pure (a : α) : Stable (pure a) := fun c _ => .inr ⟨.ok a, c, rfl, rfl⟩

theorem Stable.throw (f : Fault) : Stable (throw f : Unpack α) :=
  fun c _ => .inr ⟨.error f, c, rfl, rfl⟩

theorem Stable.bind {item : Unpack α} {g : α → Unpack β} (h : item.Stable)
    (h' : ∀ a, (g a).Stable) :
    (item >>= g).Stable := by
  intro c more
  obtain ⟨detail, d, hshort⟩ | ⟨result, d, hitem, hlonger⟩ := h c more
  · exact .inl ⟨detail, d, bind_of_error hshort⟩
  · cases result with
    | error f => exact .inr ⟨.error f, d, bind_of_error hitem, bind_of_error hlonger⟩
    | ok a =>
      rw [bind_of_ok hitem, bind_of_ok hlonger]
      exact h' a d more

section Scalars

variable {registry : Registry} [Scalar α] {descriptor : Descriptor} {c : Cursor}

theorem scalar_of_le (h : registry.descriptor α = .ok descriptor)
    (hle : descriptor.width ≤ c.rest.length) :
    scalar registry α c =
    (.ok (Scalar.ofBytes (c.rest.take descriptor.width)), c.skip descriptor.width) := by
  simp only [scalar, h]
  exact if_pos hle

theorem scalar_of_short (h : registry.descriptor α = .ok descriptor)
    (hle : ¬descriptor.width ≤ c.rest.length) :
    ∃ detail, scalar registry α c = (.error (.undecodable detail), c) := by
  simp only [scalar, h]
  exact ⟨_, if_neg hle⟩

end Scalars

variable (registry : Registry)

theorem stable_scalar (α : Type) [Scalar α] : (scalar registry α).Stable := by
  intro c more
  cases hdescriptor : registry.descriptor α with
  | error f => refine .inr ⟨.error f, c, ?_, ?_⟩ <;> rw [scalar, hdescriptor]
  | ok descriptor =>
    by_cases hle : descriptor.width ≤ c.rest.length
    · have hle' : descriptor.width ≤ (c.followedBy more).rest.length :=
        Nat.le_trans hle (List.prefix_append c.rest more).length_le
      refine .inr ⟨_, _, scalar_of_le hdescriptor hle, (scalar_of_le hdescriptor hle').trans ?_⟩
      rw [Cursor.followedBy, List.take_append_of_le_length hle, Cursor.skip, Cursor.skip,
        Cursor.followedBy, List.drop_append_of_le_length hle]
    · obtain ⟨detail, hshort⟩ := scalar_of_short hdescriptor hle
      exact .inl ⟨detail, c, hshort⟩

theorem inherited_stable : Inherited registry @Stable :=
  ⟨.pure, fun _ => .throw _, .bind, stable_scalar registry⟩

theorem Reads.tight {item : Unpack α} {bytes : List UInt8} {a : α} (h : item.Reads bytes a)
    (hstable : item.Stable) : Tight (Unpack.whole item) bytes := by
  constructor
  case cut =>
    rintro buffer ⟨more, rfl⟩ hne
    obtain ⟨detail, d, hshort⟩ | ⟨result, d, -, hlonger⟩ := hstable (.start buffer) more
    · exact ⟨detail, congrArg Prod.fst (bind_of_error hshort)⟩
    · have hread := h 0 []
      rw [List.append_nil] at hread
      have hend : d.rest ++ more = [] := congrArg (fun e => e.2.rest) (hlonger.symm.trans hread)
      rw [(List.append_eq_nil_iff.mp hend).2, List.append_nil] at hne
      exact absurd rfl hne
  case continued =>
    rintro buffer ⟨more, rfl⟩ hne
    have hmore : ¬more.length = 0 := by
      intro hnil
      rw [List.length_eq_zero_iff.mp hnil, List.append_nil] at hne
      exact hne rfl
    have hfinish : finish ⟨0 + bytes.length, more⟩ = (.error (.undecodable _), _) := if_neg hmore
    have hwhole : (item >>= fun a => do finish; return a) ⟨0, bytes ++ more⟩ = _ :=
      (bind_of_ok (h 0 more)).trans (bind_of_error hfinish)
    exact ⟨_, congrArg Prod.fst hwhole⟩

end Unpack

end HaloIndex
