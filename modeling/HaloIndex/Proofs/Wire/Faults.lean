import HaloIndex.Proofs.Wire.Reading
import HaloIndex.Sync.Announcement

namespace HaloIndex

variable {α β : Type}

/-- A fault in the bytes of a message or in the types that it is made of. -/
inductive Fault.OnWire : Fault → Prop where
  | undecodable (detail : String) : OnWire (.undecodable detail)
  | unknownRole (code : UInt8) : OnWire (.unknownRole code)
  | unregistered (typeName : String) : OnWire (.unregistered typeName)

def FailsOnly (own : Fault → Prop) (x : Except Fault α) : Prop := ∀ f, x = .error f → own f

namespace FailsOnly

variable {own : Fault → Prop}

theorem ok (a : α) : FailsOnly own (.ok a) := nofun

theorem error {f : Fault} (h : own f) : FailsOnly own (.error f : Except Fault α) := by
  intro g hg
  cases hg
  exact h

theorem bind {x : Except Fault α} {g : α → Except Fault β} (h : FailsOnly own x)
    (h' : ∀ a, FailsOnly own (g a)) : FailsOnly own (x >>= g) := by
  cases x with
  | error f => exact .error (h f rfl)
  | ok a => exact h' a

end FailsOnly

abbrev FailsOnWire (x : Except Fault α) : Prop := FailsOnly Fault.OnWire x

namespace Registry

variable (r : Registry)

theorem failsOnWire_descriptor (α : Type) [Scalar α] : FailsOnWire (r.descriptor α) := by
  unfold descriptor
  split
  · exact .ok _
  · exact .error (.unregistered _)

theorem failsOnWire_packed [Scalar α] (a : α) : FailsOnWire (r.packed a) := by
  have hdescriptor := r.failsOnWire_descriptor α
  unfold packed
  split
  · exact .ok _
  next f hf => exact .error (hdescriptor f hf)

theorem failsOnWire_packedCount (n : Nat) : FailsOnWire (r.packedCount n) := by
  unfold packedCount
  split
  · exact r.failsOnWire_packed _
  · exact .error (.undecodable _)

omit r in
theorem failsOnWire_packedEach {pack : α → Except Fault (List UInt8)}
    (h : ∀ a, FailsOnWire (pack a)) (as : List α) : FailsOnWire (packedEach pack as) := by
  induction as with
  | nil => exact .ok []
  | cons a as ih => exact (h a).bind fun _ => ih.bind fun _ => .ok _

end Registry

namespace Unpack

/-- What holds of taking a scalar and is kept when steps follow one another. -/
structure Inherited (registry : Registry) (P : ∀ {α : Type}, Unpack α → Prop) : Prop where
  pure {α : Type} (a : α) : P (pure a : Unpack α)
  throw {α : Type} {f : Fault} (h : f.OnWire) : P (throw f : Unpack α)
  bind {α β : Type} {item : Unpack α} {g : α →
    Unpack β} (h : P item) (h' : ∀ a, P (g a)) : P (item >>= g)
  scalar (α : Type) [Scalar α] : P (scalar registry α)

namespace Inherited

variable {registry : Registry} {P : ∀ {α : Type}, Unpack α → Prop} (h : Inherited registry P)

include h

theorem times {item : Unpack α} (hitem : P item) (n : Nat) : P (times item n) := by
  induction n with
  | zero => exact h.pure []
  | succ n ih => exact h.bind hitem fun _ => h.bind ih fun _ => h.pure _

theorem count : P (count registry) := by
  apply h.bind (h.scalar Int32)
  intro n
  dsimp only
  split
  · exact h.throw (.undecodable _)
  · exact h.pure _

theorem role (A : Type) [Role A] : P (role registry A) := by
  apply h.bind (h.scalar UInt8)
  intro code
  split
  · exact h.pure _
  · exact h.throw (.unknownRole code)

end Inherited

/-- From any place in any bytes, a step fails only for what it finds there. -/
def FailsOnWire (item : Unpack α) : Prop := ∀ c, HaloIndex.FailsOnWire (item c).1

theorem FailsOnWire.pure (a : α) : FailsOnWire (pure a) := fun _ => .ok a

theorem FailsOnWire.throw {f : Fault} (h : f.OnWire) : FailsOnWire (throw f : Unpack α) :=
  fun _ => .error h

theorem bind_of_error {item : Unpack α} {g : α → Unpack β} {c d : Cursor} {f : Fault}
    (h : item c = (.error f, d)) : (item >>= g) c = (.error f, d) := by
  change (item >>= g).run.run c = _
  simp only [ExceptT.run_bind, StateT.run_bind]
  rw [show item.run.run c = (.error f, d) from h]
  rfl

theorem FailsOnWire.bind {item : Unpack α} {g : α → Unpack β} (h : item.FailsOnWire)
    (h' : ∀ a, (g a).FailsOnWire) : (item >>= g).FailsOnWire := by
  intro c
  have hfirst := h c
  cases hitem : item c with
  | mk result d =>
    rw [hitem] at hfirst
    cases result with
    | error f =>
      rw [bind_of_error hitem]
      exact .error (hfirst f rfl)
    | ok a =>
      rw [bind_of_ok hitem]
      exact h' a d

variable (registry : Registry)

theorem failsOnWire_scalar (α : Type) [Scalar α] : (scalar registry α).FailsOnWire := by
  intro c
  have hdescriptor := registry.failsOnWire_descriptor α
  unfold scalar
  split
  next f hf => exact .error (hdescriptor f hf)
  next =>
    simp only
    split
    · exact .ok _
    · exact .error (.undecodable _)

theorem inherited_failsOnWire : Inherited registry @FailsOnWire :=
  ⟨.pure, .throw, .bind, failsOnWire_scalar registry⟩

theorem failsOnWire_finish : finish.FailsOnWire := by
  intro c
  unfold finish
  simp only
  split
  · exact .ok ()
  · exact .error (.undecodable _)

theorem failsOnWire_whole {item : Unpack α} (h : item.FailsOnWire) (buffer : List UInt8) :
    HaloIndex.FailsOnWire (whole item buffer) :=
  (h.bind fun _ => failsOnWire_finish.bind fun _ => .pure _) (.start buffer)

end Unpack

namespace Announcement

variable {G A : Type} [Scalar G] (registry : Registry)

theorem failsOnWire_encodedLength (as : List (Announcement G A)) :
    FailsOnWire (encodedLength registry as) :=
  (registry.failsOnWire_descriptor Int32).bind fun _ =>
    (registry.failsOnWire_descriptor G).bind fun _ =>
      (registry.failsOnWire_descriptor UInt8).bind fun _ => .ok _

variable [Role A]

theorem failsOnWire_encodeKnower (knower : Nat × A) :
    FailsOnWire (encodeKnower registry knower) :=
  (registry.failsOnWire_packedCount _).bind fun _ =>
    (registry.failsOnWire_packed _).bind fun _ => .ok _

theorem failsOnWire_encodeOne (a : Announcement G A) : FailsOnWire (encodeOne registry a) :=
  (registry.failsOnWire_packed _).bind fun _ => (registry.failsOnWire_packed _).bind fun _ =>
    (registry.failsOnWire_packedCount _).bind fun _ =>
      (Registry.failsOnWire_packedEach (failsOnWire_encodeKnower registry) _).bind fun _ => .ok _

theorem failsOnWire_encode (as : List (Announcement G A)) : FailsOnWire (encode registry as) :=
  (failsOnWire_encodedLength registry as).bind fun _ =>
    (registry.failsOnWire_packedCount _).bind fun _ =>
      (Registry.failsOnWire_packedEach (failsOnWire_encodeOne registry) as).bind fun _ => .ok _

section Reading

variable {registry : Registry} {P : ∀ {α : Type}, Unpack α → Prop}
  (h : Unpack.Inherited registry P)

include h

theorem inherited_knower : P (unpackKnower registry : Unpack (Nat × A)) :=
  h.bind h.count fun _ => h.bind (h.role A) fun _ => h.pure _

theorem inherited_one : P (unpackOne registry : Unpack (Announcement G A)) :=
  h.bind (h.scalar G) fun _ => h.bind (h.role A) fun _ => h.bind h.count fun _ =>
    h.bind (h.times (inherited_knower h) _) fun _ => h.pure _

theorem inherited_message :
    P (Unpack.count registry >>= Unpack.times (unpackOne registry) : Unpack
      (List (Announcement G A))) :=
  h.bind h.count fun n => h.times (inherited_one h) n

end Reading

theorem failsOnWire_decode (buffer : List UInt8) :
    FailsOnWire (decode registry buffer : Except Fault (List (Announcement G A))) :=
  Unpack.failsOnWire_whole (inherited_message (Unpack.inherited_failsOnWire registry)) buffer

end Announcement

end HaloIndex
