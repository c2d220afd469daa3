import HaloIndex.Proofs.Wire.Exact
import HaloIndex.Proofs.Wire.Types

namespace HaloIndex

/-- What a call is about: a value of some type, or a header count. -/
inductive Shape : Type 1 where
  | scalar (type : WireType)
  | count

namespace Shape

def type : Shape → WireType
  | scalar t => t
  | count => .int32

abbrev Content : Shape → Type
  | scalar t => t.carrier
  | count => Nat

def unpack (r : Registry) : (s : Shape) → Unpack s.Content
  | scalar t => Unpack.scalar r t.carrier
  | count => Unpack.count r

end Shape

structure Item : Type 1 where
  shape : Shape
  content : shape.Content

def Fault.oversizedCount (n : Nat) : Fault := .undecodable s!"count {n} does not fit in i32"

namespace Item

def pack (p : Packer) : Item → Except Fault Unit × Packer
  | ⟨.scalar _, a⟩ => p.pack a
  | ⟨.count, n⟩ => p.packCount n

def bytes : Item → List UInt8
  | ⟨.scalar _, a⟩ => Scalar.bytes a
  | ⟨.count, n⟩ => LittleEndian.bytes 4 n

/-- What packing is refused for: a count that is too large, and before all else. -/
def refusal? (types : List WireType) : Item → Option Fault
  | ⟨.scalar t, _⟩ => t.refusal? types
  | ⟨.count, n⟩ =>
    if n < 2147483648 then WireType.int32.refusal? types else some (.oversizedCount n)

def accepted (types : List WireType) (items : List Item) : List Item :=
  items.filter fun i => i.refusal? types = none

end Item

/-- The items that are accepted when they are packed in turn, and the packer in the end; a
refusal does not keep the next item from being packed. -/
def Packer.packAll (p : Packer) : List Item → List Item × Packer
  | [] => ([], p)
  | i :: rest =>
    match i.pack p with
    | (.error _, q) => q.packAll rest
    | (.ok _, q) =>
      let (accepted, last) := q.packAll rest
      (i :: accepted, last)

/-- A call of unpacking: where it was made, what came of it and where it ended. -/
structure Cursor.Move : Type 1 where
  shape : Shape
  before : Cursor
  outcome : Except Fault shape.Content
  after : Cursor

def Cursor.Move.reply (move : Cursor.Move) : (s : Shape) × Except Fault s.Content :=
  ⟨move.shape, move.outcome⟩

def Item.reply (i : Item) : (s : Shape) × Except Fault s.Content := ⟨i.shape, .ok i.content⟩

def Cursor.moves (c : Cursor) (r : Registry) : List Shape → List Cursor.Move × Cursor
  | [] => ([], c)
  | s :: rest =>
    let (outcome, d) := s.unpack r c
    let (later, last) := d.moves r rest
    (⟨s, c, outcome, d⟩ :: later, last)

variable {types : List WireType}

theorem int32_bytes {n : Nat} (h : n < 2147483648) :
    Scalar.bytes (Int32.ofNat n) = LittleEndian.bytes 4 n := by
  have hn : (Int32.ofNat n).toUInt32.toNat = n :=
    UInt32.toNat_ofNat_of_lt' (Nat.lt_trans h (by decide))
  exact congrArg (LittleEndian.bytes 4) hn

theorem int32_neg_iff {m : Nat} (h : m < 4294967296) : Int32.ofNat m < 0 ↔ 2147483648 ≤ m := by
  rw [Int32.lt_iff_toInt_lt, Int32.toInt_ofNat', Int.bmod_def, Int32.size, Int32.toInt_zero]
  split <;> omega

section Packing

theorem Registry.packedCount_ofTypes (h : WireType.int32.OwnsPath types) (n : Nat) :
    (ofTypes types).packedCount n =
      (Item.refusal? types ⟨.count, n⟩).elim (.ok (LittleEndian.bytes 4 n)) .error := by
  unfold packedCount Item.refusal? maxCount
  by_cases hn : n < 2147483648
  · have hpacked : (ofTypes types).packed (Int32.ofNat n) = _ := packed_ofTypes h (Int32.ofNat n)
    simp only [if_pos hn, if_pos (Nat.le_of_lt_succ hn), hpacked]
    exact congrArg (fun bytes => Option.elim _ (Except.ok bytes) _) (int32_bytes hn)
  · simp only [if_neg hn, if_neg fun hle => hn (Nat.lt_succ_of_le hle)]
    rfl

def Item.packed (r : Registry) : Item → Except Fault (List UInt8)
  | ⟨.scalar _, a⟩ => r.packed a
  | ⟨.count, n⟩ => r.packedCount n

theorem Item.pack_eq (p : Packer) (i : Item) : i.pack p = p.append (i.packed p.registry) := by
  obtain ⟨s, a⟩ := i
  cases s <;> rfl

theorem Item.packed_ofTypes {i : Item} (h : i.shape.type.OwnsPath types) :
    i.packed (.ofTypes types) = (i.refusal? types).elim (.ok i.bytes) .error := by
  match i with
  | ⟨.scalar _, a⟩ => exact Registry.packed_ofTypes h a
  | ⟨.count, n⟩ => exact Registry.packedCount_ofTypes h n

theorem Item.pack_ofTypes {i : Item} (h : i.shape.type.OwnsPath types) (bytes : List UInt8) :
    i.pack ⟨.ofTypes types, bytes⟩ =
      match i.refusal? types with
      | some f => (.error f, ⟨.ofTypes types, bytes⟩)
      | none => (.ok (), ⟨.ofTypes types, bytes ++ i.bytes⟩) := by
  rw [pack_eq, packed_ofTypes h]
  cases i.refusal? types <;> rfl

theorem Packer.packAll_ofTypes {items : List Item} (h : ∀ i ∈ items, i.shape.type.OwnsPath types)
    (bytes : List UInt8) :
    (Packer.mk (.ofTypes types) bytes).packAll items =
      (Item.accepted types items, ⟨.ofTypes types,
        bytes ++ (Item.accepted types items).flatMap Item.bytes⟩) := by
  induction items generalizing bytes with
  | nil =>
    rw [Item.accepted, List.filter_nil, List.flatMap_nil, List.append_nil]
    rfl
  | cons i rest ih =>
    obtain ⟨hi, hrest⟩ := List.forall_mem_cons.mp h
    have hstep := Item.pack_ofTypes hi bytes
    cases hrefusal : i.refusal? types with
    | some f =>
      rw [hrefusal] at hstep
      rw [packAll, hstep, Item.accepted, List.filter_cons_of_neg (by simp [hrefusal])]
      exact ih hrest bytes
    | none =>
      rw [hrefusal] at hstep
      rw [packAll, hstep, Item.accepted, List.filter_cons_of_pos (by simp [hrefusal])]
      simp only [ih hrest, Item.accepted, List.flatMap_cons, List.append_assoc]

end Packing

section Reading

theorem Item.isAmong_of_accepted {i : Item} (h : i.refusal? types = none) :
    i.shape.type.IsAmong types := by
  match i with
  | ⟨.scalar _, _⟩ => exact WireType.refusal?_eq_none.mp h
  | ⟨.count, n⟩ =>
    by_cases hn : n < 2147483648
    · exact WireType.refusal?_eq_none.mp ((if_pos hn).symm.trans h)
    · exact nomatch (if_neg hn).symm.trans h

theorem Item.reads {i : Item} (h : i.shape.type.OwnsPath types) (hi : i.refusal? types = none) :
    (i.shape.unpack (.ofTypes types)).Reads i.bytes i.content := by
  have hknows := Registry.knows_ofTypes h (isAmong_of_accepted hi)
  have hpacked : i.packed (.ofTypes types) = .ok i.bytes := by
    rw [packed_ofTypes h, hi, Option.elim_none]
  match i with
  | ⟨.scalar t, a⟩ => exact Unpack.reads_scalar hknows a
  | ⟨.count, n⟩ => exact Unpack.reads_count hknows hpacked

/-- From what several items were packed as, one after the other, they are read back in this
order. -/
theorem Cursor.moves_of_accepted {items : List Item}
    (h : ∀ i ∈ items, i.shape.type.OwnsPath types)
    (haccepted : ∀ i ∈ items, i.refusal? types = none) (position : Nat) (rest : List UInt8) :
    ∃ made, (Cursor.mk position (items.flatMap Item.bytes ++ rest)).moves (.ofTypes types)
      (items.map Item.shape) =
        (made, ⟨position + (items.flatMap Item.bytes).length, rest⟩) ∧
      made.map Cursor.Move.reply = items.map Item.reply := by
  induction items generalizing position with
  | nil => exact ⟨[], rfl, rfl⟩
  | cons i items ih =>
    obtain ⟨hi, hitems⟩ := List.forall_mem_cons.mp h
    obtain ⟨hfirst, hothers⟩ := List.forall_mem_cons.mp haccepted
    obtain ⟨later, hlater, hreplies⟩ := ih hitems hothers (position + i.bytes.length)
    have hread := Item.reads hi hfirst position (items.flatMap Item.bytes ++ rest)
    rw [List.flatMap_cons, List.append_assoc, List.map_cons, moves, hread]
    simp only [hlater]
    refine ⟨_, Prod.ext rfl ?_, ?_⟩
    · rw [List.length_append, Nat.add_assoc]
    · rw [List.map_cons, List.map_cons, hreplies]
      rfl

end Reading

def Fault.tooShort (d : Descriptor) (c : Cursor) : Fault :=
  let width := d.width
  let name := d.name
  let position := c.position
  let remaining := c.remaining
  .undecodable
    s!"buffer too short: need {width} bytes for {name} at offset {position}, have {remaining}"

/-- All that can become of a call: what it ends with, and how far it gets. -/
inductive Cursor.Move.Explained (types : List WireType) : Cursor.Move → Prop where
  | unregistered {s : Shape} {c : Cursor} (h : ¬s.type.IsAmong types) :
    Explained types ⟨s, c, .error (.unregistered s.type.descriptor.name), c⟩
  | tooShort {s : Shape} {c : Cursor} (h : s.type.IsAmong types)
    (hshort : c.remaining < s.type.descriptor.width) :
    Explained types ⟨s, c, .error (.tooShort s.type.descriptor c), c⟩
  | scalar {t : WireType} {c : Cursor} (h : t.IsAmong types)
    (hle : t.descriptor.width ≤ c.remaining) :
    Explained types
      ⟨.scalar t, c, .ok (Scalar.ofBytes (c.rest.take t.descriptor.width)),
        c.skip t.descriptor.width⟩
  | count {c : Cursor} (h : WireType.int32.IsAmong types) (hle : 4 ≤ c.remaining)
    (hsign : LittleEndian.value (c.rest.take 4) < 2147483648) :
    Explained types ⟨.count, c, .ok (LittleEndian.value (c.rest.take 4)), c.skip 4⟩
  | negative {c : Cursor} (h : WireType.int32.IsAmong types) (hle : 4 ≤ c.remaining)
    (hsign : 2147483648 ≤ LittleEndian.value (c.rest.take 4)) :
    Explained types ⟨.count, c,
      .error (.negativeCount (Scalar.ofBytes (c.rest.take 4))), c.skip 4⟩

section Scalars

variable {t : WireType} {c : Cursor}

theorem Unpack.scalar_unregistered (h : ¬t.IsAmong types) :
    Unpack.scalar (.ofTypes types) t.carrier c =
    (.error (.unregistered t.descriptor.name), c) := by
  rw [scalar, Registry.descriptor_ofTypes h]

theorem Unpack.scalar_tooShort (h : (Registry.ofTypes types).Knows t.carrier)
    (hshort : c.remaining < t.descriptor.width) :
    Unpack.scalar (.ofTypes types) t.carrier c = (.error (.tooShort t.descriptor c), c) := by
  simp only [scalar, show Registry.descriptor _ _ = _ from h]
  exact if_neg (Nat.not_le_of_lt hshort)

end Scalars

theorem Unpack.count_of_le {r : Registry} (h : r.Knows Int32) {c : Cursor}
    (hle : 4 ≤ c.remaining) :
    Unpack.count r c =
      if LittleEndian.value (c.rest.take 4) < 2147483648 then
      (.ok (LittleEndian.value (c.rest.take 4)), c.skip 4)
      else (.error (.negativeCount (Scalar.ofBytes (c.rest.take 4))), c.skip 4) := by
  have hscalar : scalar r Int32 c = (.ok (Scalar.ofBytes (c.rest.take 4)), c.skip 4) :=
    scalar_of_le h hle
  have hvalue : LittleEndian.value (c.rest.take 4) < 4294967296 :=
    LittleEndian.value_lt (List.length_take_of_le hle)
  rw [count, bind_of_ok hscalar]
  by_cases hsign : LittleEndian.value (c.rest.take 4) < 2147483648
  · have hn : ¬(Scalar.ofBytes (c.rest.take 4) : Int32) < 0 :=
      mt (int32_neg_iff hvalue).mp (Nat.not_le_of_lt hsign)
    have htoInt : (Scalar.ofBytes (c.rest.take 4) : Int32).toInt =
        LittleEndian.value (c.rest.take 4) :=
      Int32.toInt_ofNat_of_lt hsign
    simp only [if_pos hsign, if_neg hn]
    rw [htoInt]
    rfl
  · have hn : (Scalar.ofBytes (c.rest.take 4) : Int32) < 0 :=
      (int32_neg_iff hvalue).mpr (Nat.le_of_not_lt hsign)
    simp only [if_neg hsign, if_pos hn]
    rfl

theorem Shape.unpack_of_error {r : Registry} {s : Shape} {c d : Cursor} {f : Fault}
    (h : Unpack.scalar r s.type.carrier c = (.error f, d)) : s.unpack r c = (.error f, d) := by
  cases s with
  | scalar t => exact h
  | count => exact Unpack.bind_of_error h

theorem Shape.explained_unpack {s : Shape} (h : s.type.OwnsPath types) {c d : Cursor}
    {outcome : Except Fault s.Content} (hcall : s.unpack (.ofTypes types) c = (outcome, d)) :
    Cursor.Move.Explained types ⟨s, c, outcome, d⟩ := by
  by_cases htype : s.type.IsAmong types
  case neg =>
    cases hcall.symm.trans (unpack_of_error (Unpack.scalar_unregistered htype))
    exact .unregistered htype
  have hknows := Registry.knows_ofTypes h htype
  by_cases hle : s.type.descriptor.width ≤ c.remaining
  case neg =>
    have hshort := Nat.lt_of_not_le hle
    cases hcall.symm.trans (unpack_of_error (Unpack.scalar_tooShort hknows hshort))
    exact .tooShort htype hshort
  cases s with
  | scalar t =>
    cases hcall.symm.trans (Unpack.scalar_of_le hknows hle)
    exact .scalar htype hle
  | count =>
    have hread := Unpack.count_of_le hknows hle
    by_cases hsign : LittleEndian.value (c.rest.take 4) < 2147483648
    · cases hcall.symm.trans (hread.trans (if_pos hsign))
      exact .count htype hle hsign
    · cases hcall.symm.trans (hread.trans (if_neg hsign))
      exact .negative htype hle (Nat.le_of_not_lt hsign)

/-- A place in these bytes: what is left there are the bytes from its position on. -/
structure Cursor.Within (buffer : List UInt8) (c : Cursor) : Prop where
  position_le : c.position ≤ buffer.length
  rest_eq : c.rest = buffer.drop c.position

theorem Cursor.within_start (buffer : List UInt8) : (start buffer).Within buffer :=
  ⟨Nat.zero_le _, rfl⟩

theorem Cursor.Within.remaining_eq {buffer : List UInt8} {c : Cursor} (h : c.Within buffer) :
    c.remaining = buffer.length - c.position := by
  rw [remaining, h.rest_eq, List.length_drop]

theorem Cursor.Within.skip {buffer : List UInt8} {c : Cursor} (h : c.Within buffer) {n : Nat}
    (hle : n ≤ c.remaining) : (c.skip n).Within buffer := by
  have hremaining := h.remaining_eq
  have hposition := h.position_le
  constructor
  case position_le =>
    simp only [Cursor.skip]
    omega
  case rest_eq => rw [Cursor.skip, h.rest_eq, List.drop_drop]

theorem Cursor.Within.finish_iff {buffer : List UInt8} {c : Cursor} (h : c.Within buffer) :
    (Unpack.finish c).1 = .ok () ↔ c.position = buffer.length := by
  have hremaining := h.remaining_eq
  have hposition := h.position_le
  by_cases hend : c.remaining = 0
  · exact iff_of_true (congrArg Prod.fst (if_pos hend)) (by omega)
  · have hfault : Unpack.finish c = (.error _, c) := if_neg hend
    rw [hfault]
    exact iff_of_false nofun (by omega)

theorem Cursor.Move.Explained.forward {move : Cursor.Move} (h : move.Explained types) :
    move.before.position ≤ move.after.position := by
  cases h with
  | unregistered | tooShort => exact Nat.le_refl _
  | scalar | count | negative => exact Nat.le_add_right ..

theorem Cursor.Move.Explained.within {move : Cursor.Move} (h : move.Explained types)
    {buffer : List UInt8} (hbefore : move.before.Within buffer) : move.after.Within buffer := by
  cases h with
  | unregistered | tooShort => exact hbefore
  | scalar _ hle | count _ hle _ | negative _ hle _ => exact hbefore.skip hle

/-- What holds of calls made one after the other, whatever the bytes are and however the calls
end. -/
structure Cursor.StaysWithin (types : List WireType) (buffer : List UInt8) (c : Cursor)
    (shapes : List Shape) :
    Prop where
  complete : (c.moves (.ofTypes types) shapes).1.map Cursor.Move.shape = shapes
  /-- Each call is made where the one before it ended. -/
  linked : (c.moves (.ofTypes types) shapes).1.map Cursor.Move.before ++
    [(c.moves (.ofTypes types) shapes).2] =
    c :: (c.moves (.ofTypes types) shapes).1.map Cursor.Move.after
  explained : ∀ move ∈ (c.moves (.ofTypes types) shapes).1, move.Explained types
  within : ∀ move ∈ (c.moves (.ofTypes types) shapes).1, move.after.Within buffer
  forward : (c.position :: (c.moves (.ofTypes types) shapes).1.map (·.after.position)).Pairwise
    (· ≤ ·)
  finish : (Unpack.finish (c.moves (.ofTypes types) shapes).2).1 = .ok () ↔
    (c.moves (.ofTypes types) shapes).2.position = buffer.length

theorem Cursor.staysWithin {shapes : List Shape} (h : ∀ s ∈ shapes, s.type.OwnsPath types)
    {buffer : List UInt8} {c : Cursor} (hc : c.Within buffer) :
    StaysWithin types buffer c shapes := by
  induction shapes generalizing c with
  | nil => exact ⟨rfl, rfl, nofun, nofun, List.pairwise_singleton .., hc.finish_iff⟩
  | cons s rest ih =>
    obtain ⟨hs, hrest⟩ := List.forall_mem_cons.mp h
    have hcall : Cursor.Move.Explained types ⟨s, c, _, _⟩ := Shape.explained_unpack hs rfl
    have hafter := hcall.within hc
    have hlater := ih hrest hafter
    constructor
    case complete => exact congrArg (s :: ·) hlater.complete
    case linked => exact congrArg (c :: ·) hlater.linked
    case explained => exact List.forall_mem_cons.mpr ⟨hcall, hlater.explained⟩
    case within => exact List.forall_mem_cons.mpr ⟨hafter, hlater.within⟩
    case forward =>
      have hreach := (List.pairwise_cons.mp hlater.forward).1
      refine List.pairwise_cons.mpr
        ⟨List.forall_mem_cons.mpr ⟨hcall.forward, ?_⟩, hlater.forward⟩
      exact fun position hposition => Nat.le_trans hcall.forward (hreach position hposition)
    case finish => exact hlater.finish

/-- What holds of packing these items one after the other and reading what has been packed: a
refused item changes nothing, and the accepted ones are what is read back, up to the last
byte. -/
structure Packer.Restores (types : List WireType) (items accepted : List Item)
    (buffer : List UInt8) : Prop where
  pack : ∀ i ∈ items, ∀ bytes, i.pack ⟨.ofTypes types, bytes⟩ =
    match i.refusal? types with
    | some f => (.error f, ⟨.ofTypes types, bytes⟩)
    | none => (.ok (), ⟨.ofTypes types, bytes ++ i.bytes⟩)
  packAll : (⟨.ofTypes types, []⟩ : Packer).packAll items = (accepted, ⟨.ofTypes types, buffer⟩)
  replies : ((Cursor.start buffer).moves (.ofTypes types)
    (accepted.map Item.shape)).1.map Cursor.Move.reply =
    accepted.map Item.reply
  last : ((Cursor.start buffer).moves (.ofTypes types) (accepted.map Item.shape)).2 =
    ⟨buffer.length, []⟩
  finish : (Unpack.finish
    ((Cursor.start buffer).moves (.ofTypes types) (accepted.map Item.shape)).2).1 = .ok ()

theorem Packer.restores {items : List Item} (h : ∀ i ∈ items, i.shape.type.OwnsPath types) :
    Restores types items (Item.accepted types items)
      ((Item.accepted types items).flatMap Item.bytes) := by
  have haccepted : ∀ i ∈ Item.accepted types items,
      i ∈ items ∧ i.refusal? types = none := fun i hi =>
    (List.mem_filter.mp hi).imp_right of_decide_eq_true
  obtain ⟨made, hcalls, hreplies⟩ :=
    Cursor.moves_of_accepted (fun i hi => h i (haccepted i hi).1)
    (fun i hi => (haccepted i hi).2) 0 []
  rw [List.append_nil, Nat.zero_add] at hcalls
  constructor
  case pack => exact fun i hi => Item.pack_ofTypes (h i hi)
  case packAll => exact packAll_ofTypes h []
  case replies => rw [Cursor.start, hcalls, hreplies]
  case last => rw [Cursor.start, hcalls]
  case finish =>
    rw [Cursor.start, hcalls]
    rfl

/-- Packing and unpacking undo each other, and neither a failure nor bad bytes take them anywhere
else. -/
theorem Registry.sequences_exact {types : List WireType} {items : List Item}
    {shapes : List Shape} (h : ∀ s ∈ items.map Item.shape ++ shapes, s.type.OwnsPath types)
    (buffer : List UInt8) :
    Packer.Restores types items (Item.accepted types items)
      ((Item.accepted types items).flatMap Item.bytes) ∧
      Cursor.StaysWithin types buffer (.start buffer) shapes := by
  obtain ⟨hitems, hshapes⟩ := List.forall_mem_append.mp h
  exact ⟨Packer.restores (List.forall_mem_map.mp hitems),
    Cursor.staysWithin hshapes (Cursor.within_start buffer)⟩

/-- One type is not registered, one count is too large, and the bytes to be read hold a negative
one. -/
theorem Registry.sequences_exact_mixed :
    let types : List WireType := [⟨Bool⟩, .int32, ⟨UInt64⟩]
    let flag : Item := ⟨.scalar ⟨Bool⟩, true⟩
    let cell : Item := ⟨.scalar ⟨CellId⟩, (⟨7⟩ : CellId)⟩
    let wide : Item := ⟨.scalar ⟨UInt64⟩, (9 : UInt64)⟩
    let items := [flag, cell, ⟨.count, (3 : Nat)⟩, ⟨.count, (2147483648 : Nat)⟩, wide]
    let shapes := [flag.shape, cell.shape, .count, wide.shape]
    let buffer := [2, 255, 255, 255, 255, 1]
    (∀ s ∈ items.map Item.shape ++ shapes, s.type.OwnsPath types) ∧
      Packer.Restores types items [flag, ⟨.count, (3 : Nat)⟩, wide]
        [1, 3, 0, 0, 0, 9, 0, 0, 0, 0, 0, 0, 0] ∧
      Cursor.StaysWithin types buffer (.start buffer) shapes ∧
      ((Cursor.start buffer).moves (.ofTypes types) shapes).2 = ⟨5, [1]⟩ := by
  intro types flag cell wide items shapes buffer
  have h : ∀ s ∈ items.map Item.shape ++ shapes, s.type.OwnsPath types := by decide
  have hexact := Registry.sequences_exact h buffer
  exact ⟨h, hexact.1, hexact.2, rfl⟩

end HaloIndex
