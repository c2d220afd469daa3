import HaloIndex.Proofs.Sync.Announcement
import HaloIndex.Proofs.Wire.Exact

namespace HaloIndex

variable {G A : Type} [Scalar G] [Role A]

namespace Announcement

section Packing

variable {registry : Registry} {bytes : List UInt8}

structure CountsFit (as : List (Announcement G A)) : Prop where
  announcements : as.length ≤ Registry.maxCount
  knowers : ∀ a ∈ as, a.knowers.length ≤ Registry.maxCount
  ranks : ∀ a ∈ as, ∀ knower ∈ a.knowers, knower.1 ≤ Registry.maxCount

theorem encodeKnower_ok_iff (h : registry.Speaks G) {knower : Nat × A} :
    (∃ bytes, encodeKnower registry knower = .ok bytes) ↔ knower.1 ≤ Registry.maxCount := by
  rw [← Registry.packedCount_ok_iff h.count]
  constructor
  · rintro ⟨bytes, hpack⟩
    obtain ⟨rank, hrank, -⟩ := ok_of_bind hpack
    exact ⟨rank, hrank⟩
  · rintro ⟨rank, hrank⟩
    refine ⟨rank ++ Scalar.bytes (Role.code knower.2), ?_⟩
    rw [encodeKnower, hrank, h.role.packed]
    rfl

theorem encodeOne_ok_iff (h : registry.Speaks G) {a : Announcement G A} :
    (∃ bytes, encodeOne registry a = .ok bytes) ↔ a.knowers.length ≤ Registry.maxCount ∧
      ∀ knower ∈ a.knowers, knower.1 ≤ Registry.maxCount := by
  have hknowers : (∃ bytes, Registry.packedEach (encodeKnower registry) a.knowers = .ok bytes) ↔
      ∀ knower ∈ a.knowers, knower.1 ≤ Registry.maxCount := by
    simp only [Registry.packedEach_ok_iff, encodeKnower_ok_iff h]
  rw [← hknowers, ← Registry.packedCount_ok_iff h.count]
  constructor
  · rintro ⟨bytes, hpack⟩
    obtain ⟨globalId, -, hpack⟩ := ok_of_bind hpack
    obtain ⟨role, -, hpack⟩ := ok_of_bind hpack
    obtain ⟨count, hcount, hpack⟩ := ok_of_bind hpack
    obtain ⟨knowers, hknowers, -⟩ := ok_of_bind hpack
    exact ⟨⟨count, hcount⟩, knowers, hknowers⟩
  · rintro ⟨⟨count, hcount⟩, knowers, hknowers⟩
    refine ⟨Scalar.bytes a.key.globalId ++
      (Scalar.bytes (Role.code a.key.role) ++ (count ++ knowers)), ?_⟩
    rw [encodeOne, h.globalId.packed, h.role.packed, hcount, hknowers]
    rfl

omit [Role A] in
theorem encodedLength_eq (h : registry.Speaks G) (as : List (Announcement G A)) :
    encodedLength registry as = .ok (Scalar.width Int32 +
      (Scalar.width G + Scalar.width UInt8 + Scalar.width Int32) * as.length +
      (Scalar.width Int32 + Scalar.width UInt8) * (as.flatMap (·.knowers)).length) := by
  rw [encodedLength, h.count, h.globalId, h.role]
  rfl

theorem encode_eq (h : registry.Speaks G) (as : List (Announcement G A)) :
    encode registry as = (do
    let count ← registry.packedCount as.length
    let records ← Registry.packedEach (encodeOne registry) as
    return count ++ records) := by
  rw [encode, encodedLength_eq h]
  rfl

theorem encode_ok_iff (h : registry.Speaks G) {as : List (Announcement G A)} :
    (∃ bytes, encode registry as = .ok bytes) ↔ CountsFit as := by
  have hcounts : CountsFit as ↔ (∃ bytes, registry.packedCount as.length = .ok bytes) ∧
      ∃ bytes, Registry.packedEach (encodeOne registry) as = .ok bytes := by
    simp only [Registry.packedEach_ok_iff, encodeOne_ok_iff h,
      Registry.packedCount_ok_iff h.count]
    exact ⟨fun hfit => ⟨hfit.announcements, fun a ha => ⟨hfit.knowers a ha, hfit.ranks a ha⟩⟩,
      fun ⟨hlength, hall⟩ => ⟨hlength, fun a ha => (hall a ha).1, fun a ha => (hall a ha).2⟩⟩
  rw [hcounts, encode_eq h]
  constructor
  · rintro ⟨bytes, hpack⟩
    obtain ⟨count, hcount, hpack⟩ := ok_of_bind hpack
    obtain ⟨records, hrecords, -⟩ := ok_of_bind hpack
    exact ⟨⟨count, hcount⟩, records, hrecords⟩
  · rintro ⟨⟨count, hcount⟩, records, hrecords⟩
    refine ⟨count ++ records, ?_⟩
    rw [hcount, hrecords]
    rfl

theorem length_encodeKnower {knower : Nat × A}
    (hpack : encodeKnower registry knower = .ok bytes) :
    bytes.length = Scalar.width Int32 + Scalar.width UInt8 := by
  obtain ⟨rank, hrank, hpack⟩ := ok_of_bind hpack
  obtain ⟨role, hrole, hpack⟩ := ok_of_bind hpack
  cases hpack
  rw [List.length_append, registry.eq_bytes_of_packedCount hrank,
    registry.eq_bytes_of_packed hrole, LawfulScalar.length_bytes, LawfulScalar.length_bytes]

variable [LawfulScalar G]

theorem length_encodeOne {a : Announcement G A} (hpack : encodeOne registry a = .ok bytes) :
    bytes.length = Scalar.width G + Scalar.width UInt8 + Scalar.width Int32 +
      (Scalar.width Int32 + Scalar.width UInt8) * a.knowers.length := by
  obtain ⟨globalId, hglobal, hpack⟩ := ok_of_bind hpack
  obtain ⟨role, hrole, hpack⟩ := ok_of_bind hpack
  obtain ⟨count, hcount, hpack⟩ := ok_of_bind hpack
  obtain ⟨knowers, hknowers, hpack⟩ := ok_of_bind hpack
  cases hpack
  have hlength := Registry.length_packedEach
    (fun rest : List (Nat × A) => (Scalar.width Int32 + Scalar.width UInt8) * rest.length) rfl
    (fun _ rest first hfirst => by
      rw [List.length_cons, length_encodeKnower hfirst, Nat.mul_succ, Nat.add_comm])
    hknowers
  simp only [List.length_append, registry.eq_bytes_of_packed hglobal,
    registry.eq_bytes_of_packed hrole,
    registry.eq_bytes_of_packedCount hcount, LawfulScalar.length_bytes, hlength, Nat.mul_comm,
      Nat.add_assoc]

theorem length_encode (h : registry.Speaks G) {as : List (Announcement G A)}
    (hpack : encode registry as = .ok bytes) : encodedLength registry as = .ok bytes.length := by
  rw [encode_eq h] at hpack
  obtain ⟨count, hcount, hpack⟩ := ok_of_bind hpack
  obtain ⟨records, hrecords, hpack⟩ := ok_of_bind hpack
  cases hpack
  have hlength := Registry.length_packedEach (fun rest : List (Announcement G A) =>
      (Scalar.width G + Scalar.width UInt8 + Scalar.width Int32) * rest.length +
        (Scalar.width Int32 + Scalar.width UInt8) * (rest.flatMap (·.knowers)).length) rfl
    (fun a rest first hfirst => by
      rw [List.length_cons, List.flatMap_cons, List.length_append, length_encodeOne hfirst,
        Nat.mul_succ, Nat.mul_add]
      omega) hrecords
  rw [encodedLength_eq h, List.length_append, registry.eq_bytes_of_packedCount hcount,
    LawfulScalar.length_bytes, hlength, Nat.add_assoc]

end Packing

section Echoing

variable {registry : Registry} [LawfulRole A]

theorem echoes_knower (h : registry.Speaks G) :
    (unpackKnower registry : Unpack (Nat × A)).Echoes (encodeKnower registry) := by
  intro c knower d hread
  obtain ⟨rank, mid, hrank, hread⟩ := Unpack.exists_of_bind hread
  obtain ⟨role, last, hrole, hread⟩ := Unpack.exists_of_bind hread
  cases hread
  obtain ⟨first, hfirst, htaken⟩ := Unpack.echoes_count h.count c rank mid hrank
  obtain ⟨second, hsecond, htaken'⟩ := Unpack.echoes_role h.role mid role d hrole
  refine ⟨first ++ second, ?_, ?_⟩
  · simp only [encodeKnower, hfirst, hsecond]
    rfl
  · rw [htaken, htaken', List.append_assoc]

variable [ExactScalar G]

theorem echoes_one (h : registry.Speaks G) :
    (unpackOne registry : Unpack (Announcement G A)).Echoes (encodeOne registry) := by
  intro c a d hread
  obtain ⟨globalId, atRole, hglobalId, hread⟩ := Unpack.exists_of_bind hread
  obtain ⟨role, atCount, hrole, hread⟩ := Unpack.exists_of_bind hread
  obtain ⟨n, atKnowers, hcount, hread⟩ := Unpack.exists_of_bind hread
  obtain ⟨knowers, last, hknowers, hread⟩ := Unpack.exists_of_bind hread
  cases hread
  obtain ⟨first, hfirst, htaken⟩ := Unpack.echoes_scalar h.globalId c globalId atRole hglobalId
  obtain ⟨second, hsecond, htakenRole⟩ := Unpack.echoes_role h.role atRole role atCount hrole
  obtain ⟨third, hthird, htakenCount⟩ := Unpack.echoes_count h.count atCount n atKnowers hcount
  obtain ⟨fourth, hfourth, htakenKnowers⟩ :=
    (echoes_knower h).times n atKnowers knowers d hknowers
  refine ⟨first ++ (second ++ (third ++ fourth)), ?_, ?_⟩
  · simp only [encodeOne, hfirst, hsecond, Unpack.length_of_times hknowers, hthird, hfourth]
    rfl
  · simp only [htaken, htakenRole, htakenCount, htakenKnowers, List.append_assoc]

theorem echoes_message (h : registry.Speaks G) :
    (Unpack.count registry >>= Unpack.times (unpackOne registry) : Unpack
      (List (Announcement G A))).Echoes
      (encode registry) := by
  intro c as d hread
  obtain ⟨n, mid, hcount, hread⟩ := Unpack.exists_of_bind hread
  obtain ⟨first, hfirst, htaken⟩ := Unpack.echoes_count h.count c n mid hcount
  obtain ⟨second, hsecond, htaken'⟩ := (echoes_one h).times n mid as d hread
  refine ⟨first ++ second, ?_, ?_⟩
  · rw [encode_eq h, Unpack.length_of_times hread, hfirst, hsecond]
    rfl
  · rw [htaken, htaken', List.append_assoc]

end Echoing

section Refusing

variable {registry r : Registry} {field : Field} {due bad : List UInt8} {f : Fault}

/-- A beginning of the entry of a knower, after which this field is due. -/
inductive KnowerDue (r : Registry) : Field → List UInt8 → Prop where
  | rank : KnowerDue r .count []
  | role {rank : Nat} {bytes : List UInt8} (h : r.packedCount rank = .ok bytes) :
    KnowerDue r .role bytes

variable (G A)

inductive OneDue (r : Registry) : Field → List UInt8 → Prop where
  | role (globalId : G) : OneDue r .role (Scalar.bytes globalId)
  | count (globalId : G) (role : A) :
    OneDue r .count (Scalar.bytes globalId ++ Scalar.bytes (Role.code role))
  | knower (globalId : G) (role : A) {n : Nat} {count done due : List UInt8}
      {knowers : List (Nat × A)} {field : Field} (hcount : r.packedCount n = .ok count)
      (hdone : Registry.packedEach (encodeKnower r) knowers = .ok done)
      (hleft : knowers.length < n) (h : KnowerDue r field due) :
    OneDue r field (Scalar.bytes globalId ++
      (Scalar.bytes (Role.code role) ++ (count ++ (done ++ due))))

/-- A beginning of a message, after which this field is due. -/
inductive Due (r : Registry) : Field → List UInt8 → Prop where
  | count : Due r .count []
  | record {n : Nat} {count done due : List UInt8} {as : List (Announcement G A)} {field : Field}
      (hcount : r.packedCount n = .ok count)
      (hdone : Registry.packedEach (encodeOne r) as = .ok done) (hleft : as.length < n)
      (h : OneDue G A r field due) : Due r field (count ++ (done ++ due))

variable {G A}

theorem refuses_knower (h : registry.Speaks G) (hdue : KnowerDue r field due)
    (hbad : field.Misfit A bad f) :
    (unpackKnower registry : Unpack (Nat × A)).Refuses (due ++ bad) f := by
  cases hdue with
  | rank => exact (Unpack.refuses_count h.count hbad).bind _
  | role hrank =>
    exact (Unpack.reads_count h.count hrank).refuses ((Unpack.refuses_role h.role hbad).bind _)

variable [LawfulScalar G] [LawfulRole A]

theorem refuses_one (h : registry.Speaks G) (hdue : OneDue G A r field due)
    (hbad : field.Misfit A bad f) :
    (unpackOne registry : Unpack (Announcement G A)).Refuses (due ++ bad) f := by
  cases hdue with
  | role globalId =>
    exact (Unpack.reads_scalar h.globalId globalId).refuses
      ((Unpack.refuses_role h.role hbad).bind _)
  | count globalId role =>
    rw [List.append_assoc]
    exact (Unpack.reads_scalar h.globalId globalId).refuses
      ((Unpack.reads_role h.role role).refuses ((Unpack.refuses_count h.count hbad).bind _))
  | knower globalId role hcount hdone hleft hknower =>
    simp only [List.append_assoc]
    have hknowers := Unpack.Refuses.times (fun _ _ _ hfirst => reads_knower h hfirst) hdone
      (refuses_knower h hknower hbad) hleft
    exact (Unpack.reads_scalar h.globalId globalId).refuses
      ((Unpack.reads_role h.role role).refuses
      ((Unpack.reads_count h.count hcount).refuses (hknowers.bind _)))

theorem decode_refuses (h : registry.Speaks G) (hdue : Due G A r field due)
    (hbad : field.Misfit A bad f) (rest : List UInt8) :
    (decode registry (due ++ bad ++ rest) : Except Fault (List (Announcement G A))) =
    .error f := by
  apply Unpack.Refuses.whole
  cases hdue with
  | count => exact (Unpack.refuses_count h.count hbad).bind _
  | record hcount hdone hleft hone =>
    simp only [List.append_assoc]
    have hrecords := Unpack.Refuses.times (fun _ _ _ hfirst => reads_one h hfirst) hdone
      (refuses_one h hone hbad) hleft
    exact (Unpack.reads_count h.count hcount).refuses hrecords

end Refusing

variable [LawfulScalar G] [LawfulRole A] {registry : Registry}

theorem tight_decode (h : registry.Speaks G) {r : Registry} {as : List (Announcement G A)}
    {bytes : List UInt8} (hpack : encode r as = .ok bytes) :
    Tight (decode registry : List UInt8 → Except Fault (List (Announcement G A))) bytes :=
  (reads_message h hpack).tight (inherited_message (Unpack.inherited_stable registry))

/-- A message decodes to these announcements if and only if they are packed as it, provided that
bytes identify identifiers; whatever else comes in is refused. -/
theorem decode_exact (h : registry.Speaks G) :
    (∀ [ExactScalar G] bytes (as : List (Announcement G A)),
      decode registry bytes = .ok as ↔ encode registry as = .ok bytes) ∧
    (∀ as : List (Announcement G A), (∃ bytes, encode registry as = .ok bytes) ↔ CountsFit as) ∧
    (∀ (as : List (Announcement G A)) bytes, encode registry as = .ok bytes →
      decode registry bytes = .ok as ∧ encodedLength registry as = .ok bytes.length ∧
        Tight (decode registry : List UInt8 → Except Fault (List (Announcement G A))) bytes) ∧
    ∀ field due bad f rest, Due G A registry field due → field.Misfit A bad f →
      (decode registry (due ++ bad ++ rest) : Except Fault (List (Announcement G A))) =
      .error f := by
  refine ⟨fun bytes as => ⟨(echoes_message h).whole, decode_encode h⟩,
    fun as => encode_ok_iff h, ?_, ?_⟩
  · intro as bytes hpack
    exact ⟨decode_encode h hpack, length_encode h hpack, tight_decode h hpack⟩
  · intro field due bad f rest hdue hbad
    exact decode_refuses h hdue hbad rest

def sharedCell : List (Announcement CellId MeshRole) :=
  [⟨⟨⟨10⟩, .owner⟩, [(0, .overlap), (2, .ghost)]⟩]

def sharedCellBytes : List UInt8 :=
  [1, 0, 0, 0, 10, 0, 0, 0, 0, 2, 0, 0, 0, 0, 0, 0, 0, 2, 2, 0, 0, 0, 3]

def cellRegistry : Registry := Registry.basic.register CellId

theorem decode_exact_sharedCell : cellRegistry.Speaks CellId ∧
    encode cellRegistry sharedCell = .ok sharedCellBytes ∧
    decode cellRegistry sharedCellBytes = .ok sharedCell ∧
    encodedLength cellRegistry sharedCell = .ok 23 ∧
    (∃ detail, (decode cellRegistry sharedCellBytes.dropLast :
      Except Fault (List (Announcement CellId MeshRole))) = .error (.undecodable detail)) ∧
    (decode cellRegistry (sharedCellBytes.set 22 4) : Except Fault
      (List (Announcement CellId MeshRole))) =
      .error (.unknownRole 4) := by
  have hspeaks : cellRegistry.Speaks CellId := ⟨rfl, rfl, rfl⟩
  have hpack : encode cellRegistry sharedCell = .ok sharedCellBytes := rfl
  obtain ⟨hexact, -, hsizes, hrefuses⟩ := decode_exact (A := MeshRole) hspeaks
  obtain ⟨-, hlength, htight⟩ := hsizes sharedCell sharedCellBytes hpack
  have hcut := htight.cut sharedCellBytes.dropLast (List.dropLast_prefix _) (by decide)
  have hone : cellRegistry.packedCount 1 = .ok [1, 0, 0, 0] := rfl
  have htwo : cellRegistry.packedCount 2 = .ok [2, 0, 0, 0] := rfl
  have hfirst : Registry.packedEach (encodeKnower cellRegistry) [(0, MeshRole.overlap)] =
      .ok [0, 0, 0, 0, 2] := rfl
  have hnothing : Registry.packedEach (encodeOne cellRegistry)
      ([] : List (Announcement CellId MeshRole)) =
    .ok [] := rfl
  have hknower : OneDue CellId MeshRole cellRegistry .role
      [10, 0, 0, 0, 0, 2, 0, 0, 0, 0, 0, 0, 0, 2, 2, 0, 0, 0] :=
    OneDue.knower (⟨10⟩ : CellId) MeshRole.owner htwo hfirst Nat.one_lt_two (.role htwo)
  have hdue : Due CellId MeshRole cellRegistry .role
      [1, 0, 0, 0, 10, 0, 0, 0, 0, 2, 0, 0, 0, 0, 0, 0, 0, 2, 2, 0, 0, 0] :=
    Due.record hone hnothing Nat.zero_lt_one hknower
  have hbad : Field.Misfit MeshRole .role (Scalar.bytes (4 : UInt8)) (.unknownRole 4) :=
    .role rfl
  have hunknown := hrefuses .role _ _ _ [] hdue hbad
  exact ⟨hspeaks, hpack, (hexact _ _).mpr hpack, hlength, hcut, hunknown⟩

end Announcement

end HaloIndex
