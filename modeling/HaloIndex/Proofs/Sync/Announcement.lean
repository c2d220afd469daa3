import HaloIndex.Proofs.Wire.Reading
import HaloIndex.Sync.Announcement

namespace HaloIndex

variable {G A : Type} [Scalar G] [Role A]

namespace Announcement

section Reading

variable {registry r : Registry} {bytes : List UInt8}

theorem reads_knower [LawfulRole A] (h : registry.Speaks G) {knower : Nat × A}
    (hpack : encodeKnower r knower = .ok bytes) :
    (unpackKnower registry).Reads bytes knower := by
  obtain ⟨rank, hrank, hpack⟩ := ok_of_bind hpack
  obtain ⟨role, hrole, hpack⟩ := ok_of_bind hpack
  cases hpack
  rw [r.eq_bytes_of_packed hrole]
  exact (Unpack.reads_count h.count hrank).bind
    ((Unpack.reads_role h.role knower.2).map (Prod.mk knower.1))

variable [LawfulScalar G] [LawfulRole A]

theorem reads_one (h : registry.Speaks G) {a : Announcement G A}
    (hpack : encodeOne r a = .ok bytes) : (unpackOne registry).Reads bytes a := by
  obtain ⟨globalId, hglobal, hpack⟩ := ok_of_bind hpack
  obtain ⟨role, hrole, hpack⟩ := ok_of_bind hpack
  obtain ⟨count, hcount, hpack⟩ := ok_of_bind hpack
  obtain ⟨knowers, hknowers, hpack⟩ := ok_of_bind hpack
  cases hpack
  rw [r.eq_bytes_of_packed hglobal, r.eq_bytes_of_packed hrole]
  have hlist : (Unpack.times (unpackKnower registry) a.knowers.length).Reads knowers a.knowers :=
    Unpack.Reads.times (fun _ _ _ hfirst => reads_knower h hfirst) hknowers
  exact (Unpack.reads_scalar h.globalId a.key.globalId).bind
    ((Unpack.reads_role h.role a.key.role).bind
      ((Unpack.reads_count h.count hcount).bind (hlist.map (Announcement.mk a.key))))

theorem reads_message (h : registry.Speaks G) {as : List (Announcement G A)}
    (hpack : encode r as = .ok bytes) :
    (Unpack.count registry >>= Unpack.times (unpackOne registry)).Reads bytes as := by
  obtain ⟨_, _, hpack⟩ := ok_of_bind hpack
  obtain ⟨count, hcount, hpack⟩ := ok_of_bind hpack
  obtain ⟨records, hrecords, hpack⟩ := ok_of_bind hpack
  cases hpack
  have hlist : (Unpack.times (unpackOne registry) as.length).Reads records as :=
    Unpack.Reads.times (fun _ _ _ hfirst => reads_one h hfirst) hrecords
  exact (Unpack.reads_count h.count hcount).bind hlist

theorem decode_encode (h : registry.Speaks G) {as : List (Announcement G A)}
    (hpack : encode r as = .ok bytes) : decode registry bytes = .ok as :=
  (reads_message h hpack).whole

end Reading

end Announcement

end HaloIndex
