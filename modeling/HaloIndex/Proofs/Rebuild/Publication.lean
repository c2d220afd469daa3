import HaloIndex.Proofs.Order
import HaloIndex.Proofs.Wire.Reading
import HaloIndex.Rebuild.Publication

namespace HaloIndex

variable {G A : Type}

namespace Publication

section Messages

variable [Scalar G] [Role A]

theorem encode_ok {registry : Registry} (h : registry.SpeaksFully G) (p : Publication G A)
    (hsource : p.source.length ≤ Registry.maxCount)
    (hdest : (p.dest.getD []).length ≤ Registry.maxCount) :
    ∃ bytes, p.encode registry = .ok bytes := by
  have hkey (k : Key G A) : ∃ bytes, encodeKey registry k = .ok bytes := by
    refine ⟨Scalar.bytes k.globalId ++ Scalar.bytes (Role.code k.role), ?_⟩
    rw [encodeKey, h.globalId.packed, h.role.packed]
    rfl
  obtain ⟨keys, hkeys⟩ : ∃ keys,
      Registry.packedEach (encodeKey registry) (p.source ++ p.dest.getD []) = .ok keys :=
    Registry.packedEach_ok fun k _ => hkey k
  refine ⟨Scalar.bytes p.dest.isSome ++ (Scalar.bytes (Int32.ofNat p.source.length) ++
    (Scalar.bytes (Int32.ofNat (p.dest.getD []).length) ++ keys)), ?_⟩
  rw [encode, show registry.descriptor G = _ from h.globalId,
    show registry.descriptor UInt8 = _ from h.role,
        show registry.descriptor Bool = _ from h.flag,
    show registry.descriptor Int32 = _ from h.count, h.flag.packed, Registry.packedCount,
    if_pos hsource, h.count.packed, Registry.packedCount, if_pos hdest, h.count.packed, hkeys]
  rfl

variable {registry : Registry} [LawfulScalar G] [LawfulRole A]

theorem reads_key (h : registry.Speaks G) {r : Registry} {k : Key G A} {bytes : List UInt8}
    (hpack : encodeKey r k = .ok bytes) : (unpackKey registry).Reads bytes k := by
  obtain ⟨globalId, hglobal, hpack⟩ := ok_of_bind hpack
  obtain ⟨role, hrole, hpack⟩ := ok_of_bind hpack
  cases hpack
  rw [r.eq_bytes_of_packed hglobal, r.eq_bytes_of_packed hrole]
  exact (Unpack.reads_scalar h.globalId k.globalId).bind
    ((Unpack.reads_role h.role k.role).map (Key.mk k.globalId))

theorem reads_keys (h : registry.Speaks G) {r : Registry} {keys : List (Key G A)}
    {bytes : List UInt8} (hpack : Registry.packedEach (encodeKey r) keys = .ok bytes) :
    (Unpack.times (unpackKey registry) keys.length).Reads bytes keys :=
  Unpack.Reads.times (fun _ _ _ hfirst => reads_key h hfirst) hpack

variable [LT G] [LT A] [DecidableEq G] [DecidableLT G] [DecidableLT A]

theorem reads_dest (h : registry.Speaks G) {r : Registry} (source : List (Key G A))
    {dest : Option (List (Key G A))} {bytes : List UInt8}
    (hpack : Registry.packedEach (encodeKey r) (dest.getD []) = .ok bytes) :
    (do
      let keys ← if dest.isSome then do
          let keys ← Unpack.times (unpackKey registry) (dest.getD []).length
          pure (some (sortedKeys keys))
        else pure none
      return ⟨source, keys⟩ : Unpack (Publication G A)).Reads bytes ⟨source,
      dest.map sortedKeys⟩ := by
  cases dest with
  | none =>
    cases hpack
    exact .pure _
  | some keys =>
    have hread :=
      (reads_keys h hpack).map fun keys => Publication.mk source (some (sortedKeys keys))
    exact hread

def heard (p : Publication G A) : Publication G A := ⟨sortedKeys p.source, p.dest.map sortedKeys⟩

theorem reads_message (h : registry.SpeaksFully G) {r : Registry} {p : Publication G A}
    {bytes : List UInt8} (hpack : p.encode r = .ok bytes) :
    (unpack registry).Reads bytes p.heard := by
  obtain ⟨_, _, hpack⟩ := ok_of_bind hpack
  obtain ⟨_, _, hpack⟩ := ok_of_bind hpack
  obtain ⟨_, _, hpack⟩ := ok_of_bind hpack
  obtain ⟨_, _, hpack⟩ := ok_of_bind hpack
  obtain ⟨two, htwo, hpack⟩ := ok_of_bind hpack
  obtain ⟨sourceCount, hsourceCount, hpack⟩ := ok_of_bind hpack
  obtain ⟨destCount, hdestCount, hpack⟩ := ok_of_bind hpack
  obtain ⟨keys, hkeys, hpack⟩ := ok_of_bind hpack
  cases hpack
  obtain ⟨source, dest, hsource, hdest, rfl⟩ := Registry.packedEach_append hkeys
  rw [r.eq_bytes_of_packed htwo]
  exact (Unpack.reads_scalar h.flag p.dest.isSome).bind
    ((Unpack.reads_count h.count hsourceCount).bind
      ((Unpack.reads_count h.count hdestCount).bind
        ((reads_keys h.toSpeaks hsource).bind (reads_dest h.toSpeaks _ hdest))))

theorem decode_encode (h : registry.SpeaksFully G) {r : Registry} {p : Publication G A}
    {bytes : List UInt8} (hpack : p.encode r = .ok bytes) :
    decode registry bytes = .ok p.heard :=
  (reads_message h hpack).whole

end Messages

variable [LT G] [LT A]

structure Ordered (p : Publication G A) : Prop where
  source : InOrder p.source
  dest : ∀ keys, p.dest = some keys → InOrder keys

theorem Ordered.destKeys {p : Publication G A} (h : p.Ordered) : InOrder p.destKeys := by
  unfold Publication.destKeys
  cases hdest : p.dest with
  | none => exact h.source
  | some keys => exact h.dest keys hdest

variable [DecidableEq G] [DecidableLT G] [DecidableLT A]

theorem mem_source_heard {p : Publication G A} {k : Key G A} :
    k ∈ p.heard.source ↔ k ∈ p.source := List.mem_mergeSort

theorem mem_destKeys_heard {p : Publication G A} {k : Key G A} :
    k ∈ p.heard.destKeys ↔ k ∈ p.destKeys := by
  obtain ⟨source, dest⟩ := p
  cases dest <;> exact List.mem_mergeSort

variable [IsStrictTotalOrder G (· < ·)] [IsStrictTotalOrder A (· < ·)]

theorem inOrder_sortedKeys (keys : List (Key G A)) : InOrder (sortedKeys keys) :=
  pairwise_mergeSort_key id keys

theorem ordered_heard (p : Publication G A) : p.heard.Ordered := by
  refine ⟨inOrder_sortedKeys _, fun keys h => ?_⟩
  obtain ⟨keys, _, rfl⟩ := Option.map_eq_some_iff.mp h
  exact inOrder_sortedKeys keys

end Publication

end HaloIndex
