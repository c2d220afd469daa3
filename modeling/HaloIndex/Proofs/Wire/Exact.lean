import HaloIndex.Proofs.Wire.Framing

namespace HaloIndex

variable {α β : Type}

theorem Registry.packedCount_ok_iff {r : Registry} (h : r.Knows Int32) {n : Nat} :
    (∃ bytes, r.packedCount n = .ok bytes) ↔ n ≤ maxCount := by
  constructor
  · rintro ⟨bytes, hpack⟩
    exact r.le_of_packedCount hpack
  · intro hn
    exact ⟨_, (if_pos hn).trans (h.packed _)⟩

theorem Registry.packedEach_ok_iff {pack : α → Except Fault (List UInt8)} {as : List α} :
    (∃ bytes, packedEach pack as = .ok bytes) ↔ ∀ a ∈ as, ∃ bytes, pack a = .ok bytes := by
  refine ⟨?_, packedEach_ok⟩
  induction as with
  | nil => exact fun _ => nofun
  | cons a as ih =>
    rintro ⟨bytes, hpack⟩
    obtain ⟨first, others, hfirst, hothers, -⟩ := packedEach_cons hpack
    exact List.forall_mem_cons.mpr ⟨⟨first, hfirst⟩, ih ⟨others, hothers⟩⟩

theorem Registry.length_packedEach {pack : α → Except Fault (List UInt8)} (size : List α → Nat)
    (hnil : size [] = 0)
    (hcons : ∀ a as first, pack a = .ok first → size (a :: as) = first.length + size as)
    {as : List α} {bytes : List UInt8} (h : packedEach pack as = .ok bytes) :
    bytes.length = size as := by
  induction as generalizing bytes with
  | nil =>
    cases h
    exact hnil.symm
  | cons a as ih =>
    obtain ⟨first, others, hfirst, hothers, rfl⟩ := packedEach_cons h
    rw [List.length_append, hcons a as first hfirst, ih hothers]

namespace Unpack

theorem exists_of_bind {item : Unpack α} {g : α → Unpack β} {c e : Cursor} {b : β}
    (h : (item >>= g) c = (.ok b, e)) : ∃ a d, item c = (.ok a, d) ∧ g a d = (.ok b, e) := by
  cases hitem : item c with
  | mk result d =>
    cases result with
    | error f =>
      rw [bind_of_error hitem] at h
      cases h
    | ok a =>
      rw [bind_of_ok hitem] at h
      exact ⟨a, d, rfl, h⟩

/-- What a step takes is the packed form of what it ends with. -/
def Echoes (item : Unpack α) (pack : α → Except Fault (List UInt8)) : Prop :=
  ∀ c a d, item c = (.ok a, d) → ∃ bytes, pack a = .ok bytes ∧ c.rest = bytes ++ d.rest

theorem length_of_times {item : Unpack α} {n : Nat} {c d : Cursor} {as : List α}
    (h : times item n c = (.ok as, d)) : as.length = n := by
  induction n generalizing c as with
  | zero =>
    cases h
    rfl
  | succ n ih =>
    obtain ⟨a, mid, -, h⟩ := exists_of_bind h
    obtain ⟨others, last, hrest, h⟩ := exists_of_bind h
    cases h
    rw [List.length_cons, ih hrest]

theorem Echoes.times {item : Unpack α} {pack : α → Except Fault (List UInt8)}
    (h : item.Echoes pack) (n : Nat) : (times item n).Echoes (Registry.packedEach pack) := by
  induction n with
  | zero =>
    intro c as d hread
    cases hread
    exact ⟨[], rfl, rfl⟩
  | succ n ih =>
    intro c as d hread
    obtain ⟨a, mid, hitem, hread⟩ := exists_of_bind hread
    obtain ⟨others, last, hrest, hread⟩ := exists_of_bind hread
    cases hread
    obtain ⟨first, hfirst, htaken⟩ := h c a mid hitem
    obtain ⟨more, hmore, htaken'⟩ := ih mid others d hrest
    refine ⟨first ++ more, ?_, ?_⟩
    · simp only [Registry.packedEach, hfirst, hmore]
      rfl
    · rw [htaken, htaken', List.append_assoc]

theorem rest_of_finish {c d : Cursor} {a : Unit} (h : finish c = (.ok a, d)) : c.rest = [] := by
  by_cases hend : c.rest.length = 0
  · exact List.length_eq_zero_iff.mp hend
  · rw [show finish c = (.error _, c) from if_neg hend] at h
    cases h

theorem exists_of_whole {item : Unpack α} {buffer : List UInt8} {a : α}
    (h : whole item buffer = .ok a) :
    ∃ d, item (.start buffer) = (.ok a, d) ∧ d.rest = [] := by
  obtain ⟨e, hread⟩ : ∃ e,
      (item >>= fun a => do finish; return a) (.start buffer) = (.ok a, e) :=
    ⟨_, Prod.ext h rfl⟩
  obtain ⟨b, d, hitem, hread⟩ := exists_of_bind hread
  obtain ⟨_, d', hfinish, hread⟩ := exists_of_bind hread
  cases hread
  exact ⟨d, hitem, rest_of_finish hfinish⟩

theorem Echoes.whole {item : Unpack α} {pack : α → Except Fault (List UInt8)}
    (h : item.Echoes pack) {buffer : List UInt8} {a : α}
    (hread : Unpack.whole item buffer = .ok a) : pack a = .ok buffer := by
  obtain ⟨d, hitem, hend⟩ := exists_of_whole hread
  obtain ⟨bytes, hpack, htaken⟩ := h _ a d hitem
  rw [hpack, show buffer = bytes ++ d.rest from htaken, hend, List.append_nil]

section Fields

variable {registry : Registry}

theorem echoes_scalar [Scalar α] [ExactScalar α] (h : registry.Knows α) :
    (scalar registry α).Echoes registry.packed := by
  intro c a d hread
  refine ⟨Scalar.bytes a, h.packed a, ?_⟩
  by_cases hle : Scalar.width α ≤ c.rest.length
  · rw [scalar_of_le h hle] at hread
    cases hread
    rw [ExactScalar.bytes_ofBytes _ (List.length_take_of_le hle), Cursor.skip,
      List.take_append_drop]
  · obtain ⟨detail, hshort⟩ := scalar_of_short h hle
    rw [hshort] at hread
    cases hread

theorem echoes_role {A : Type} [Role A] [LawfulRole A] (h : registry.Knows UInt8) :
    (role registry A).Echoes fun a => registry.packed (Role.code a) := by
  intro c a d hread
  obtain ⟨code, mid, hscalar, hread⟩ := exists_of_bind hread
  obtain ⟨bytes, hpack, htaken⟩ := echoes_scalar h c code mid hscalar
  cases hcode : (Role.ofCode? code : Option A) with
  | none =>
    simp only [hcode] at hread
    cases hread
  | some b =>
    simp only [hcode] at hread
    cases hread
    obtain rfl : Role.code a = code := (LawfulRole.ofCode?_eq_some_iff code a).mp hcode
    exact ⟨bytes, hpack, htaken⟩

theorem echoes_count (h : registry.Knows Int32) :
    (count registry).Echoes registry.packedCount := by
  intro c n d hread
  obtain ⟨value, mid, hscalar, hread⟩ := exists_of_bind hread
  obtain ⟨bytes, hpack, htaken⟩ := echoes_scalar h c value mid hscalar
  by_cases hsign : value < 0
  · simp only [if_pos hsign] at hread
    cases hread
  · simp only [if_neg hsign] at hread
    cases hread
    have hpos : 0 ≤ value.toInt := by
      rw [Int32.lt_iff_toInt_lt] at hsign
      exact Int.not_lt.mp hsign
    have hfits : value.toInt.toNat ≤ Registry.maxCount := by
      have hlt := value.toInt_lt
      rw [Registry.maxCount]
      omega
    have hvalue : Int32.ofNat value.toInt.toNat = value := by
      rw [← Int32.ofInt_eq_ofNat, Int.toNat_of_nonneg hpos, Int32.ofInt_toInt]
    refine ⟨bytes, ?_, htaken⟩
    rw [Registry.packedCount, if_pos hfits, hvalue, hpack]

end Fields

/-- A step that comes to these bytes fails, whatever follows them. -/
def Refuses (item : Unpack α) (bytes : List UInt8) (f : Fault) : Prop :=
  ∀ position rest, ∃ d, item ⟨position, bytes ++ rest⟩ = (.error f, d)

section Refusing

variable {item : Unpack α} {g : α → Unpack β} {bytes more : List UInt8} {f : Fault}

theorem Refuses.bind (h : item.Refuses bytes f) (g : α → Unpack β) :
    (item >>= g).Refuses bytes f := by
  intro position rest
  obtain ⟨d, hitem⟩ := h position rest
  exact ⟨d, bind_of_error hitem⟩

theorem Reads.refuses {a : α} (h : item.Reads bytes a) (h' : (g a).Refuses more f) :
    (item >>= g).Refuses (bytes ++ more) f := by
  intro position rest
  rw [List.append_assoc, bind_of_ok (h position _)]
  exact h' _ rest

theorem Refuses.times {pack : α → Except Fault (List UInt8)} {as : List α}
    (hreads : ∀ a ∈ as, ∀ first, pack a = .ok first → item.Reads first a)
    (hpack : Registry.packedEach pack as = .ok bytes) (h : item.Refuses more f) {n : Nat}
    (hn : as.length < n) :
    (times item n).Refuses (bytes ++ more) f := by
  induction as generalizing bytes n with
  | nil =>
    cases hpack
    obtain ⟨n, rfl⟩ := Nat.exists_eq_succ_of_ne_zero (Nat.ne_zero_of_lt hn)
    exact h.bind _
  | cons a as ih =>
    obtain ⟨first, others, hfirst, hothers, rfl⟩ := Registry.packedEach_cons hpack
    obtain ⟨n, rfl⟩ := Nat.exists_eq_succ_of_ne_zero (Nat.ne_zero_of_lt hn)
    have hrest :=
      ih (fun a ha => hreads a (List.mem_cons_of_mem _ ha)) hothers (Nat.lt_of_succ_lt_succ hn)
    rw [List.append_assoc]
    exact (hreads a (List.mem_cons_self ..) first hfirst).refuses (hrest.bind _)

theorem Refuses.whole (h : item.Refuses bytes f) (rest : List UInt8) :
    Unpack.whole item (bytes ++ rest) = .error f := by
  obtain ⟨d, hitem⟩ := h 0 rest
  exact congrArg Prod.fst (bind_of_error (g := fun a => do finish; return a) hitem)

end Refusing

end Unpack

inductive Field where
  | count
  | role
  deriving DecidableEq

def Fault.negativeCount (n : Int32) : Fault :=
  let shown := Scalar.text n
  .undecodable s!"negative count {shown}"

/-- Bytes that such a field cannot have, and what they are refused for. -/
inductive Field.Misfit (A : Type) [Role A] : Field → List UInt8 → Fault → Prop where
  | count {n : Int32} (h : n < 0) : Misfit A .count (Scalar.bytes n) (.negativeCount n)
  | role {code : UInt8} (h : (Role.ofCode? code : Option A) = none) :
    Misfit A .role (Scalar.bytes code) (.unknownRole code)

namespace Unpack

variable {registry : Registry} {A : Type} [Role A] {bytes : List UInt8} {f : Fault}

theorem refuses_count (h : registry.Knows Int32) (hbad : Field.Misfit A .count bytes f) :
    (count registry).Refuses bytes f := by
  cases hbad with
  | @count n hn =>
    rw [← List.append_nil (Scalar.bytes n)]
    apply (reads_scalar h n).refuses
    intro position rest
    simp only [if_pos hn]
    exact ⟨_, rfl⟩

theorem refuses_role (h : registry.Knows UInt8) (hbad : Field.Misfit A .role bytes f) :
    (role registry A).Refuses bytes f := by
  cases hbad with
  | @role code hcode =>
    rw [← List.append_nil (Scalar.bytes code)]
    apply (reads_scalar h code).refuses
    intro position rest
    simp only [hcode]
    exact ⟨_, rfl⟩

end Unpack

end HaloIndex
