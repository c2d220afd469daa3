import HaloIndex.Proofs.Transport.Round
import HaloIndex.Proofs.Wire.Reading
import HaloIndex.Transport.Reduction

namespace HaloIndex

namespace Exchange

open Traffic Event

def sends (tag : Tag) (payload : List UInt8) (peers : List Nat) : List Event :=
  peers.flatMap fun peer => [sent peer tag payload, waited peer]

section Channels

variable (c : Channel) (tag : Tag) (payload : List UInt8)

theorem posted_sends {peers : List Nat} (h : peers.Nodup) : posted c (sends tag payload peers) =
    if c.dest ∈ peers ∧ tag = c.tag then [payload] else [] := by
  induction peers with
  | nil => rfl
  | cons peer peers ih =>
    obtain ⟨hpeer, hpeers⟩ := List.nodup_cons.mp h
    rw [sends, List.flatMap_cons, posted_append]
    change _ ++ posted c (sends tag payload peers) = _
    rw [ih hpeers, posted_sent, posted_waited]
    by_cases hc : peer = c.dest
    · subst hc
      simp [hpeer]
    · simp [hc, Ne.symm hc]

theorem taken_sends (peers : List Nat) : taken c (sends tag payload peers) = [] := by
  induction peers with
  | nil => rfl
  | cons peer peers ih => exact ih

end Channels

theorem offers_sends {t : Traffic} {rank : Nat} {tag : Tag} {payload : List UInt8}
    {peers : List Nat} (h : ∀ peer ∈ peers, peer < t.size) :
    t.Offers rank (sends tag payload peers) := by
  induction peers generalizing t with
  | nil => trivial
  | cons peer peers ih =>
    apply Offers.sent (h peer (List.mem_cons_self ..))
    apply Offers.waited
    exact ih fun p hp => h p (List.mem_cons_of_mem _ hp)

/-- Each rank has its sources and its destinations, and these belong to each other. -/
structure Directed (size : Nat) (sources dests : Nat → List Nat) : Prop where
  nodupSources : ∀ rank < size, (sources rank).Nodup
  nodupDests : ∀ rank < size, (dests rank).Nodup
  sources_lt : ∀ rank < size, ∀ source ∈ sources rank, source < size
  dests_lt : ∀ rank < size, ∀ dest ∈ dests rank, dest < size
  mem_iff : ∀ source < size, ∀ dest < size, dest ∈ dests source ↔ source ∈ sources dest

theorem Directed.crosses {t : Traffic} {tag : Tag} {sources dests : Nat → List Nat}
    (h : Directed t.size sources dests) (hclear : t.Clear tag) (payload : Nat → List UInt8) :
    t.Crosses tag (fun rank => sends tag (payload rank) (dests rank))
      fun rank => takings false tag payload (sources rank) := by
  constructor
  case clear => exact hclear
  case offers =>
    intro rank hrank
    exact offers_sends (h.dests_lt rank hrank)
  case onlyGives =>
    intro rank c
    exact taken_sends ..
  case onlyTakes =>
    intro rank c
    exact posted_takings ..
  case balanced =>
    intro c hsource hdest
    rw [posted_sends _ _ _ (h.nodupDests _ hsource),
      taken_takings _ _ _ _ (h.nodupSources _ hdest)]
    simp only [h.mem_iff _ hsource _ hdest]
  case onChannel =>
    intro c hdest hno
    rw [taken_takings _ _ _ _ (h.nodupSources _ hdest), if_neg]
    rintro ⟨hsource, htag⟩
    exact hno ⟨h.sources_lt _ hdest _ hsource, htag.symm⟩
  case ready =>
    intro rank hrank u _ hqueue
    apply offers_takings false (h.nodupSources rank hrank)
    intro source hsource
    have hlt := h.sources_lt rank hrank source hsource
    rw [hqueue source hlt, posted_sends _ _ _ (h.nodupDests source hlt),
      if_pos ⟨(h.mem_iff source hlt rank hrank).mpr hsource, rfl⟩]
    rfl

end Exchange

namespace Station

open Traffic Event

def total (size : Nat) (combine : UInt64 → UInt64 → UInt64) (value : Nat → UInt64) : UInt64 :=
  (List.range' 1 (size - 1)).foldl (fun sum rank => combine sum (value rank)) (value 0)

def root (rank : Nat) : List Nat := if rank = 0 then [] else [0]

def leaves (size rank : Nat) : List Nat := if rank = 0 then List.range' 1 (size - 1) else []

theorem mem_leaves {size rank leaf : Nat} : leaf ∈ leaves size rank ↔
    rank = 0 ∧ 0 < leaf ∧ leaf < size := by
  rw [leaves]
  split
  next h =>
    rw [List.mem_range'_1]
    omega
  next h => simp [h]

theorem mem_root {rank other : Nat} : other ∈ root rank ↔ 0 < rank ∧ other = 0 := by
  rw [root]
  split <;> simp <;> omega

theorem nodup_root (rank : Nat) : (root rank).Nodup := by
  rw [root]
  split <;> simp

theorem nodup_leaves (size rank : Nat) : (leaves size rank).Nodup := by
  rw [leaves]
  split
  · exact List.nodup_range'
  · exact List.nodup_nil

theorem directed_up (size : Nat) : Exchange.Directed size (leaves size) root := by
  constructor
  case nodupSources => exact fun rank _ => nodup_leaves size rank
  case nodupDests => exact fun rank _ => nodup_root rank
  case sources_lt => exact fun rank _ source h => (mem_leaves.mp h).2.2
  case dests_lt =>
    intro rank hrank dest h
    obtain ⟨-, rfl⟩ := mem_root.mp h
    exact Nat.zero_lt_of_lt hrank
  case mem_iff =>
    intro source hsource dest _
    rw [mem_root, mem_leaves]
    omega

theorem directed_down (size : Nat) : Exchange.Directed size root (leaves size) := by
  have hup := directed_up size
  constructor
  case nodupSources => exact hup.nodupDests
  case nodupDests => exact hup.nodupSources
  case sources_lt => exact hup.dests_lt
  case dests_lt => exact hup.sources_lt
  case mem_iff =>
    exact fun source hsource dest hdest => (hup.mem_iff dest hdest source hsource).symm

/-- The events of a reduction: the values go up and their fold comes down. -/
def reducing (size : Nat) (value : Nat → UInt64) (sum : UInt64) (rank : Nat) : List Event :=
  (Exchange.sends Tag.collective (Scalar.bytes (value rank)) (root rank) ++
    Exchange.takings false Tag.collective (fun k => Scalar.bytes (value k))
      (leaves size rank)) ++
  (Exchange.sends Tag.collective (Scalar.bytes sum) (leaves size rank) ++
    Exchange.takings false Tag.collective (fun _ => Scalar.bytes sum) (root rank))

theorem admits_reducing {t : Traffic} (hclear : t.Clear Tag.collective) (value : Nat → UInt64)
    (sum : UInt64) : t.Admits (reducing t.size value sum) t := by
  have hup := (directed_up t.size).crosses hclear fun rank => Scalar.bytes (value rank)
  have hdown := (directed_down t.size).crosses hclear fun _ => Scalar.bytes sum
  exact hup.admits.trans hdown.admits

theorem reduced_bytes (sender : Nat) (value : UInt64) :
    reduced sender (Scalar.bytes value) = .ok value := by
  simp only [reduced, LawfulScalar.length_bytes, if_true, LawfulScalar.ofBytes_bytes]

theorem path_gather (combine : UInt64 → UInt64 → UInt64) (value : Nat → UInt64)
    (senders : List Nat) (sum : UInt64) :
    (gather combine sum senders).run.Path
      (Exchange.takings false Tag.collective (fun k => Scalar.bytes (value k)) senders)
      (.done (.ok (senders.foldl (fun sum k => combine sum (value k)) sum))) := by
  induction senders generalizing sum with
  | nil => exact .refl _
  | cons sender rest ih =>
    have hrest : (Talk.ofExcept (reduced sender (Scalar.bytes (value sender))) >>= fun other =>
        gather combine (combine sum other) rest : Talk UInt64).run.Path
        (Exchange.takings false Tag.collective (fun k => Scalar.bytes (value k)) rest)
        (.done (.ok (rest.foldl (fun sum k => combine sum (value k))
          (combine sum (value sender))))) := by
      rw [reduced_bytes]
      exact ih _
    exact .ask hrest

theorem path_spread (sum : UInt64) (receivers : List Nat) :
    (spread sum receivers).run.Path (Exchange.sends Tag.collective (Scalar.bytes sum) receivers)
      (.done (.ok ())) := by
  induction receivers with
  | nil => exact .refl _
  | cons receiver rest ih => exact .ask (.ask ih)

theorem path_reduce (combine : UInt64 → UInt64 → UInt64) (value : Nat → UInt64) {s : Station}
    (hrank : s.rank < s.size) :
    (s.reduce combine (value s.rank)).run.Path
      (reducing s.size value (total s.size combine value) s.rank)
      (.done (.ok (total s.size combine value))) := by
  rw [reduce, reducing]
  by_cases hsize : s.size ≤ 1
  · obtain hzero : s.rank = 0 := by omega
    obtain hone : s.size = 1 := by omega
    simp only [if_true, hzero, hone]
    exact .refl _
  · by_cases hzero : s.rank = 0
    · simp only [hsize, if_false, hzero, if_true, root, leaves, Exchange.sends, Exchange.takings,
        List.flatMap_nil, List.nil_append, List.append_nil]
      have hgather := path_gather combine value (List.range' 1 (s.size - 1)) (value 0)
      have hspread := path_spread (total s.size combine value) (List.range' 1 (s.size - 1))
      have hlast := hspread.bind (ExceptT.bindCont fun _ : Unit =>
        (pure (total s.size combine value) : Talk UInt64))
      exact hgather.andThen hlast
    · have hanswer : (Talk.ofExcept
          (reduced 0 (Scalar.bytes (total s.size combine value)))).run =
          .done (.ok (total s.size combine value)) := by
        rw [reduced_bytes]
        rfl
      simp only [hsize, if_false, hzero, root, leaves]
      exact .ask (.ask (.ask (hanswer ▸ .refl _)))

theorem total_min {size : Nat} (hsize : 0 < size) (value : Nat → Bool) :
    (total size min (fun rank => if value rank then 1 else 0) != 0) =
    (List.range size).all value := by
  have hfold (ranks : List Nat) (first : Bool) :
      ranks.foldl (fun (sum : UInt64) rank => min sum (if value rank then 1 else 0))
        (if first then 1 else 0) = if first && ranks.all value then 1 else 0 := by
    induction ranks generalizing first with
    | nil => simp
    | cons rank ranks ih =>
      have hmin : min (if first then 1 else 0 : UInt64) (if value rank then 1 else 0) =
          if first && value rank then 1 else 0 := by
        cases first <;> cases value rank <;> rfl
      rw [List.foldl_cons, hmin, ih, List.all_cons, Bool.and_assoc]
  obtain ⟨size, rfl⟩ := Nat.exists_eq_add_one_of_ne_zero (Nat.ne_of_gt hsize)
  rw [total, hfold, List.range_eq_range', List.range'_succ, List.all_cons, Nat.zero_add,
    Nat.add_sub_cancel]
  cases value 0 && (List.range' 1 size).all value <;> rfl

section Concert

variable {t : Traffic} (registry : Nat → Registry)

theorem reducing_concludes (hclear : t.Clear Tag.collective) (combine : UInt64 → UInt64 → UInt64)
    (value : Nat → UInt64) : Concludes t
      (fun rank => (Station.reduce ⟨rank, t.size, registry rank⟩ combine (value rank)).run)
      (reducing t.size value (total t.size combine value)) fun _ =>
      .ok (total t.size combine value) := by
  refine ⟨fun rank hrank => ?_, admits_reducing hclear value (total t.size combine value)⟩
  exact path_reduce combine value (s := ⟨rank, t.size, registry rank⟩) hrank

theorem reduce_concludes (hclear : t.Clear Tag.collective) (combine : UInt64 → UInt64 → UInt64)
    (value : Nat → UInt64) : ∃ es, Concludes t
      (fun rank => (Station.reduce ⟨rank, t.size, registry rank⟩ combine (value rank)).run) es
      fun _ => .ok (total t.size combine value) :=
  ⟨_, reducing_concludes registry hclear combine value⟩

theorem reduceMax_concludes (hclear : t.Clear Tag.collective) (value : Nat → UInt64) :
    ∃ es, Concludes t (fun rank =>
      (Station.reduceMax ⟨rank, t.size, registry rank⟩ (value rank)).run)
      es fun _ => .ok (total t.size max value) :=
  reduce_concludes registry hclear max value

theorem reduceAnd_concludes (hclear : t.Clear Tag.collective) (value : Nat → Bool) :
    ∃ es, Concludes t (fun rank =>
      (Station.reduceAnd ⟨rank, t.size, registry rank⟩ (value rank)).run)
      es fun _ => .ok ((List.range t.size).all value) := by
  obtain ⟨es, hreduce⟩ := reduce_concludes registry hclear min fun k => if value k then 1 else 0
  have hanswer := hreduce.andThen (g := fun _ least => (return least != 0 : Talk Bool))
    (.of_done fun _ _ => rfl)
  refine ⟨_, hanswer.congr (fun _ _ => rfl) fun rank hrank => ?_⟩
  exact congrArg Except.ok (total_min (Nat.zero_lt_of_lt hrank) value)

theorem barrier_concludes (hclear : t.Clear Tag.collective) :
    ∃ es, Concludes t (fun rank => (Station.barrier ⟨rank, t.size, registry rank⟩).run) es
      fun _ => .ok () := by
  obtain ⟨es, hreduce⟩ := reduceMax_concludes registry hclear fun _ => 0
  exact ⟨_, hreduce.andThen (.of_done fun _ _ => rfl)⟩

end Concert

end Station

end HaloIndex
