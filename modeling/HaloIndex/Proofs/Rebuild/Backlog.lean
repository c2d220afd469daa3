import HaloIndex.Proofs.Rebuild.Routes
import HaloIndex.Proofs.Transport.Backlog
import HaloIndex.Transport.Disruption

namespace HaloIndex

variable {G A : Type} [Scalar G] [Role A] [LT G] [LT A] [DecidableEq G] [DecidableEq A]
  [DecidableLT G] [DecidableLT A]

namespace Publication

open Exchange

def takeIn (own : Publication G A) (r : Registry) (message : Nat → List UInt8) (peer : Nat)
    (links : NatMap (Links G A)) : Except Fault Unit × NatMap (Links G A) :=
  match own.linksFrom r (message peer) false with
  | .ok found => (.ok (), enter links peer found)
  | .error f => (.error f, links)

def takeAllIn (own : Publication G A) (r : Registry) (message : Nat → List UInt8)
    (peers : List Nat) (links : NatMap (Links G A)) : Except Fault (NatMap (Links G A)) :=
  let (outcome, links) := Discovery.forEach (own.takeIn r message) peers links
  outcome.map fun _ => links

variable {own : Publication G A} {r : Registry} {message : Nat → List UInt8} {peers : List Nat}
  {links links' : NatMap (Links G A)}

theorem takeAllIn_cons (peer : Nat) : own.takeAllIn r message (peer :: peers) links =
    own.linksFrom r (message peer) false >>= fun found =>
      own.takeAllIn r message peers (enter links peer found) := by
  rw [takeAllIn, Discovery.forEach, takeIn]
  cases own.linksFrom r (message peer) false with
  | error f => rfl
  | ok found => rfl

theorem exists_takeAllIn
    (h : ∀ peer ∈ peers, ∃ found, own.linksFrom r (message peer) false = .ok found)
    (links : NatMap (Links G A)) :
    ∃ links', own.takeAllIn r message peers links = .ok links' := by
  induction peers generalizing links with
  | nil => exact ⟨links, rfl⟩
  | cons peer peers ih =>
    obtain ⟨found, hfound⟩ := h peer (List.mem_cons_self ..)
    rw [takeAllIn_cons, hfound]
    exact ih (fun p hp => h p (List.mem_cons_of_mem _ hp)) _

theorem get?_takeAllIn_of_not_mem
    (h : own.takeAllIn r message peers links = .ok links') {k : Nat} (hk : k ∉ peers) :
    links'.get? k = links.get? k := by
  induction peers generalizing links with
  | nil =>
    cases h
    rfl
  | cons peer peers ih =>
    rw [takeAllIn_cons] at h
    obtain ⟨found, -, h⟩ := ok_of_bind h
    rw [List.mem_cons, not_or] at hk
    obtain ⟨hne, hk⟩ := hk
    rw [ih h hk, get?_enter, if_neg hne]

theorem get?_takeAllIn (h : own.takeAllIn r message peers links = .ok links')
    (hnodup : peers.Nodup) {k : Nat} (hk : k ∈ peers) (hnone : links.get? k = none) :
    own.linksFrom r (message k) false = .ok (links'.get? k) := by
  induction peers generalizing links with
  | nil => cases hk
  | cons peer peers ih =>
    obtain ⟨hpeer, hpeers⟩ := List.nodup_cons.mp hnodup
    rw [takeAllIn_cons] at h
    obtain ⟨found, hfound, h⟩ := ok_of_bind h
    rcases List.mem_cons.mp hk with rfl | hlater
    · rw [hfound, get?_takeAllIn_of_not_mem h hpeer, get?_enter, if_pos rfl, hnone,
        Option.or_none]
    · have hne : k ≠ peer := by
        rintro rfl
        exact hpeer hlater
      apply ih h hpeers hlater
      rw [get?_enter, if_neg hne, hnone]

theorem exists_path_swap (s : Station) (tag : Tag) (own : Publication G A)
    (message : Nat → List UInt8) (peers : List Nat) (bytes : List UInt8)
    (links : NatMap (Links G A)) : ∃ heard, heard <+: peers ∧
      (swap s tag own peers bytes links).run.Path
        (roundUpTo true tag (fun _ => bytes) message peers heard)
        (.done (own.takeAllIn s.registry message peers links)) ∧
      ∀ links', own.takeAllIn s.registry message peers links = .ok links' → heard = peers := by
  have htake : ∀ peer ∈ peers, ∀ links, (hearFrom s tag own peer links).Path
      (taking true tag peer (message peer))
        (.done (own.takeIn s.registry message peer links)) := by
    intro peer _ links
    have hpath := path_takeFrom s tag own peer (message peer)
    rw [takeIn, ← List.append_nil (taking ..)]
    cases hfound : own.linksFrom s.registry (message peer) false with
    | error f =>
      rw [hfound] at hpath
      exact hpath.andThen (.refl _)
    | ok found =>
      rw [hfound] at hpath
      exact hpath.andThen (.refl _)
  obtain ⟨heard, hstart, hround, hall⟩ := exists_path_round (fun _ => bytes) htake links
  rw [takeAllIn]
  generalize Discovery.forEach (own.takeIn s.registry message) peers links = r at hround hall
  obtain ⟨outcome, links'⟩ := r
  have hlast := (hround.bind fun r => pure (Except.ok r)).andThen
    (f := ExceptT.bindCont fun r => do Talk.ofExcept r.1; return r.2) (.refl _)
  rw [List.append_nil] at hlast
  refine ⟨heard, hstart, ?_⟩
  cases outcome with
  | error f => exact ⟨hlast, nofun⟩
  | ok => exact ⟨hlast, fun _ _ => hall rfl⟩

end Publication

namespace Rebuild

open Exchange Traffic

def endingWith (b : Rebuild G A) (r : Registry) (rank : Nat) (message : Nat → List UInt8) :
    Except Fault Unit × LinkTable G A :=
  b.settle rank (b.published.takeAllIn r message (b.neighbours rank).keys (b.loopBack rank))

theorem exists_of_endingWith {b : Rebuild G A} {r : Registry} {rank : Nat}
    {message : Nat → List UInt8} (h : (b.endingWith r rank message).1 = .ok ()) : ∃ links,
      b.published.takeAllIn r message (b.neighbours rank).keys (b.loopBack rank) = .ok links ∧
        b.endingWith r rank message = b.settle rank (.ok links) := by
  rw [endingWith] at h ⊢
  cases htake : b.published.takeAllIn r message (b.neighbours rank).keys (b.loopBack rank) with
  | error f =>
    rw [htake] at h
    cases h
  | ok links => exact ⟨links, rfl, rfl⟩

/-- How it ends on a rank that takes the oldest message there is from each neighbour, once these
have posted theirs. -/
def endingWithOldest (n : Network) (registry : Nat → Registry) (tag : Tag)
    (b : Nat → Rebuild G A) (bytes : Nat → List UInt8) (rank : Nat) :
    Except Fault Unit × LinkTable G A :=
  (b rank).endingWith (registry rank) rank fun k => oldest n.traffic ⟨k, rank, tag⟩ (bytes k)

/-- What a rank makes of the oldest message of another, once that has posted what it
publishes. -/
def madeOfOldest (n : Network) (registry : Nat → Registry) (tag : Tag) (b : Nat → Rebuild G A)
    (rank k : Nat) : Except Fault (Option (Links G A)) := do
  let bytes ← (b k).published.encode (registry k)
  (b rank).published.linksFrom (registry rank) (oldest n.traffic ⟨k, rank, tag⟩ bytes) false

variable [LawfulScalar G] [LawfulRole A] {size : Nat} {registry : Nat → Registry} {tag : Tag}
  {b : Nat → Rebuild G A} {rank : Nat}

theorem exists_path_collect (h : Rebuilds size registry tag .neighbours b) (hrank : rank < size)
    {bytes : List UInt8} (hpack : ¬(size = 1 ∧ (b rank).wantsSelf = false) →
      (b rank).published.encode (registry rank) = .ok bytes) (message : Nat → List UInt8) :
    ∃ heard, heard <+: ((b rank).neighbours rank).keys ∧
      (LinkTable.collect ⟨rank, size, registry rank⟩ (b rank).ends (b rank).ignorePublic
        (b rank).table.settings ((b rank).neighbours rank) .neighbours).run.Path
        (roundUpTo true tag (fun _ => bytes) message ((b rank).neighbours rank).keys heard)
        (.done ((b rank).published.takeAllIn (registry rank) message
          ((b rank).neighbours rank).keys
          ((b rank).loopBack rank))) ∧
      ∀ links, (b rank).published.takeAllIn (registry rank) message
        ((b rank).neighbours rank).keys
        ((b rank).loopBack rank) = .ok links → heard = ((b rank).neighbours rank).keys := by
  by_cases hquits : size = 1 ∧ (b rank).wantsSelf = false
  · obtain ⟨rfl, hself⟩ := hquits
    obtain rfl : rank = 0 := Nat.lt_one_iff.mp hrank
    refine ⟨[], List.nil_prefix, ?_, fun _ _ => (keys_neighbours_eq_nil h).symm⟩
    rw [keys_neighbours_eq_nil h, loopBack, hself, LinkTable.collect]
    rw [wantsSelf] at hself
    simp only [hself]
    exact .refl _
  · let s : Station := ⟨rank, size, registry rank⟩
    have heq := collect_eq (b rank) s .neighbours (h.speaks rank hrank) hquits (hpack hquits)
    rw [h.tag rank hrank] at heq
    rw [heq]
    exact Publication.exists_path_swap s tag (b rank).published message _ bytes _

theorem exists_path_program (h : Rebuilds size registry tag .neighbours b) (hrank : rank < size)
    {bytes : List UInt8} (hpack : ¬(size = 1 ∧ (b rank).wantsSelf = false) →
      (b rank).published.encode (registry rank) = .ok bytes) (message : Nat → List UInt8) :
    ∃ heard, heard <+: ((b rank).neighbours rank).keys ∧
      ((b rank).program ⟨rank, size, registry rank⟩).Path
        (roundUpTo true tag (fun _ => bytes) message ((b rank).neighbours rank).keys heard)
        (.done ((b rank).endingWith (registry rank) rank message)) ∧
      (((b rank).endingWith (registry rank) rank message).1 = .ok () →
        heard = ((b rank).neighbours rank).keys) := by
  obtain ⟨heard, hstart, hpath, hall⟩ := exists_path_collect h hrank hpack message
  refine ⟨heard, hstart, ?_, fun hok => ?_⟩
  · rw [program_eq (b rank) ⟨rank, size, registry rank⟩ (h.sourceAtRest rank hrank)
      (h.destAtRest rank hrank) (h.onRoute rank hrank)]
    exact hpath.bind fun outcome => pure ((b rank).settle rank outcome)
  · obtain ⟨links, hlinks, -⟩ := exists_of_endingWith hok
    exact hall links hlinks

/-- The messages that the ranks have for their neighbours, and how each of them ends with what it
takes. -/
structure Backlogged (n : Network) (registry : Nat → Registry) (tag : Tag)
    (b : Nat → Rebuild G A) (bytes : Nat → List UInt8) (u : Traffic) : Prop where
  packed : ∀ rank < n.size, ¬(n.size = 1 ∧ (b rank).wantsSelf = false) →
    (b rank).published.encode (registry rank) = .ok (bytes rank)
  foretold : ∃ log, Foretold n (fun rank => (b rank).program ⟨rank, n.size, registry rank⟩) log u
    (endingWithOldest n registry tag b bytes)
  left : (∀ rank < n.size, (endingWithOldest n registry tag b bytes rank).1 = .ok ()) →
    ∀ rank < n.size, ∀ k ∈ ((b rank).neighbours rank).keys,
      u.queue ⟨k, rank, tag⟩ = (n.channel k rank tag ++ [bytes k]).tail

theorem exists_backlogged {n : Network} (h : Rebuilds n.size registry tag .neighbours b) :
    ∃ bytes u, Backlogged n registry tag b bytes u := by
  obtain ⟨bytes, hbytes⟩ := exists_message h
  -- How far a rank gets depends on what it takes, which is known before any order of the ranks
  -- is.
  choose! heard hstart hpath hall using fun rank (hrank : rank < n.size) =>
    exists_path_program h hrank (hbytes rank hrank)
      fun k => oldest n.traffic ⟨k, rank, tag⟩ (bytes k)
  have hpeers : Neighbourly n.traffic.size fun rank => ((b rank).neighbours rank).keys :=
    h.neighbourly rfl
  obtain ⟨u, hadmits⟩ := admits_backlog hpeers true (fun rank _ => bytes rank) hstart
  refine ⟨bytes, u, hbytes, ?_, fun hok rank hrank k hk => ?_⟩
  · obtain ⟨log, hserves, hlog⟩ := hadmits
    exact ⟨log, hserves, fun rank hrank => hlog rank hrank ▸ hpath rank hrank⟩
  · have hheard := hall rank hrank (hok rank hrank)
    exact queue_of_admits hpeers hadmits hrank (hstart rank hrank) (hheard ▸ hk)

/-- A rank has taken the oldest message there was from another for what that publishes, and
whatever else there was has moved up by one. -/
structure TookOldest (n m : Network) (registry : Nat → Registry) (tag : Tag)
    (b : Nat → Rebuild G A) (rank k : Nat) (t : LinkTable G A) : Prop where
  made : madeOfOldest n registry tag b rank k = .ok (t.linksTo k)
  outdated : ∀ (c : Rebuild G A) (r : Registry) (bytes : List UInt8),
    c.published.encode r = .ok bytes →
    (n.channel k rank tag).head? = some bytes → (b rank).Exact c t k
  current : n.channel k rank tag = [] → (b rank).Exact (b k) t k
  left : ∃ bytes, (b k).published.encode (registry k) = .ok bytes ∧
    m.channel k rank tag = (n.channel k rank tag ++ [bytes]).tail

variable [IsStrictTotalOrder G (· < ·)] [IsStrictTotalOrder A (· < ·)]

theorem tookOldest {n m : Network} (h : Prepared n.size registry tag .neighbours b)
    (hrank : rank < n.size) {k : Nat} (hk : k ∈ ((b rank).neighbours rank).keys)
    {bytes : Nat → List UInt8} (hpack : (b k).published.encode (registry k) = .ok (bytes k))
    {links : NatMap (Links G A)} (htake : (b rank).published.takeAllIn (registry rank)
      (fun peer => oldest n.traffic ⟨peer, rank, tag⟩ (bytes peer))
      ((b rank).neighbours rank).keys
      ((b rank).loopBack rank) = .ok links)
    (hleft : m.channel k rank tag = (n.channel k rank tag ++ [bytes k]).tail) :
    TookOldest n m registry tag b rank k ((b rank).settle rank (.ok links)).2 := by
  have hnodup := (h.neighbourly rfl).nodup rank hrank
  have hself := get?_loopBack (b rank) (mem_keys_neighbours.mp hk).1
  have hmade : (b rank).published.linksFrom (registry rank)
      (oldest n.traffic ⟨k, rank, tag⟩ (bytes k)) false =
        .ok (((b rank).settle rank (.ok links)).2.linksTo k) :=
    Publication.get?_takeAllIn htake hnodup hk hself
  have hordered :=
    ordered_published (h.source rank hrank).ascending (h.dest rank hrank).ascending
  have hexact : ∀ (c : Rebuild G A) (r : Registry), c.published.encode r =
      .ok (oldest n.traffic ⟨k, rank, tag⟩ (bytes k)) →
        (b rank).Exact c ((b rank).settle rank (.ok links)).2 k := by
    intro c r hc
    rw [Publication.linksFrom_encode (h.speaks rank hrank) hc] at hmade
    exact exact_of_found hordered (Except.ok.inj hmade).symm
  constructor
  case made =>
    rw [madeOfOldest, hpack]
    exact hmade
  case outdated =>
    intro c r older hc hhead
    apply hexact c r
    rw [hc, oldest, List.headD_eq_head?_getD]
    change _ = Except.ok ((n.channel k rank tag).head?.getD _)
    rw [hhead, Option.getD_some]
  case current =>
    intro hempty
    apply hexact (b k) (registry k)
    rw [hpack, oldest]
    change _ = Except.ok ((n.channel k rank tag).headD _)
    rw [hempty, List.headD_nil]
  case left => exact ⟨bytes k, hpack, hleft⟩

section Behind

omit [LawfulScalar G] [LawfulRole A] [IsStrictTotalOrder G (· < ·)]
  [IsStrictTotalOrder A (· < ·)]

theorem eq_drop_of_moves {α : Type} (xs : Nat → List α) {x : Nat → α} {rounds : Nat}
    (h : ∀ i < rounds, xs (i + 1) = (xs i ++ [x i]).tail) {i : Nat} (hi : i ≤ rounds) :
    xs i = (xs 0 ++ (List.range i).map x).drop i := by
  induction i with
  | zero => simp
  | succ i ih =>
    have hlength : i ≤ (xs 0 ++ (List.range i).map x).length := by simp
    rw [h i hi, ih (Nat.le_of_succ_le hi), ← List.drop_append_of_le_length hlength,
      List.tail_drop, List.append_assoc, List.range_succ, List.map_append, List.map_singleton]

/-- However many rebuilds follow each other, a rank never catches up: if messages of a neighbour
were left when the first of them began, it is always linked to what the neighbour published as
many rebuilds ago. -/
theorem exact_behind {n : Nat → Network} {registry : Nat → Nat → Registry}
    {b : Nat → Nat → Rebuild G A} {k rounds : Nat} {tables : Nat → LinkTable G A}
    (h : ∀ i < rounds,
      TookOldest (n i) (n (i + 1)) (registry i) tag (b i) rank k (tables i)) {i delay : Nat}
    (hdelay : ((n 0).channel k rank tag).length = delay) (hi : i + delay < rounds) :
    (b (i + delay) rank).Exact (b i k) (tables (i + delay)) k := by
  choose! bytes hpack hmoves using fun i hi => (h i hi).left
  -- At the beginning of the later rebuild the queue holds what was published from the earlier
  -- one on.
  have hqueue := eq_drop_of_moves (fun i => (n i).channel k rank tag) hmoves (Nat.le_of_lt hi)
  rcases Nat.eq_zero_or_pos delay with hnone | hsome
  · subst hnone
    apply (h _ hi).current
    rw [hqueue, List.length_eq_zero_iff.mp hdelay]
    simp
  · apply (h _ hi).outdated _ _ _ (hpack i (by omega))
    rw [hqueue, List.head?_drop, List.getElem?_append_right (by omega), hdelay,
      Nat.add_sub_cancel, List.getElem?_map, List.getElem?_range (by omega)]
    rfl

end Behind

def AllTookOldest (n : Network) (registry : Nat → Registry) (tag : Tag) (b : Nat → Rebuild G A)
    (q : Pool (Except Fault Unit × LinkTable G A)) : Prop :=
  ∃ tables : Nat → LinkTable G A,
    q.results = (List.range n.size).map (fun rank => (.ok (), tables rank)) ∧
      ∀ rank < n.size, ∀ k ∈ ((b rank).neighbours rank).keys,
        TookOldest n q.network registry tag b rank k (tables rank)

theorem Backlogged.allTookOldest {n : Network} {bytes : Nat → List UInt8} {u : Traffic}
    (hlog : Backlogged n registry tag b bytes u) (h : Prepared n.size registry tag .neighbours b)
    (hok : ∀ rank < n.size, (endingWithOldest n registry tag b bytes rank).1 = .ok ())
    {q : Pool (Except Fault Unit × LinkTable G A)}
    (hresults : q.results = (List.range n.size).map (endingWithOldest n registry tag b bytes))
    (htraffic : q.network.traffic = u) : AllTookOldest n registry tag b q := by
  choose! links htake hending using fun rank hrank => exists_of_endingWith (hok rank hrank)
  refine ⟨fun rank => ((b rank).settle rank (.ok (links rank))).2, ?_, fun rank hrank k hk => ?_⟩
  · rw [hresults]
    exact List.map_congr_left fun rank hrank => hending rank (List.mem_range.mp hrank)
  · have hlt := (h.neighbourly rfl).lt rank hrank k hk
    have hne := (mem_keys_neighbours.mp hk).1
    have hpack := hlog.packed k hlt fun hquits => by omega
    have hleft := hlog.left hok rank hrank k hk
    rw [← htraffic] at hleft
    exact tookOldest h hrank hk hpack (htake rank hrank) hleft

/-- If all ranks end a rebuild with their neighbours well, whatever was on its way when they
began, each of them has taken the oldest message there was from each neighbour for what that
publishes; so the links are the right ones if there was none. The ranks do end well if these
messages can be understood, however they are interleaved. -/
theorem neighbour_rebuild_backlog {n : Network}
    (h : Prepared n.size registry tag .neighbours b) :
    (∀ q, Relation.ReflTransGen Pool.Step (beginning n registry b) q →
      (∀ task ∈ q.tasks, ∃ r, task.program = .done r ∧ r.1 = .ok ()) →
      AllTookOldest n registry tag b q) ∧
    (Countable n.size b →
      (∀ rank < n.size, ∀ k ∈ ((b rank).neighbours rank).keys,
        ∃ found, madeOfOldest n registry tag b rank k = .ok found) →
      (beginning n registry b).Inevitable (AllTookOldest n registry tag b)) := by
  constructor
  · intro q hq hdone
    obtain ⟨bytes, u, hlog⟩ := exists_backlogged (h.rebuilds (countable_of_done h hq hdone))
    obtain ⟨log, hforetold⟩ := hlog.foretold
    obtain ⟨hresults, -, htraffic⟩ := (hforetold.inevitable.stops q hq).resolve_left
      (Pool.not_step_of_done fun task htask => (hdone task htask).imp fun _ h => h.1)
    refine hlog.allTookOldest h (fun rank hrank => ?_) hresults htraffic
    apply Pool.ended_of_mem_results hdone
    rw [hresults]
    exact List.mem_map_of_mem (List.mem_range.mpr hrank)
  · intro hfits hreadable
    obtain ⟨bytes, u, hlog⟩ := exists_backlogged (h.rebuilds hfits)
    obtain ⟨log, hforetold⟩ := hlog.foretold
    refine hforetold.inevitable.mono fun q hq =>
      hlog.allTookOldest h (fun rank hrank => ?_) hq.1 hq.2.2
    have hfound : ∀ peer ∈ ((b rank).neighbours rank).keys, ∃ found, (b rank).published.linksFrom
        (registry rank) (oldest n.traffic ⟨peer, rank, tag⟩ (bytes peer)) false = .ok found := by
      intro peer hpeer
      have hlt := (h.neighbourly rfl).lt rank hrank peer hpeer
      have hne := (mem_keys_neighbours.mp hpeer).1
      have hmade := hreadable rank hrank peer hpeer
      rw [madeOfOldest, hlog.packed peer hlt fun hquits => by omega] at hmade
      exact hmade
    obtain ⟨links, hlinks⟩ := Publication.exists_takeAllIn hfound ((b rank).loopBack rank)
    rw [endingWithOldest, endingWith, hlinks]
    rfl

/-- Two ranks that declare each other; the second has deleted what the first shares with it, or
not. -/
def twoRanks (deleted : Bool) (rank : Nat) : Rebuild UInt64 MeshRole where
  table := { neighbours := .ofRanks [1 - rank] }
  ends := .one { holdings := match rank, deleted with
    | 0, _ => [⟨1, .valid 0 .owner true⟩]
    | _ + 1, false => [⟨1, .valid 0 .overlap true⟩]
    | _ + 1, true => [] }
  ignorePublic := false

def unheard : Pool ((Except Fault Unit × LinkTable UInt64 MeshRole) × Nat) :=
  .ofRanks (.quiet 2) fun rank => ((twoRanks false rank).program ⟨rank, 2, .basic⟩).disrupted
    { failPost := if rank = 0 then some 1 else none } 0

/-- A rebuild that fails on both ranks because the first cannot send to the second. -/
def unsent : Pool ((Except Fault Unit × LinkTable UInt64 MeshRole) × Nat) := unheard.run

theorem unsent_eq : unsent = unheard.steps 3 := Pool.run_eq_steps 3 (by decide +kernel)

theorem size_unsent : unsent.network.size = 2 := by
  rw [unsent_eq]
  decide +kernel

theorem prepared_twoRanks :
    Prepared unsent.network.size (fun _ => .basic) .rebuild .neighbours (twoRanks true) := by
  rw [size_unsent]
  have hrest : ∀ rank, (twoRanks true rank).ends.source.AtRest := by
    intro rank
    match rank with
    | 0 => exact ⟨rfl, List.pairwise_singleton ..⟩
    | _ + 1 => exact ⟨rfl, List.Pairwise.nil⟩
  constructor
  case speaks => exact fun _ _ => ⟨⟨rfl, rfl, rfl⟩, rfl⟩
  case source => exact fun rank _ => hrest rank
  case dest => exact fun rank _ => hrest rank
  case onRoute => decide
  case tag => exact fun _ _ => rfl
  case neighbourly => exact fun _ => ⟨by decide, by decide, by decide⟩

theorem channels_unsent : (unsent.network.channel 1 0 .rebuild).length = 1 ∧
    unsent.network.channel 0 1 .rebuild = [] := by
  rw [unsent_eq]
  decide +kernel

theorem made_unsent :
    madeOfOldest unsent.network (fun _ => .basic) .rebuild (twoRanks true) 0 1 =
      .ok (some (.shared [⟨1, .owner, .overlap⟩])) ∧
    madeOfOldest unsent.network (fun _ => .basic) .rebuild (twoRanks true) 1 0 = .ok none := by
  rw [unsent_eq]
  decide +kernel

theorem readable_unsent :
    ∀ rank < unsent.network.size, ∀ k ∈ ((twoRanks true rank).neighbours rank).keys,
    ∃ found, madeOfOldest unsent.network (fun _ => .basic) .rebuild (twoRanks true) rank k =
    .ok found := by
  rw [size_unsent]
  intro rank hrank k hk
  match rank, hrank with
  | 0, _ =>
    obtain rfl : k = 1 := List.mem_singleton.mp hk
    exact ⟨_, made_unsent.1⟩
  | 1, _ =>
    obtain rfl : k = 0 := List.mem_singleton.mp hk
    exact ⟨_, made_unsent.2⟩

theorem countable_unsent : Countable unsent.network.size (twoRanks true) := by
  rw [size_unsent]
  decide

theorem neighbour_rebuild_backlog_unsent :
    (beginning unsent.network (fun _ => .basic) (twoRanks true)).Inevitable fun q =>
      ∃ first second, q.results = [(.ok (), first), (.ok (), second)] ∧
        first.linksTo 1 = some (.shared [⟨1, .owner, .overlap⟩]) ∧
        (twoRanks true 1).Exact (twoRanks true 0) second 0 ∧
        (q.network.channel 1 0 .rebuild).length = 1 := by
  obtain ⟨-, hinevitable⟩ := neighbour_rebuild_backlog prepared_twoRanks
  refine (hinevitable countable_unsent readable_unsent).mono ?_
  rintro q ⟨tables, hresults, htook⟩
  rw [size_unsent] at hresults htook
  have hfirst := htook 0 (by decide) 1 (by decide)
  have hsecond := htook 1 (by decide) 0 (by decide)
  have hlinks := Except.ok.inj (made_unsent.1.symm.trans hfirst.made)
  obtain ⟨bytes, -, hleft⟩ := hfirst.left
  refine ⟨tables 0, tables 1, hresults, hlinks.symm, hsecond.current channels_unsent.2, ?_⟩
  rw [hleft, List.length_tail, List.length_append, channels_unsent.1]
  rfl

/-- After the failed rebuild both ranks end the next one well, and the first is still linked to
what the second has deleted. -/
theorem neighbour_rebuild_outdated :
    unsent.results.map (·.1.1) =
        [.error (.communication 1 "injected send failure"), .error (.timedOut 0)] ∧
      ∃ first second, (beginning unsent.network (fun _ => .basic) (twoRanks true)).run.results =
          [(.ok (), first), (.ok (), second)] ∧
        ¬(twoRanks true 0).Exact (twoRanks true 1) first 1 := by
  refine ⟨by rw [unsent_eq]; decide +kernel, ?_⟩
  have hends : (beginning unsent.network (fun _ => .basic) (twoRanks true)).run.results.map
      (fun r => (r.1, r.2.sendTo 1)) = [(.ok (), [⟨1, .owner, .overlap⟩]), (.ok (), [])] := by
    rw [Pool.run_eq_steps 8 (by rw [unsent_eq]; decide +kernel), unsent_eq]
    decide +kernel
  generalize (beginning unsent.network (fun _ => .basic) (twoRanks true)).run.results =
    results at hends
  obtain ⟨⟨outcome, first⟩, rest, rfl, hfirst, hrest⟩ := List.map_eq_cons_iff.mp hends
  obtain ⟨⟨outcome', second⟩, rest, rfl, hsecond, hnil⟩ := List.map_eq_cons_iff.mp hrest
  obtain rfl := List.map_eq_nil_iff.mp hnil
  obtain ⟨rfl, hlinks⟩ := Prod.mk.inj hfirst
  obtain rfl := (Prod.mk.inj hsecond).1
  refine ⟨first, second, rfl, fun hexact => ?_⟩
  have hsends := (hexact.send ⟨1, .owner, .overlap⟩).mp (hlinks ▸ List.mem_singleton_self _)
  obtain ⟨holding, hheld, -⟩ := hsends.2
  cases hheld

end Rebuild

end HaloIndex