import HaloIndex.Proofs.Transport.Delivery
import HaloIndex.Proofs.Transport.Reduction
import HaloIndex.Proofs.Transport.Session
import Mathlib.Data.List.Infix
import Mathlib.Order.Bounds.Basic

namespace HaloIndex

inductive Reduction.Outcome where
  | number (value : UInt64)
  | verdict (value : Bool)
  | passed

/-- A reduction of all ranks. What a rank puts in may depend on what the earlier ones came to. -/
inductive Reduction where
  | greatest (value : Nat → List Reduction.Outcome → UInt64)
  | conjunction (value : Nat → List Reduction.Outcome → Bool)
  | barrier

namespace Reduction

def talk (s : Station) (earlier : List Outcome) : Reduction → Talk Outcome
  | greatest value => return .number (← s.reduceMax (value s.rank earlier))
  | conjunction value => return .verdict (← s.reduceAnd (value s.rank earlier))
  | barrier => do
    s.barrier
    return .passed

def perform (c : Reduction) (s : Station) (earlier : List Outcome) :
    Program (Except Fault Outcome × List Outcome) := do
  let outcome ← (c.talk s earlier).run
  return (outcome, earlier ++ outcome.toOption.toList)

def call (size : Nat) (registry : Nat → Registry) (c : Reduction) (rank : Nat) :
    List Outcome → Program (Except Fault Outcome × List Outcome) :=
  c.perform ⟨rank, size, registry rank⟩

def session (size : Nat) (registry : Nat → Registry) (calls : List Reduction) (rank : Nat) :
    Program (List (Except Fault Outcome) × Resident (List Outcome)) :=
  World.inTurn (calls.map fun c => Act.ofState (c.call size registry rank)) { state := [] }

def Meets (size : Nat) (earlier : List Outcome) : Reduction → Outcome → Prop
  | greatest value, .number m => IsGreatest {v | ∃ rank < size, value rank earlier = v} m
  | conjunction value, .verdict b => b = true ↔ ∀ rank < size, value rank earlier = true
  | barrier, .passed => True
  | _, _ => False

section Numbers

def combine : Reduction → UInt64 → UInt64 → UInt64
  | conjunction _ => min
  | _ => max

def carried (earlier : List Outcome) : Reduction → Nat → UInt64
  | greatest value, rank => value rank earlier
  | conjunction value, rank => if value rank earlier then 1 else 0
  | barrier, _ => 0

def read : Reduction → UInt64 → Outcome
  | greatest _, total => .number total
  | conjunction _, total => .verdict (total != 0)
  | barrier, _ => .passed

def total (size : Nat) (earlier : List Outcome) (c : Reduction) : UInt64 :=
  Station.total size c.combine (c.carried earlier)

def result (size : Nat) (earlier : List Outcome) (c : Reduction) : Outcome :=
  c.read (c.total size earlier)

theorem talk_eq (c : Reduction) (s : Station) (earlier : List Outcome) :
    c.talk s earlier = c.read <$> s.reduce c.combine (c.carried earlier s.rank) := by
  cases c with
  | greatest => rfl
  | conjunction value =>
    simp only [talk, Station.reduceAnd, bind_assoc, pure_bind, map_eq_pure_bind]
    rfl
  | barrier =>
    simp only [talk, Station.barrier, bind_assoc, pure_bind, map_eq_pure_bind]
    rfl

theorem max_cases (a b : UInt64) : a ≤ max a b ∧ b ≤ max a b ∧ (max a b = a ∨ max a b = b) := by
  have hmax : max a b = if a ≤ b then b else a := rfl
  rw [hmax]
  split
  next h => exact ⟨h, UInt64.le_refl b, .inr rfl⟩
  next h => exact ⟨UInt64.le_refl a, (UInt64.le_total a b).resolve_left h, .inl rfl⟩

theorem isGreatest_foldl (value : Nat → UInt64) (ranks : List Nat) (first : UInt64) :
    IsGreatest {v | v = first ∨ ∃ rank ∈ ranks, value rank = v}
      (ranks.foldl (fun greatest rank => max greatest (value rank)) first) := by
  induction ranks generalizing first with
  | nil => simp [IsGreatest, upperBounds]
  | cons rank ranks ih =>
    obtain ⟨hmem, hbound⟩ := ih (max first (value rank))
    obtain ⟨hfirst, hvalue, hone⟩ := max_cases first (value rank)
    have hlast := hbound (.inl rfl)
    constructor
    · rcases hmem with heq | ⟨other, hother, heq⟩
      · rcases hone with hone | hone
        · exact .inl (heq.trans hone)
        · exact .inr ⟨rank, List.mem_cons_self .., (heq.trans hone).symm⟩
      · exact .inr ⟨other, List.mem_cons_of_mem _ hother, heq⟩
    · rintro v (rfl | ⟨other, hother, rfl⟩)
      · exact UInt64.le_trans hfirst hlast
      · rcases List.mem_cons.mp hother with rfl | hother
        · exact UInt64.le_trans hvalue hlast
        · exact hbound (.inr ⟨other, hother, rfl⟩)

theorem isGreatest_total {size : Nat} (hsize : 0 < size) (value : Nat → UInt64) :
    IsGreatest {v | ∃ rank < size, value rank = v} (Station.total size max value) := by
  have hranks : {v | ∃ rank < size, value rank = v} =
      {v | v = value 0 ∨ ∃ rank ∈ List.range' 1 (size - 1), value rank = v} := by
    ext v
    constructor
    · rintro ⟨rank, hrank, rfl⟩
      rcases Nat.eq_zero_or_pos rank with rfl | hpos
      · exact .inl rfl
      · exact .inr ⟨rank, List.mem_range'_1.mpr (by omega), rfl⟩
    · rintro (rfl | ⟨rank, hrank, rfl⟩)
      · exact ⟨0, hsize, rfl⟩
      · rw [List.mem_range'_1] at hrank
        exact ⟨rank, by omega, rfl⟩
  rw [hranks]
  exact isGreatest_foldl value _ (value 0)

theorem meets_result {size : Nat} (hsize : 0 < size) (earlier : List Outcome) (c : Reduction) :
    c.Meets size earlier (c.result size earlier) := by
  cases c with
  | greatest value => exact isGreatest_total hsize fun rank => value rank earlier
  | conjunction value =>
    have htotal := Station.total_min hsize fun rank => value rank earlier
    change (Station.total size min (fun rank => if value rank earlier then 1 else 0) != 0) =
      true ↔ _
    rw [htotal, List.all_eq_true]
    simp only [List.mem_range]
  | barrier => trivial

def stage (size : Nat) (earlier : List Outcome) (c : Reduction) : Nat → List Event :=
  Station.reducing size (c.carried earlier) (c.total size earlier)

end Numbers

def outcomes (size : Nat) : List Reduction → List Outcome → List Outcome
  | [], _ => []
  | c :: rest, earlier =>
    c.result size earlier :: outcomes size rest (earlier ++ [c.result size earlier])

def stages (size : Nat) : List Reduction → List Outcome → List (Nat → List Event)
  | [], _ => []
  | c :: rest, earlier =>
    c.stage size earlier :: stages size rest (earlier ++ [c.result size earlier])

theorem length_outcomes (size : Nat) (calls : List Reduction) (earlier : List Outcome) :
    (outcomes size calls earlier).length = calls.length := by
  induction calls generalizing earlier with
  | nil => rfl
  | cons c rest ih => rw [outcomes, List.length_cons, ih, List.length_cons]

theorem length_stages (size : Nat) (calls : List Reduction) (earlier : List Outcome) :
    (stages size calls earlier).length = calls.length := by
  induction calls generalizing earlier with
  | nil => rfl
  | cons c rest ih => rw [stages, List.length_cons, ih, List.length_cons]

theorem meets_outcomes {size : Nat} (hsize : 0 < size) {calls : List Reduction}
    (earlier : List Outcome) {k : Nat} {c : Reduction} {r : Outcome} (hc : calls[k]? = some c)
    (hr : (outcomes size calls earlier)[k]? = some r) :
    c.Meets size (earlier ++ (outcomes size calls earlier).take k) r := by
  induction calls generalizing earlier k with
  | nil => cases hc
  | cons first rest ih =>
    cases k with
    | zero =>
      cases hc
      cases hr
      rw [List.take_zero, List.append_nil]
      exact meets_result hsize earlier c
    | succ k =>
      have hmeets := ih (earlier ++ [first.result size earlier]) hc hr
      rwa [List.append_assoc] at hmeets

section Concert

variable {t : Traffic} {registry : Nat → Registry}

theorem call_concludes (hclear : t.Clear Tag.collective) (c : Reduction)
    (earlier : List Outcome) :
    Concludes t (fun rank => c.call t.size registry rank earlier) (c.stage t.size earlier)
      fun _ => (.ok (c.result t.size earlier), earlier ++ [c.result t.size earlier]) := by
  have hreduce := Station.reducing_concludes registry hclear c.combine (c.carried earlier)
  have hread := hreduce.map fun _ outcome => (outcome.map c.read,
    earlier ++ (outcome.map c.read).toOption.toList)
  refine hread.congr (fun rank _ => ?_) fun _ _ => rfl
  rw [call, perform, talk_eq, ExceptT.run_map, bind_map_left]

theorem proceeds (hclear : t.Clear Tag.collective) (calls : List Reduction)
    (earlier : List Outcome) :
    Proceeds t (calls.map (call t.size registry)) (fun _ => earlier)
      (stages t.size calls earlier)
      ((outcomes t.size calls earlier).map fun r _ => .ok r)
      fun _ => earlier ++ outcomes t.size calls earlier := by
  induction calls generalizing earlier with
  | nil =>
    rw [outcomes, List.append_nil]
    exact .nil _
  | cons c rest ih =>
    have hrest := ih (earlier ++ [c.result t.size earlier])
    rw [List.append_assoc] at hrest
    exact .cons (call_concludes hclear c earlier) hrest

end Concert

/-- The rank is through with this many of its calls. -/
def Returned (stages : List (Nat → List Event)) (log : List (Nat × Event))
    (count rank : Nat) : Prop :=
  eventsIn (stages.take count) rank <+: eventsOf rank log

/-- The rank has done something in its call of this number. -/
def Entered (stages : List (Nat → List Event)) (log : List (Nat × Event))
    (call rank : Nat) : Prop :=
  ∃ e, eventsIn (stages.take call) rank ++ [e] <+: eventsOf rank log

section Order

open Exchange Station

/-- In a reduction every message goes to the lowest rank or comes from it. -/
structure Linked (size source dest : Nat) : Prop where
  source_lt : source < size
  dest_lt : dest < size
  ne : source ≠ dest
  to_or_from : source = 0 ∨ dest = 0

def link (source dest : Nat) : Channel := ⟨source, dest, Tag.collective⟩

/-- On every link goes one message, and the lowest rank sends none before it has taken all that
are meant for it. -/
structure GathersFirst (size : Nat) (es : Nat → List Event) : Prop where
  posted_one : ∀ source dest, Linked size source dest →
    (posted (link source dest) (es source)).length = 1
  taken_one : ∀ source dest, Linked size source dest →
    (taken (link source dest) (es dest)).length = 1
  waits : ∀ before, before <+: es 0 →
    (∀ c, posted c before = []) ∨ ∀ c, taken c before = taken c (es 0)

theorem Linked.up_or_down {size source dest : Nat} (h : Linked size source dest) :
    dest ∈ root source ∧ source ∈ leaves size dest ∧ dest ∉ leaves size source ∧
    source ∉ root dest ∨
      dest ∉ root source ∧ source ∉ leaves size dest ∧ dest ∈ leaves size source ∧
      source ∈ root dest := by
  obtain ⟨hsource, hdest, hne, hroot⟩ := h
  simp only [mem_root, mem_leaves]
  omega

theorem gathersFirst_reducing (size : Nat) (value : Nat → UInt64) (sum : UInt64) :
    GathersFirst size (Station.reducing size value sum) := by
  constructor
  case posted_one =>
    intro source dest h
    rw [Station.reducing, posted_append, posted_append, posted_append, posted_takings,
      posted_takings,
      posted_sends _ _ _ (nodup_root source), posted_sends _ _ _ (nodup_leaves size source)]
    rcases h.up_or_down with ⟨hup, -, hdown, -⟩ | ⟨hup, -, hdown, -⟩ <;> simp [link, hup, hdown]
  case taken_one =>
    intro source dest h
    rw [Station.reducing, taken_append, taken_append, taken_append, taken_sends, taken_sends,
      taken_takings _ _ _ _ (nodup_leaves size dest), taken_takings _ _ _ _ (nodup_root dest)]
    rcases h.up_or_down with ⟨-, hup, -, hdown⟩ | ⟨-, hup, -, hdown⟩ <;> simp [link, hup, hdown]
  case waits =>
    intro before hbefore
    rcases List.prefix_or_prefix_of_prefix hbefore (List.prefix_append ..)
      with hgather | ⟨rest, rfl⟩
    · refine .inl fun c => List.prefix_nil.mp ?_
      have hposted := hgather.filterMap (Event.posted c)
      rwa [← posted, ← posted, posted_append, posted_sends _ _ _ (nodup_root 0),
        posted_takings] at hposted
    · refine .inr fun c => ?_
      have hspread : taken c (sends Tag.collective (Scalar.bytes sum) (leaves size 0) ++
          takings false Tag.collective (fun _ => Scalar.bytes sum) (root 0)) = [] := by
        rw [taken_append, taken_sends]
        rfl
      have hrest : taken c rest = [] := by
        have htaken := ((List.prefix_append_right_inj _).mp hbefore).filterMap (Event.taken c)
        rwa [← taken, ← taken, hspread, List.prefix_nil] at htaken
      rw [Station.reducing, taken_append _ (_ ++ _) rest, taken_append _ (_ ++ _) (_ ++ _),
        hrest, hspread]

theorem length_filterMap_eventsIn {γ : Type} {f : Event → Option γ}
    {stages : List (Nat → List Event)} {rank : Nat}
    (h : ∀ es ∈ stages, ((es rank).filterMap f).length = 1) :
    ((eventsIn stages rank).filterMap f).length = stages.length := by
  induction stages with
  | nil => rfl
  | cons es stages ih =>
    have hrest := ih fun es hes => h es (List.mem_cons_of_mem _ hes)
    rw [eventsIn, List.flatMap_cons, List.filterMap_append, List.length_append,
      h es (List.mem_cons_self ..), List.length_cons, Nat.add_comm]
    exact congrArg (· + 1) hrest

variable {size : Nat} {stages : List (Nat → List Event)} {log : List (Nat × Event)}
  {call rank : Nat}

theorem entered_of_posted {c : Channel} (hone : ∀ es ∈ stages, (posted c (es rank)).length = 1)
    (hturn : eventsOf rank log <+: eventsIn stages rank)
    (hposted : call < (posted c (eventsOf rank log)).length) : Entered stages log call rank := by
  have hnot : ¬eventsOf rank log <+: eventsIn (stages.take call) rank := by
    intro hbefore
    have hle := (hbefore.filterMap (Event.posted c)).length_le
    rw [length_filterMap_eventsIn fun es hes => hone es (List.mem_of_mem_take hes),
      List.length_take] at hle
    exact absurd hposted (by simp only [posted]; omega)
  have htake : eventsIn (stages.take call) rank <+: eventsIn stages rank :=
    (List.take_prefix call stages).flatMap _
  obtain ⟨rest, hrest⟩ := (List.prefix_or_prefix_of_prefix hturn htake).resolve_left hnot
  cases rest with
  | nil =>
    rw [List.append_nil] at hrest
    exact absurd (hrest ▸ List.prefix_rfl) hnot
  | cons e rest => exact ⟨e, rest, by rw [← hrest, List.append_assoc, List.singleton_append]⟩

theorem taken_of_returned {c : Channel} (hone : ∀ es ∈ stages, (taken c (es rank)).length = 1)
    (hcall : call < stages.length) (h : Returned stages log (call + 1) rank) :
    call < (taken c (eventsOf rank log)).length := by
  have hle := (h.filterMap (Event.taken c)).length_le
  rw [length_filterMap_eventsIn fun es hes => hone es (List.mem_of_mem_take hes),
    List.length_take] at hle
  simp only [taken]
  omega

theorem length_posted_le_taken (hstages : ∀ es ∈ stages, GathersFirst size es)
    {before : List Event} (hbefore : before <+: eventsIn stages 0) {leaf other : Nat}
    (hleaf : Linked size 0 leaf) (hother : Linked size other 0) :
    (posted (link 0 leaf) before).length ≤ (taken (link other 0) before).length := by
  induction stages generalizing before with
  | nil =>
    obtain rfl := List.prefix_nil.mp hbefore
    exact Nat.le_refl 0
  | cons es stages ih =>
    have hes := hstages es (List.mem_cons_self ..)
    rw [eventsIn, List.flatMap_cons] at hbefore
    rcases List.prefix_or_prefix_of_prefix hbefore (List.prefix_append ..)
      with hfirst | ⟨rest, rfl⟩
    · rcases hes.waits before hfirst with hnone | hall
      · rw [hnone]
        exact Nat.zero_le _
      · rw [hall, hes.taken_one other 0 hother, ← hes.posted_one 0 leaf hleaf]
        exact (hfirst.filterMap _).length_le
    · rw [List.prefix_append_right_inj] at hbefore
      have hrest := ih (fun es hes => hstages es (List.mem_cons_of_mem _ hes)) hbefore
      rw [posted_append, taken_append, List.length_append, List.length_append,
        hes.posted_one 0 leaf hleaf, hes.taken_one other 0 hother]
      exact Nat.add_le_add_left hrest 1

/-- No rank is through with a call that another has not begun. -/
theorem entered_of_returned {n : Network} (hstages : ∀ es ∈ stages, GathersFirst size es)
    (hcarries : (Network.quiet size).Carries log n)
    (hturn : ∀ rank < size, eventsOf rank log <+: eventsIn stages rank)
    (hcall : call < stages.length) {other : Nat} (hrank : rank < size) (hother : other < size)
    (hne : other ≠ rank) (h : Returned stages log (call + 1) rank) :
    Entered stages log call other := by
  have hsent {source dest : Nat} (hlink : Linked size source dest) :
      (taken (link source dest) (eventsOf dest log)).length ≤
        (posted (link source dest) (eventsOf source log)).length := by
    have hqueue := hcarries.conserve (c := link source dest)
      ((Network.size_quiet size).symm ▸ hlink.dest_lt)
    rw [Network.traffic_quiet, List.nil_append] at hqueue
    have hlength := congrArg List.length hqueue
    rw [List.length_append] at hlength
    exact Nat.le.intro hlength.symm
  have hdirect {source dest : Nat} (hlink : Linked size source dest)
      (htaken : call < (taken (link source dest) (eventsOf dest log)).length) :
      Entered stages log call source :=
    entered_of_posted (fun es hes => (hstages es hes).posted_one source dest hlink)
      (hturn source hlink.source_lt) (Nat.lt_of_lt_of_le htaken (hsent hlink))
  by_cases hroot : other = 0 ∨ rank = 0
  · have hlink : Linked size other rank := ⟨hother, hrank, hne, hroot⟩
    exact hdirect hlink
      (taken_of_returned (fun es hes => (hstages es hes).taken_one _ _ hlink) hcall h)
  · -- Between two leaves the word goes through the lowest rank.
    have hsize : 0 < size := Nat.zero_lt_of_lt hrank
    have hdown : Linked size 0 rank := ⟨hsize, hrank, by omega, .inl rfl⟩
    have hup : Linked size other 0 := ⟨hother, hsize, by omega, .inr rfl⟩
    have htaken := taken_of_returned (fun es hes => (hstages es hes).taken_one _ _ hdown) hcall h
    have hpassed := length_posted_le_taken hstages (hturn 0 hsize) hdown hup
    have hposted := hsent hdown
    exact hdirect hup (by omega)

end Order

theorem gathersFirst_stages (size : Nat) (calls : List Reduction) (earlier : List Outcome) :
    ∀ es ∈ stages size calls earlier, GathersFirst size es := by
  induction calls generalizing earlier with
  | nil => exact nofun
  | cons c rest ih =>
    intro es hes
    rcases List.mem_cons.mp hes with rfl | hes
    · exact gathersFirst_reducing ..
    · exact ih _ es hes

/-- In every interleaving each reduction comes to the same on all ranks, namely to what it
should, with the messages of its own call only and with none left behind; and no rank comes back
from a reduction before all have entered it. -/
theorem reductions_agree (size : Nat) (registry : Nat → Registry) (calls : List Reduction) :
    let results := outcomes size calls []
    let stages := stages size calls []
    Proceeds (Network.quiet size).traffic (calls.map (call size registry)) (fun _ => []) stages
      (results.map fun r _ => .ok r) (fun _ => results) ∧
    Pool.Orderly size (session size registry calls) stages (fun rank =>
      (results.map .ok,
        { state := results, waits := (eventsIn stages rank).countP Program.isWait })) ∧
    results.length = calls.length ∧
    (0 < size → ∀ (k : Nat) (c : Reduction) (r : Outcome), calls[k]? = some c →
      results[k]? = some r →
      c.Meets size (results.take k) r) ∧
    ∀ log q, Pool.Run (.ofRanks (.quiet size) (session size registry calls)) log q →
      ∀ k < calls.length, ∀ rank < size, ∀ other < size, other ≠ rank →
        Returned stages log (k + 1) rank → Entered stages log k other := by
  intro results stages
  have hproceeds : Proceeds (Network.quiet size).traffic (calls.map (call size registry))
      (fun _ => []) stages
      (results.map fun r _ => .ok r) fun _ => results := by
    rw [Network.traffic_quiet]
    exact proceeds (fun _ _ _ _ => rfl) calls []
  have horderly : Pool.Orderly size (session size registry calls) stages fun rank =>
      (results.map .ok,
        { state := results, waits := (eventsIn stages rank).countP Program.isWait }) := by
    have hsession := hproceeds.orderly
    simp only [List.map_map] at hsession
    exact hsession
  refine ⟨hproceeds, horderly, length_outcomes size calls [], ?_, ?_⟩
  · intro hsize k c r hc hr
    exact meets_outcomes hsize [] hc hr
  · intro log q hr k hk rank hrank other hother hne hreturned
    have hstages : k < stages.length := (length_stages size calls []).symm ▸ hk
    exact entered_of_returned (gathersFirst_stages size calls []) hr.carries
      (horderly.inTurn log q hr) hstages hrank hother hne hreturned

def ballot : List Reduction :=
  [.greatest fun rank _ => .ofNat (5 * rank % 7),
    .conjunction fun rank earlier => match earlier with
      | [.number most] => UInt64.ofNat (5 * rank % 7) == most
      | _ => true,
    .barrier, .conjunction fun _ earlier => earlier.length == 3]

theorem reductions_agree_ballot :
    outcomes 3 ballot [] = [.number 5, .verdict false, .passed, .verdict true] ∧
    (∀ rank < 3, UInt64.ofNat (5 * rank % 7) ≤ 5) ∧
    (∀ log q, Pool.Run (.ofRanks (.quiet 3) (session 3 (fun _ => .basic) ballot)) log q →
      (∃ s, Pool.Step q s) ∨ q.network = .quiet 3) ∧
    ∀ log q, Pool.Run (.ofRanks (.quiet 3) (session 3 (fun _ => .basic) ballot)) log q →
      Returned (stages 3 ballot []) log 3 1 → Entered (stages 3 ballot []) log 2 2 := by
  obtain ⟨-, horderly, -, hmeets, hbarrier⟩ := reductions_agree 3 (fun _ => .basic) ballot
  have hresults : outcomes 3 ballot [] =
      [.number 5, .verdict false, .passed, .verdict true] := by rfl
  have hgreatest := hmeets (by decide) 0 _ (.number 5) rfl (by rw [hresults]; rfl)
  refine ⟨hresults, fun rank hrank => hgreatest.2 ⟨rank, hrank, rfl⟩, fun log q hr => ?_,
    fun log q hr => ?_⟩
  · exact (horderly.goesOn log q hr).imp_right fun hend => hend.2.1
  · exact hbarrier log q hr 2 (by decide) 1 (by decide) 2 (by decide) (by decide)

end Reduction

end HaloIndex
