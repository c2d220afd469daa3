import HaloIndex.Proofs.Rebuild.Damage
import HaloIndex.Proofs.Session.Agreement

namespace HaloIndex

variable {α β : Type}

/-- A fault of the caller: a set that is open for changes, or settings that do not fit. -/
inductive Fault.OfCaller : Fault → Prop where
  | wrongPhase (operation : String) (expected found : Phase) :
    OfCaller (.wrongPhase operation expected found)
  | badSettings (detail : String) : OfCaller (.badSettings detail)

inductive Fault.OfExchange : Fault → Prop where
  | wire {f : Fault} (h : f.OnWire) : OfExchange f
  | communication (rank : Nat) (detail : String) : OfExchange (.communication rank detail)

theorem Fault.OfExchange.not_ofCaller {f : Fault} (h : f.OfExchange) : ¬f.OfCaller := by
  intro hcaller
  cases h with
  | wire hwire => cases hwire <;> cases hcaller
  | communication => cases hcaller

theorem FailsOnWire.ofExchange {x : Except Fault α} (h : FailsOnWire x) :
    FailsOnly Fault.OfExchange x :=
  fun f hf => .wire (h f hf)

namespace Talk

/-- However the requests are answered, a failure is one of these faults or one that was the
answer to a request. -/
def FailsOnly (own : Fault → Prop) (x : Talk α) : Prop :=
  ∀ es f, x.run.Path es (.done (.error f)) → own f ∨ Answered f es

namespace FailsOnly

variable {own : Fault → Prop}

theorem pure (a : α) : FailsOnly own (pure a : Talk α) := by
  intro es f h
  obtain ⟨-, he⟩ := h.of_done
  cases he

theorem ofExcept {x : Except Fault α} (h : HaloIndex.FailsOnly own x) :
    FailsOnly own (Talk.ofExcept x) := by
  intro es f hpath
  obtain ⟨-, he⟩ := hpath.of_done
  exact .inl (h f (Program.done.inj he).symm)

theorem request (r : Request) : FailsOnly own (ExceptT.mk (Program.request r)) := by
  intro es f h
  obtain ⟨answer, more, rfl, hmore⟩ := h.of_ask
  obtain ⟨-, he⟩ := hmore.of_done
  exact .inr ⟨_, List.mem_cons_self .., (Program.done.inj he).symm⟩

theorem bind {x : Talk α} {g : α → Talk β} (h : FailsOnly own x)
    (h' : ∀ a, FailsOnly own (g a)) :
    FailsOnly own (x >>= g) := by
  intro es f hpath
  obtain ⟨g, hg, hfirst⟩ | ⟨a, fs, gs, rfl, -, hlast⟩ := hpath.cases_talk_bind
  · cases hg
    exact h es f hfirst
  · exact (h' a gs f hlast).imp_right fun hin => answered_append.mpr (.inr hin)

theorem send (peer : Nat) (tag : Tag) (payload : List UInt8) :
    FailsOnly own (Talk.send peer tag payload) :=
  bind (request (.post peer tag payload)) fun handle => request (.wait handle)

theorem receive (source : Nat) (tag : Tag) : FailsOnly own (Talk.receive source tag) :=
  request (.receive source tag)

end FailsOnly

end Talk

namespace Station

theorem failsOnly_passOn (s : Station) (tag : Tag) (outgoing : List UInt8) :
    (s.passOn tag outgoing).FailsOnly Fault.OfExchange := by
  unfold passOn
  split
  · exact .bind (.send _ _ _) fun _ => .receive _ _
  · exact .bind (.receive _ _) fun _ => .bind (.send _ _ _) fun _ => .pure _

theorem failsOnly_reduced (sender : Nat) (payload : List UInt8) :
    FailsOnly Fault.OfExchange (reduced sender payload) := by
  unfold reduced
  dsimp only
  split
  · exact .ok _
  · exact .error (.communication ..)

theorem failsOnly_gather (combine : UInt64 → UInt64 → UInt64) (value : UInt64)
    (senders : List Nat) :
    (gather combine value senders).FailsOnly Fault.OfExchange := by
  induction senders generalizing value with
  | nil => exact .pure _
  | cons sender senders ih =>
    refine .bind (.receive _ _) fun payload => ?_
    exact .bind (.ofExcept (failsOnly_reduced sender payload)) fun other => ih _

theorem failsOnly_spread (value : UInt64) (receivers : List Nat) :
    (spread value receivers).FailsOnly Fault.OfExchange := by
  induction receivers with
  | nil => exact .pure _
  | cons receiver receivers ih => exact .bind (.send _ _ _) fun _ => ih

theorem failsOnly_reduceAnd (s : Station) (value : Bool) :
    (s.reduceAnd value).FailsOnly Fault.OfExchange := by
  refine Talk.FailsOnly.bind ?_ fun _ => .pure _
  unfold reduce
  dsimp only
  split
  · exact .pure _
  split
  · refine .bind (failsOnly_gather _ _ _) fun total => ?_
    exact .bind (failsOnly_spread total _) fun _ => .pure _
  · refine .bind (.send _ _ _) fun _ => ?_
    exact .bind (.receive _ _) fun payload => .ofExcept (failsOnly_reduced 0 payload)

end Station

namespace Publication

variable {G A : Type} [Scalar G] [Role A] (registry : Registry)

theorem failsOnWire_encode (p : Publication G A) : FailsOnWire (encode registry p) := by
  have hkey (k : Key G A) : FailsOnWire (encodeKey registry k) :=
    (registry.failsOnWire_packed _).bind fun _ =>
      (registry.failsOnWire_packed _).bind fun _ => .ok _
  apply (registry.failsOnWire_descriptor G).bind
  intro _
  apply (registry.failsOnWire_descriptor UInt8).bind
  intro _
  apply (registry.failsOnWire_descriptor Bool).bind
  intro _
  apply (registry.failsOnWire_descriptor Int32).bind
  intro _
  apply (registry.failsOnWire_packed _).bind
  intro two
  apply (registry.failsOnWire_packedCount _).bind
  intro sourceCount
  apply (registry.failsOnWire_packedCount _).bind
  intro destCount
  exact (Registry.failsOnWire_packedEach hkey _).bind fun _ => .ok _

variable [LT G] [LT A] [DecidableEq G] [DecidableEq A] [DecidableLT G] [DecidableLT A]

omit [DecidableEq A] in
theorem failsOnWire_decode (buffer : List UInt8) :
    FailsOnWire (decode registry buffer : Except Fault (Publication G A)) :=
  Unpack.failsOnWire_whole (inherited_unpack (Unpack.inherited_failsOnWire registry)) buffer

theorem failsOnWire_linksFrom (own : Publication G A) (buffer : List UInt8) (ownKeys : Bool) :
    FailsOnWire (own.linksFrom registry buffer ownKeys) :=
  (failsOnWire_decode registry buffer).bind fun _ => .ok _

variable (s : Station) (tag : Tag) (own : Publication G A)

theorem failsOnly_circulate (origins : List Nat) (outgoing : List UInt8)
    (links : NatMap (Links G A)) :
    (circulate s tag own origins outgoing links).FailsOnly Fault.OfExchange := by
  induction origins generalizing outgoing links with
  | nil => exact .pure _
  | cons origin origins ih =>
    refine .bind (s.failsOnly_passOn tag outgoing) fun incoming => ?_
    exact .bind (.ofExcept (failsOnWire_linksFrom s.registry own incoming false).ofExchange)
      fun found => ih _ _

theorem failsOnly_takeFrom (neighbour : Nat) :
    (takeFrom s tag own neighbour).FailsOnly Fault.OfExchange := by
  refine .bind (.request (.probe _ _)) fun envelope => .bind (.receive _ _) fun payload => ?_
  dsimp only
  split
  · exact .ofExcept (.error (.communication ..))
  · exact .ofExcept (failsOnWire_linksFrom s.registry own payload false).ofExchange

theorem failsOnly_swap (neighbours : List Nat) (message : List UInt8)
    (links : NatMap (Links G A)) :
    (swap s tag own neighbours message links).FailsOnly Fault.OfExchange := by
  intro es f h
  obtain ⟨result, final, hround, he⟩ := round_of_swap h
  have htake : ∀ peer links, True →
      (hearFrom s tag own peer links).Keeps (fun _ => True) Fault.OfExchange := by
    intro peer links _ es r hpath
    refine ⟨trivial, fun f hf => ?_⟩
    obtain ⟨outcome, htaken, houtcome, -⟩ := path_of_hearFrom hpath
    rw [houtcome] at hf
    cases outcome with
    | ok => cases hf
    | error g =>
      cases hf
      exact failsOnly_takeFrom s tag own peer es _ htaken
  have hpack : ∀ e ∈ neighbours.map fun n => (n, (.ok message : Except Fault (List UInt8))), ∀ f,
      e.2 = .error f → f.OfExchange := by
    intro e he f hf
    obtain ⟨n, -, rfl⟩ := List.mem_map.mp he
    cases hf
  cases result with
  | ok => cases he
  | error g =>
    cases he
    exact (Exchange.round_keeps hpack htake trivial es _ hround).2 _ rfl

end Publication

theorem NatMap.eq_empty {m : NatMap β} (h : m.isEmpty = true) : m = .empty := by
  obtain ⟨entries, ascending⟩ := m
  cases List.isEmpty_iff.mp h
  rfl

namespace Rebuild

variable {G A : Type}

def Grounded (b : Rebuild G A) : Prop :=
  b.ends.source.phase = .ground ∧ b.ends.dest.phase = .ground

instance (b : Rebuild G A) : Decidable b.Grounded := inferInstanceAs (Decidable (_ ∧ _))

/-- The table that an exchange begins with: a rank is not its own neighbour. -/
def begun (b : Rebuild G A) (s : Station) : LinkTable G A :=
  { b.table with neighbours := b.neighbours s.rank }

def checked (b : Rebuild G A) (s : Station) : Except Fault Route := do
  b.ends.source.require "rebuild" .ground
  b.ends.dest.require "rebuild" .ground
  (b.begun s).route s.size

variable {b : Rebuild G A} {s : Station} {f : Fault} {u : LinkTable G A}

theorem require_of_not_grounded (h : ¬b.Grounded) : (do
    b.ends.source.require "rebuild" .ground
    b.ends.dest.require "rebuild" .ground : Except Fault Unit) =
      .error (.wrongPhase "rebuild" .ground .resize) := by
  have hopen {set : IndexSet G A} (hset : set.phase ≠ .ground) : set.phase = .resize := by
    cases hphase : set.phase with
    | ground => exact absurd hphase hset
    | resize => rfl
  by_cases hsource : b.ends.source.phase = .ground
  · have hdest : b.ends.dest.phase ≠ .ground := fun hdest => h ⟨hsource, hdest⟩
    rw [IndexSet.require, if_pos hsource, IndexSet.require, if_neg hdest, hopen hdest]
    rfl
  · rw [IndexSet.require, if_neg hsource, hopen hsource]
    rfl

theorem checked_of_grounded (h : b.Grounded) (s : Station) :
    b.checked s = (b.begun s).route s.size := by
  rw [checked, IndexSet.require, if_pos h.1, IndexSet.require, if_pos h.2]
  rfl

theorem checked_of_not_grounded (h : ¬b.Grounded) (s : Station) :
    b.checked s = .error (.wrongPhase "rebuild" .ground .resize) := by
  have hrequire := congrArg (· >>= fun _ => (b.begun s).route s.size) (require_of_not_grounded h)
  rw [bind_assoc] at hrequire
  exact hrequire

/-- What a rebuild is refused for, and the table that it leaves. -/
inductive Refused (b : Rebuild G A) (s : Station) : Fault → LinkTable G A → Prop where
  | resizing (h : ¬b.Grounded) : Refused b s (.wrongPhase "rebuild" .ground .resize) b.table
  | undeclared (hground : b.Grounded) (hsize : 1 < s.size)
      (hneighbours : (b.neighbours s.rank).isEmpty = true)
      (hstrategy : b.table.settings.strategy = .neighbours) :
    Refused b s (.badSettings "neighbour exchange requested without a neighbour set") (b.begun s)
  | ringDisabled (hground : b.Grounded) (hsize : 1 < s.size)
      (hneighbours : (b.neighbours s.rank).isEmpty = true)
      (hstrategy : b.table.settings.strategy = .auto)
      (hring : b.table.settings.allowRing = false) :
    Refused b s (.badSettings "no neighbour set supplied and the ring fallback is disabled")
    (b.begun s)

theorem refused_iff : b.Refused s f u ↔
    b.checked s = .error f ∧ u = if b.Grounded then b.begun s else b.table := by
  constructor
  · intro h
    cases h with
    | resizing hground => exact ⟨checked_of_not_grounded hground s, (if_neg hground).symm⟩
    | undeclared hground hsize hneighbours hstrategy =>
      refine ⟨?_, (if_pos hground).symm⟩
      rw [checked_of_grounded hground, LinkTable.route, if_neg (Nat.not_le.mpr hsize)]
      simp only [begun, hstrategy, hneighbours, if_true]
    | ringDisabled hground hsize hneighbours hstrategy hring =>
      refine ⟨?_, (if_pos hground).symm⟩
      rw [checked_of_grounded hground, LinkTable.route, if_neg (Nat.not_le.mpr hsize)]
      simp [begun, hstrategy, hneighbours, hring]
  · rintro ⟨h, rfl⟩
    by_cases hground : b.Grounded
    · rw [if_pos hground]
      rw [checked_of_grounded hground, LinkTable.route] at h
      split at h
      · cases h
      next hsize =>
        have hsize : 1 < s.size := Nat.lt_of_not_le hsize
        split at h
        · cases h
        next hstrategy =>
          split at h
          next hneighbours =>
            cases h
            exact .undeclared hground hsize hneighbours hstrategy
          next => cases h
        next hstrategy =>
          split at h
          · cases h
          next hneighbours =>
            split at h
            · cases h
            next hring =>
              cases h
              refine .ringDisabled hground hsize ?_ hstrategy ?_
              · simpa [begun] using hneighbours
              · simpa [begun] using hring
    · rw [checked_of_not_grounded hground] at h
      cases h
      rw [if_neg hground]
      exact .resizing hground

theorem begun_eq (h : (b.neighbours s.rank).isEmpty = true) : b.begun s = b.table ∨
    b.table.neighbours.keys = [s.rank] ∧ b.begun s = { b.table with neighbours := .empty } := by
  have hself : ∀ e ∈ b.table.neighbours.entries, e.1 = s.rank := by
    intro e he
    by_contra hne
    have hin : e ∈ (b.neighbours s.rank).entries := List.mem_filter.mpr ⟨he, bne_iff_ne.mpr hne⟩
    rw [List.isEmpty_iff.mp h] at hin
    cases hin
  rw [begun, NatMap.eq_empty h]
  cases hentries : b.table.neighbours.entries with
  | nil =>
    have hnone : b.table.neighbours = .empty := NatMap.eq_empty (List.isEmpty_iff.mpr hentries)
    exact .inl (hnone ▸ rfl)
  | cons e rest =>
    rw [hentries] at hself
    have hnodup := b.table.neighbours.nodup_keys
    rw [NatMap.keys, hentries, List.map_cons, List.nodup_cons] at hnodup
    have hrest : rest = [] := by
      apply List.eq_nil_iff_forall_not_mem.mpr
      intro other hother
      apply hnodup.1
      rw [hself e (List.mem_cons_self ..), ← hself other (List.mem_cons_of_mem _ hother)]
      exact List.mem_map_of_mem hother
    refine .inr ⟨?_, rfl⟩
    rw [NatMap.keys, hentries, hrest, List.map_singleton, hself e (List.mem_cons_self ..)]

/-- A refused rebuild changes nothing but the declared neighbours, and these only if the rank
itself was the only one. -/
theorem Refused.table_eq (h : b.Refused s f u) : u = b.table ∨
    b.table.neighbours.keys = [s.rank] ∧ u = { b.table with neighbours := .empty } := by
  cases h with
  | resizing => exact .inl rfl
  | undeclared _ _ hneighbours => exact begun_eq hneighbours
  | ringDisabled _ _ hneighbours => exact begun_eq hneighbours

variable [Scalar G] [Role A] [LT G] [LT A] [DecidableEq G] [DecidableEq A] [DecidableLT G]
  [DecidableLT A]

theorem program_of_error (h : b.checked s = .error f) :
    b.program s = .done (.error f, if b.Grounded then b.begun s else b.table) := by
  by_cases hground : b.Grounded
  · rw [checked_of_grounded hground, begun, neighbours] at h
    rw [if_pos hground]
    simp only [program, LinkTable.rebuild, IndexSet.require, hground.1, hground.2, if_true, h]
    rfl
  · rw [checked_of_not_grounded hground] at h
    cases h
    rw [if_neg hground, program, LinkTable.rebuild, require_of_not_grounded hground]
    rfl

theorem program_of_ok {route : Route} (h : b.checked s = .ok route) :
    b.program s = (LinkTable.collect s b.ends b.ignorePublic b.table.settings
      (b.neighbours s.rank)
      route).run >>= fun outcome => pure (b.settle s.rank outcome) := by
  by_cases hground : b.Grounded
  · rw [checked_of_grounded hground] at h
    exact program_eq b s hground.1 hground.2 h
  · rw [checked_of_not_grounded hground] at h
    cases h

theorem failsOnly_collect (b : Rebuild G A) (s : Station) (route : Route) :
    (LinkTable.collect s b.ends b.ignorePublic b.table.settings
      (b.neighbours s.rank) route).FailsOnly
      Fault.OfExchange := by
  have hexchange (message : List UInt8) (links : NatMap (Links G A)) :
      (b.exchangeFrom s route message links).FailsOnly Fault.OfExchange := by
    cases route with
    | ring => exact Publication.failsOnly_circulate _ _ _ _ _ _
    | neighbours => exact Publication.failsOnly_swap _ _ _ _ _ _
  unfold LinkTable.collect
  dsimp only
  split
  · exact .pure _
  refine .bind (.ofExcept (Publication.failsOnWire_encode s.registry _).ofExchange)
    fun message => ?_
  split
  · refine .bind (.ofExcept
      (Publication.failsOnWire_linksFrom s.registry _ message _).ofExchange) fun own => ?_
    exact hexchange message _
  · exact hexchange message _

theorem refused_of_path {es : List Event} (hcaller : f.OfCaller) (hanswered : ¬Answered f es)
    (h : (b.program s).Path es (.done (.error f, u))) : es = [] ∧ b.Refused s f u := by
  cases hchecked : b.checked s with
  | error g =>
    rw [program_of_error hchecked] at h
    obtain ⟨rfl, he⟩ := h.of_done
    cases he
    exact ⟨rfl, refused_iff.mpr ⟨hchecked, rfl⟩⟩
  | ok route =>
    rw [program_of_ok hchecked] at h
    obtain ⟨outcome, fs, gs, rfl, hcollect, hlast⟩ := h.of_bind
    obtain ⟨rfl, he⟩ := hlast.of_done
    cases outcome with
    | ok => cases he
    | error g =>
      cases he
      rw [List.append_nil] at hanswered
      rcases failsOnly_collect b s route fs f hcollect with hexchange | hin
      · exact absurd hcaller hexchange.not_ofCaller
      · exact absurd hin hanswered

theorem path_of_refused (h : b.Refused s f u) : b.program s = .done (.error f, u) := by
  obtain ⟨hchecked, rfl⟩ := refused_iff.mp h
  exact program_of_error hchecked

theorem refused_of_ensure {es : List Event} (hcaller : f.OfCaller) (hanswered : ¬Answered f es)
    (h : (b.ensure s).Path es (.done (.error f, u))) :
    (b.vote s).Path es (.done (.ok false)) ∧ b.Refused s f u := by
  rw [ensure_eq] at h
  obtain ⟨outcome, fs, gs, rfl, hvote, hrest⟩ := h.of_bind
  rw [answered_append, not_or] at hanswered
  cases outcome with
  | error g =>
    obtain ⟨rfl, he⟩ := hrest.of_done
    cases he
    rcases s.failsOnly_reduceAnd b.isFresh fs f hvote with hexchange | hin
    · exact absurd hcaller hexchange.not_ofCaller
    · exact absurd hin hanswered.1
  | ok fresh =>
    cases fresh with
    | true =>
      obtain ⟨-, he⟩ := hrest.of_done
      cases he
    | false =>
      obtain ⟨⟨result, table⟩, ts, us, rfl, hprogram, hlast⟩ :=
        Program.Path.of_bind (p := b.program s) hrest
      obtain ⟨rfl, he⟩ := hlast.of_done
      cases result with
      | ok => cases he
      | error g =>
        cases he
        rw [List.append_nil] at hanswered
        obtain ⟨rfl, hrefused⟩ := refused_of_path hcaller hanswered.2 hprogram
        rw [List.append_nil, List.append_nil]
        exact ⟨hvote, hrefused⟩

/-- A rebuild ends with a fault of its caller exactly when it is refused, unless the transport
made it up. Then nothing has been sent for it, whether it was called directly or after a vote,
and the table is as it was, but for a rank that was the only neighbour of itself and is not any
more. -/
theorem rebuild_refused (b : Rebuild G A) (s : Station) {f : Fault} (hcaller : f.OfCaller)
    (u : LinkTable G A) :
    (∀ es, ¬Answered f es →
      ((b.program s).Path es (.done (.error f, u)) ↔ es = [] ∧ b.Refused s f u)) ∧
    (∀ es, ¬Answered f es → ((b.ensure s).Path es (.done (.error f, u)) ↔
      (b.vote s).Path es (.done (.ok false)) ∧ b.Refused s f u)) ∧
    (b.Refused s f u → u = b.table ∨
      b.table.neighbours.keys = [s.rank] ∧ u = { b.table with neighbours := .empty }) := by
  refine ⟨fun es hanswered => ⟨refused_of_path hcaller hanswered, ?_⟩,
    fun es hanswered => ⟨refused_of_ensure hcaller hanswered, ?_⟩, Refused.table_eq⟩
  · rintro ⟨rfl, h⟩
    rw [path_of_refused h]
    exact .refl _
  · rintro ⟨hvote, h⟩
    have hgoes : (b.goBy s (.ok false)).Path [] (.done (.error f, u)) := by
      rw [goBy, path_of_refused h]
      exact .refl _
    rw [ensure_eq, ← List.append_nil es]
    exact hvote.andThen hgoes

def ownNeighbour : Rebuild UInt64 MeshRole where
  table := .withSettings { strategy := .neighbours } (.ofRanks [0])
  ends := .one .empty
  ignorePublic := false

/-- Every request is granted, and the other ranks vote for a rebuild. -/
def outvoted : (r : Request) → r.Answer
  | .post peer _ _ => .ok ⟨peer⟩
  | .wait _ => .ok ()
  | .probe _ _ => .ok ⟨1, 8⟩
  | .receive _ _ => .ok (Scalar.bytes (0 : UInt64))
  | .queued => .ok 0

theorem rebuild_refused_ownNeighbour :
    ∃ (f : Fault) (u : LinkTable UInt64 MeshRole) (es : List Event),
      f.OfCaller ∧ (ownNeighbour.program ⟨0, 2, .basic⟩).Path [] (.done (.error f, u)) ∧
      (ownNeighbour.ensure ⟨0, 2, .basic⟩).Path es (.done (.error f, u)) ∧
      (ownNeighbour.vote ⟨0, 2, .basic⟩).Path es (.done (.ok false)) ∧
      u = { ownNeighbour.table with neighbours := .empty } := by
  obtain ⟨es, hvote, hgranted⟩ := Program.path_under outvoted (ownNeighbour.vote ⟨0, 2, .basic⟩)
  have hrefused : ownNeighbour.Refused ⟨0, 2, .basic⟩
      (.badSettings "neighbour exchange requested without a neighbour set")
        (ownNeighbour.begun ⟨0, 2, .basic⟩) :=
    .undeclared ⟨rfl, rfl⟩ (by decide) (by decide) rfl
  have hanswered : ¬Answered
      (.badSettings "neighbour exchange requested without a neighbour set") es := by
    rintro ⟨e, he, hanswer⟩
    rw [hgranted e he] at hanswer
    cases hrequest : e.request <;> rw [hrequest] at hanswer <;> cases hanswer
  obtain ⟨hprogram, hensure, htable⟩ :=
    rebuild_refused ownNeighbour ⟨0, 2, .basic⟩ (.badSettings _)
    (ownNeighbour.begun ⟨0, 2, .basic⟩)
  refine ⟨_, _, es, .badSettings _, (hprogram [] ?_).mpr ⟨rfl, hrefused⟩,
    (hensure es hanswered).mpr ⟨hvote, hrefused⟩, hvote, ?_⟩
  · rintro ⟨e, he, -⟩
    cases he
  · exact ((htable hrefused).resolve_left (by decide)).2

/-- The rank is struck from its neighbours although the rebuild is refused. -/
theorem refused_forgets_neighbour : ∃ (f : Fault) (u : LinkTable UInt64 MeshRole),
    ownNeighbour.program ⟨0, 2, .basic⟩ = .done (.error f, u) ∧ f.OfCaller ∧
      ownNeighbour.table.neighbours.keys = [0] ∧ u.neighbours.keys = [] := by
  exact ⟨_, _, rfl, .badSettings _, rfl, rfl⟩

end Rebuild

end HaloIndex
