import HaloIndex.Proofs.Sync.ClosedForm
import HaloIndex.Proofs.Wire.Faults

namespace HaloIndex

variable {G A : Type}

/-- A fault that a sync finds before it says anything to anyone. -/
inductive Fault.OfCheck : Fault → Prop where
  | wrongPhase (operation : String) (expected found : Phase) :
    OfCheck (.wrongPhase operation expected found)
  | sharedLinksRequired : OfCheck .sharedLinksRequired
  | staleTable (expectedSource : Nat) (foundSource : Option Nat) (expectedDest : Nat)
      (foundDest : Option Nat) :
    OfCheck (.staleTable expectedSource foundSource expectedDest foundDest)
  | danglingLink (neighbour : Nat) (globalId : String) :
    OfCheck (.danglingLink neighbour globalId)

theorem Fault.OfCheck.ne_duplicateKey {f : Fault} (h : f.OfCheck) (key : String) :
    f ≠ .duplicateKey key := by
  cases h <;> exact nofun

theorem Fault.OnWire.ne_duplicateKey {f : Fault} (h : f.OnWire) (key : String) :
    f ≠ .duplicateKey key := by
  cases h <;> exact nofun

namespace LinkTable

variable [Scalar G] [LT G] [LT A] [DecidableEq G] [DecidableLT G] [DecidableLT A]

theorem failsOnly_checkSyncable (t : LinkTable G A) (set : IndexSet G A) :
    FailsOnly Fault.OfCheck (t.checkSyncable set) := by
  have hrequire : FailsOnly Fault.OfCheck (set.require "sync" .ground) := by
    unfold IndexSet.require
    split
    · exact .ok ()
    · exact .error (.wrongPhase ..)
  have hsynced : FailsOnly Fault.OfCheck (t.checkSynced set set) := by
    unfold checkSynced
    split
    · exact .ok ()
    · exact .error (.staleTable ..)
  apply hrequire.bind
  intro _
  dsimp only
  by_cases hshared : (!t.isShared) = true
  · rw [if_pos hshared]
    exact .error Fault.OfCheck.sharedLinksRequired
  · rw [if_neg hshared]
    apply hsynced.bind
    intro _
    split
    · exact .error (.danglingLink ..)
    · exact .ok ()

end LinkTable

namespace Discovery

def Extends (s : IndexSet G A) (d : Discovery G A) : Prop :=
  ∃ additions pendingKeys, d.set = { s with additions, pendingKeys }

theorem Extends.phase {s : IndexSet G A} {d : Discovery G A} (h : d.Extends s) :
    d.set.phase = s.phase := by
  obtain ⟨additions, pendingKeys, hset⟩ := h
  rw [hset]

section Learning

variable [LT G] [LT A] [DecidableEq G] [DecidableEq A] [DecidableLT G] [DecidableLT A] [Scalar G]
  [Role A] {s : IndexSet G A} {d : Discovery G A}

theorem Extends.hold (h : d.Extends s) (numbering : Numbering G) (key : Key G A) :
    (Discovery.hold numbering key d).2.Extends s := by
  apply hold_keeps
    (P := fun t => ∃ additions pendingKeys, t = { s with additions, pendingKeys }) _ h
  apply IndexSet.add_keeps
    (P := fun t => ∃ additions pendingKeys, t = { s with additions, pendingKeys }) h
  intro _ _
  obtain ⟨additions, pendingKeys, hset⟩ := h
  rw [hset]
  exact ⟨_, _, rfl⟩

theorem Extends.adoptAll (h : d.Extends s) (own sender : Nat) (numbering : Numbering G)
    (as : List (Announcement G A)) : (d.adoptAll own sender numbering as).2.Extends s :=
  adoptAll_keeps (P := fun t => ∃ additions pendingKeys, t = { s with additions, pendingKeys })
    (fun key _ hd => Extends.hold hd numbering key) own sender as h

/-- All is in order, and every link is about a key that is held. -/
structure Backed (d : Discovery G A) : Prop where
  isOpen : d.Open
  held : ∀ rank, ∀ l ∈ d.linksTo rank, d.set.holds l.localKey = true

theorem Backed.adoptAll [IsStrictTotalOrder G (· < ·)] [IsStrictTotalOrder A (· < ·)]
    (h : d.Backed) (own sender : Nat) (numbering : Numbering G) (as : List (Announcement G A)) :
    (d.adoptAll own sender numbering as).2.Backed := by
  have hlearns := (adoptAll_adopts own sender numbering as).learns d h.isOpen
  refine ⟨hlearns.stillOpen, fun rank l hl => ?_⟩
  rw [hlearns.holds]
  rcases (hlearns.linked rank l).mp hl with hold | ⟨a, ha, role, hrole, htells⟩
  · exact .inl (h.held rank l hold)
  · refine .inr ⟨a, ha, role, hrole, ?_⟩
    rcases htells with ⟨-, rfl⟩ | ⟨-, other, -, rfl⟩
    · rfl
    · rfl

end Learning

end Discovery

namespace Sync

theorem abortResize_eq [LT G] [LT A] {s : IndexSet G A} (hs : s.WellFormed)
    (hphase : s.phase = .ground) {d : Discovery G A}
    (h : d.Extends { s with phase := .resize }) : d.set.abortResize = s := by
  obtain ⟨additions, pendingKeys, hset⟩ := h
  obtain ⟨hnone, hvalid⟩ := hs.settled hphase
  have hpending := hs.pendingKeys_eq_nil hphase
  obtain ⟨holdings, additions', pendingKeys', phase, revision⟩ := s
  subst hnone hpending hphase
  rw [hset, IndexSet.abortResize, if_pos rfl, IndexSet.mk.injEq]
  refine ⟨?_, rfl, rfl, rfl, rfl⟩
  rw [List.map_congr_left fun h hh => IndexSet.withState_valid (hvalid h hh), List.map_id']

variable [Scalar G] [LT G] [LT A] [DecidableEq G] [DecidableEq A] [DecidableLT G] [DecidableLT A]

theorem backed_start [IsStrictTotalOrder G (· < ·)] [IsStrictTotalOrder A (· < ·)] {b : Sync G A}
    (hset : b.set.WellFormed) (hcheck : b.table.checkSyncable b.set = .ok ())
    (hlinks : ∀ other, Ascending (b.table.sendTo other)) : b.start.Backed := by
  obtain ⟨hphase, -, -, hheld⟩ := LinkTable.checkSyncable_eq_ok_iff.mp hcheck
  constructor
  case isOpen => exact Tidy.open_start ⟨hset, hlinks⟩
  case held =>
    intro other l hl
    rw [linksTo_start] at hl
    rw [holds_start hset hphase, ← IndexSet.positionOf_isSome_iff hset.ascending]
    exact hheld other l hl

variable [Role A]

/-- A rank that has synced, with a set and a table that fit each other. -/
structure Settled (b : Sync G A) (r : SyncResult G A) : Prop where
  revision : r.set.revision = b.set.revision + 1
  setValid : r.set.validate = .ok ()
  tableValid : r.table.validate = .ok ()
  resolves : ∀ e ∈ r.table.links.entries, ∀ l ∈ e.2.toList, ∃ h, l.holding r.set = .ok h
  shared : r.table.isShared = true
  synced : r.table.isSynced r.set r.set = true

/-- How a sync leaves a rank that brought `b` to it and met with these events. -/
structure Atomic (b : Sync G A) (es : List Event) (r : SyncResult G A) : Prop where
  refused : ∀ f, b.table.checkSyncable b.set = .error f →
    r.outcome = .error f ∧ f.OfCheck ∧ es = [] ∧ r.set = b.set ∧ r.table = b.table
  failed : b.table.checkSyncable b.set = .ok () → ∀ f, r.outcome = .error f →
    (f.OnWire ∨ Answered f es) ∧ r.set = b.set ∧ r.set.phase = .ground ∧ r.set.additions = [] ∧
      r.set.pendingKeys = [] ∧ r.table.links = .empty ∧
      ∀ source dest, r.table.isSynced source dest = false
  noDuplicate : ∀ key, r.outcome = .error (.duplicateKey key) → Answered (.duplicateKey key) es
  succeeded : r.outcome = .ok () → (∀ other, Ascending (b.table.sendTo other)) → Settled b r

theorem atomic_of_refused {b : Sync G A} {f : Fault}
    (hcheck : b.table.checkSyncable b.set = .error f) {s : Station} {settings : SyncSettings}
    {es : List Event} {r : SyncResult G A} (hpath : (b.program s settings).Path es (.done r)) :
    Atomic b es r := by
  have hopen : afterCheck (b.table.checkSyncable b.set) b.set b.set.beginResize =
      (.error f, b.set) := by
    rw [hcheck]
    rfl
  rw [program, LinkTable.sync, LinkTable.syncBy, hopen] at hpath
  obtain ⟨rfl, he⟩ := hpath.of_done
  cases he
  have hfault := LinkTable.failsOnly_checkSyncable b.table b.set f hcheck
  constructor
  case refused =>
    intro g hg
    cases hcheck.symm.trans hg
    exact ⟨rfl, hfault, rfl, rfl, rfl⟩
  case failed =>
    intro hok
    cases hcheck.symm.trans hok
  case noDuplicate =>
    intro key hkey
    cases hkey
    exact absurd rfl (hfault.ne_duplicateKey key)
  case succeeded =>
    intro hok
    cases hok

theorem cases_takeAnnouncements {s : Station} {tag : Tag} {numbering : Numbering G} {peer : Nat}
    {d : Discovery G A} {es : List Event} {r : Except Fault Unit × Discovery G A}
    (h : (LinkTable.takeAnnouncements s tag numbering peer d).Path es (.done r)) :
    (∃ f, es = [⟨.receive peer tag, .error f⟩] ∧ r = (.error f, d)) ∨
    ∃ payload, es = [⟨.receive peer tag, .ok payload⟩] ∧
      ((∃ f, (Announcement.decode s.registry payload : Except Fault (List (Announcement G A))) =
        .error f ∧
          r = (.error f, d)) ∨
        ∃ as, Announcement.decode s.registry payload = .ok as ∧
          r = d.adoptAll s.rank peer numbering as) := by
  obtain ⟨answer, more, rfl, hmore⟩ := h.of_ask
  cases answer with
  | error f =>
    obtain ⟨rfl, he⟩ := hmore.of_done
    exact .inl ⟨f, rfl, Program.done.inj he⟩
  | ok payload =>
    cases hdecode :
        (Announcement.decode s.registry payload : Except Fault (List (Announcement G A))) with
    | error f =>
      simp only [Program.bind, hdecode] at hmore
      obtain ⟨rfl, he⟩ := hmore.of_done
      exact .inr ⟨payload, rfl, .inl ⟨f, hdecode, Program.done.inj he⟩⟩
    | ok as =>
      simp only [Program.bind, hdecode] at hmore
      obtain ⟨rfl, he⟩ := hmore.of_done
      exact .inr ⟨payload, rfl, .inr ⟨as, hdecode, Program.done.inj he⟩⟩

theorem phase_adoptAll {d : Discovery G A} (hd : d.set.phase = .resize) (own sender : Nat)
    (numbering : Numbering G) (as : List (Announcement G A)) :
    (d.adoptAll own sender numbering as).2.set.phase = .resize := by
  apply Discovery.adoptAll_keeps (P := (·.phase = .resize)) _ own sender as hd
  exact fun key d hd => Discovery.hold_keeps (P := (·.phase = .resize))
    (IndexSet.add_keeps (P := (·.phase = .resize)) hd fun h _ => h) hd

theorem exists_settle {b : Sync G A}
    (hcheck : b.table.checkSyncable b.set = .ok ()) {s : Station} {settings : SyncSettings}
    {es : List Event} {r : SyncResult G A} (hpath : (b.program s settings).Path es (.done r)) :
    ∃ outcome d, r = b.settle outcome d ∧ d.set.phase = .resize := by
  rw [program_eq hcheck] at hpath
  obtain ⟨⟨outcome, d⟩, fs, gs, -, hround, hlast⟩ := hpath.of_bind
  obtain ⟨-, he⟩ := hlast.of_done
  cases he
  have htake (peer : Nat) (d : Discovery G A) (hd : d.set.phase = .resize) :
      (LinkTable.takeAnnouncements s settings.tag b.numbering peer d).Keeps
        (·.set.phase = .resize)
        fun _ => True := by
    intro es r htaken
    refine ⟨?_, fun _ _ => .inl trivial⟩
    obtain ⟨f, -, rfl⟩ | ⟨payload, -, ⟨f, -, rfl⟩ | ⟨as, -, rfl⟩⟩ :=
      cases_takeAnnouncements htaken
    · exact hd
    · exact hd
    · exact phase_adoptAll hd ..
  exact ⟨outcome, d, rfl,
    (Exchange.round_keeps (fun _ _ _ _ => trivial) htake rfl fs _ hround).1⟩

variable [IsStrictTotalOrder G (· < ·)] [IsStrictTotalOrder A (· < ·)]

theorem takeAnnouncements_keeps {inv : Discovery G A → Prop} {s : Station}
    {numbering : Numbering G} (hphase : ∀ d, inv d → d.set.phase = .resize)
    (hadopt : ∀ peer as d, inv d → inv (d.adoptAll s.rank peer numbering as).2)
    (tag : Tag) (peer : Nat) (d : Discovery G A) (hd : inv d) :
    (LinkTable.takeAnnouncements s tag numbering peer d).Keeps inv Fault.OnWire := by
  intro es r hpath
  obtain ⟨f, rfl, rfl⟩ | ⟨payload, -, ⟨f, hdecode, rfl⟩ | ⟨as, -, rfl⟩⟩ :=
    cases_takeAnnouncements hpath
  · refine ⟨hd, fun g hg => ?_⟩
    cases hg
    exact .inr ⟨_, List.mem_cons_self .., rfl⟩
  · refine ⟨hd, fun g hg => ?_⟩
    cases hg
    exact .inl (Announcement.failsOnWire_decode (G := G) (A := A) s.registry payload f hdecode)
  · refine ⟨hadopt peer as d hd, fun g hg => ?_⟩
    rw [((Discovery.adoptAll_adopts s.rank peer numbering as).ok d (hphase d hd)).1] at hg
    cases hg

theorem program_keeps {b : Sync G A} (hcheck : b.table.checkSyncable b.set = .ok ())
    (inv : Discovery G A → Prop) {s : Station} (hphase : ∀ d, inv d → d.set.phase = .resize)
    (hadopt : ∀ peer as d, inv d → inv (d.adoptAll s.rank peer b.numbering as).2)
    (hstart : inv b.start) {settings : SyncSettings} {es : List Event} {r : SyncResult G A}
    (hpath : (b.program s settings).Path es (.done r)) :
    ∃ outcome d, r = b.settle outcome d ∧ inv d ∧
      ∀ f, outcome = .error f → f.OnWire ∨ Answered f es := by
  rw [program_eq hcheck] at hpath
  obtain ⟨⟨outcome, d⟩, fs, gs, rfl, hround, hlast⟩ := hpath.of_bind
  obtain ⟨rfl, he⟩ := hlast.of_done
  cases he
  have hpack : ∀ e ∈ (b.peers s.rank).map fun peer =>
      (peer, Announcement.encode s.registry (b.told peer)),
      FailsOnWire e.2 := by
    intro e he
    obtain ⟨peer, -, rfl⟩ := List.mem_map.mp he
    exact Announcement.failsOnWire_encode s.registry _
  obtain ⟨hinv, hfault⟩ := Exchange.round_keeps hpack
    (takeAnnouncements_keeps hphase hadopt settings.tag) hstart fs _ hround
  rw [List.append_nil]
  exact ⟨outcome, d, rfl, hinv, hfault⟩

theorem settled_settle {b : Sync G A} {d : Discovery G A}
    (hextends : d.Extends { b.set with phase := .resize }) (hbacked : d.Backed) :
    Settled b (b.settle (.ok ()) d) := by
  obtain ⟨⟨hwell, hphase, hlinks⟩, hheld⟩ := hbacked
  have hcommit := IndexSet.commit_eq hphase
  have hwell' := hwell.commit hcommit
  have hlisted : ∀ e ∈ (d.links.map Links.shared).entries, ∃ links,
      e.2 = .shared links ∧ d.linksTo e.1 = links := by
    intro e he
    obtain ⟨⟨other, links⟩, hin, rfl⟩ := List.mem_map.mp he
    refine ⟨links, rfl, ?_⟩
    rw [Discovery.linksTo, NatMap.get?_eq_some_iff.mpr hin]
    rfl
  rw [settle_ok hcommit]
  constructor
  case revision =>
    obtain ⟨additions, pendingKeys, hset⟩ := hextends
    rw [IndexSet.committed, hset]
  case setValid => exact hwell'.validate rfl
  case tableValid =>
    apply LinkTable.validate_eq_ok
    intro e he
    obtain ⟨links, hshared, rfl⟩ := hlisted e he
    rw [hshared]
    exact ⟨hlinks e.1, hlinks e.1⟩
  case resolves =>
    intro e he l hl
    obtain ⟨links, hshared, rfl⟩ := hlisted e he
    rw [hshared] at hl
    have hkey := hheld e.1 l hl
    rw [IndexSet.holds_iff hwell.ascending, ← IndexSet.mem_keys_commit hwell hcommit,
      IndexSet.mem_keys] at hkey
    obtain ⟨h, hh, hk⟩ := hkey
    refine ⟨h, ?_⟩
    rw [Link.holding, IndexSet.findKey,
      (IndexSet.holdingOf_eq_some_iff hwell'.ascending).mpr ⟨hh, hk⟩]
    rfl
  case shared => rfl
  case synced => exact LinkTable.isSynced_align ..

theorem atomic_of_checked {b : Sync G A} (hset : b.set.WellFormed)
    (hcheck : b.table.checkSyncable b.set = .ok ()) {s : Station} {settings : SyncSettings}
    {es : List Event} {r : SyncResult G A} (hpath : (b.program s settings).Path es (.done r)) :
    Atomic b es r := by
  have hphase := (LinkTable.checkSyncable_eq_ok_iff.mp hcheck).1
  obtain ⟨outcome, d, rfl, ⟨hextends, hbacked⟩, hfault⟩ := program_keeps hcheck
    (fun d => d.Extends { b.set with phase := .resize } ∧
      ((∀ other, Ascending (b.table.sendTo other)) → d.Backed))
    (fun d hd => hd.1.phase)
    (fun peer as d hd => ⟨hd.1.adoptAll _ peer _ as,
      fun hlinks => (hd.2 hlinks).adoptAll _ peer _ as⟩)
    ⟨⟨_, _, rfl⟩, backed_start hset hcheck⟩ hpath
  have hopen : d.set.phase = .resize := hextends.phase
  have hcommit := settle_ok (b := b) (IndexSet.commit_eq hopen)
  constructor
  case refused =>
    intro f hf
    cases hcheck.symm.trans hf
  case failed =>
    intro _ f hf
    cases outcome with
    | ok =>
      rw [hcommit] at hf
      cases hf
    | error g =>
      cases hf
      have hsame : (b.settle (.error f) d).set = b.set := abortResize_eq hset hphase hextends
      rw [hsame]
      exact ⟨hfault f rfl, rfl, hphase, (hset.settled hphase).1,
        hset.pendingKeys_eq_nil hphase, rfl, fun _ _ => rfl⟩
  case noDuplicate =>
    intro key hkey
    cases outcome with
    | ok =>
      rw [hcommit] at hkey
      cases hkey
    | error g =>
      cases hkey
      exact (hfault _ rfl).resolve_left fun hwire => hwire.ne_duplicateKey key rfl
  case succeeded =>
    intro hok hlinks
    cases outcome with
    | ok => exact settled_settle hextends (hbacked hlinks)
    | error g => cases hok

theorem set_of_failed {b : Sync G A} (hset : b.set.WellFormed) {s : Station}
    {settings : SyncSettings} {es : List Event} {r : SyncResult G A}
    (hpath : (b.program s settings).Path es (.done r)) {f : Fault}
    (hfailed : r.outcome = .error f) : r.set = b.set := by
  cases hcheck : b.table.checkSyncable b.set with
  | error g => exact ((atomic_of_refused hcheck hpath).refused g hcheck).2.2.2.1
  | ok => exact ((atomic_of_checked hset hcheck hpath).failed hcheck f hfailed).2.1

/-- A sync changes the set in no other way than its callers could. -/
theorem reachable_of_path {b : Sync G A} (hset : b.set.Reachable) {s : Station}
    {settings : SyncSettings} {es : List Event} {r : SyncResult G A}
    (hpath : (b.program s settings).Path es (.done r)) :
    r.set.Reachable := by
  cases hcheck : b.table.checkSyncable b.set with
  | error f =>
    obtain ⟨-, -, -, hsame, -⟩ := (atomic_of_refused hcheck hpath).refused f hcheck
    rwa [hsame]
  | ok =>
    let inv : IndexSet G A → Prop := fun set => set.Reachable ∧ set.phase = .resize
    have hopen := IndexSet.beginResize_eq (LinkTable.checkSyncable_eq_ok_iff.mp hcheck).1
    have hhold (key : Key G A) (d : Discovery G A) (hd : inv d.set) :
        inv (Discovery.hold b.numbering key d).2.set :=
      Discovery.hold_keeps ⟨hd.1.add rfl,
        IndexSet.add_keeps (P := (·.phase = .resize)) hd.2 fun h _ => h⟩ hd
    obtain ⟨outcome, d, rfl, ⟨hreachable, -⟩, -⟩ :=
      program_keeps hcheck (fun d => inv d.set) (fun d hd => hd.2)
      (fun peer as d hd => Discovery.adoptAll_keeps hhold s.rank peer as hd)
        ⟨hset.beginResize hopen, rfl⟩ hpath
    cases outcome with
    | error f => exact hreachable.abortResize
    | ok =>
      rw [settle]
      split
      all_goals
        rename_i hcommit
        exact hreachable.commit hcommit

/-- Whatever the peers send and whatever the transport answers, a sync that fails leaves the set
as it was, and one that ends well leaves a set and a table in order. -/
theorem sync_atomic {b : Sync G A} (hset : b.set.WellFormed) (s : Station)
    (settings : SyncSettings) {es : List Event} {r : SyncResult G A}
    (hpath : (b.program s settings).Path es (.done r)) :
    Atomic b es r := by
  cases hcheck : b.table.checkSyncable b.set with
  | error f => exact atomic_of_refused hcheck hpath
  | ok => exact atomic_of_checked hset hcheck hpath

def truncated : (r : Request) → r.Answer
  | .post peer _ _ => .ok ⟨peer⟩
  | .wait _ => .ok ()
  | .probe _ _ => .ok ⟨0, 3⟩
  | .receive _ _ => .ok [1, 0, 0]
  | .queued => .ok 0

theorem sync_atomic_truncated : ∃ es r,
    ((thirdHolder 1).program ⟨1, 3, .basic⟩ {}).Path es (.done r) ∧ r.outcome.isOk = false ∧
      Atomic (thirdHolder 1) es r := by
  obtain ⟨es, hpath, -⟩ :=
    Program.path_under truncated ((thirdHolder 1).program ⟨1, 3, .basic⟩ {})
  have hset := (tidy_thirdHolder 1 (by decide)).wellFormed
  exact ⟨es, _, hpath, by decide +kernel, sync_atomic hset ⟨1, 3, .basic⟩ {} hpath⟩

end Sync

end HaloIndex
