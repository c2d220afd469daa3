import HaloIndex.Proofs.IndexSet.AnyOrder
import HaloIndex.Proofs.IndexSet.Slots
import HaloIndex.Proofs.Sync.Draining

namespace HaloIndex

section Duplicates

variable {α : Type} [DecidableEq α]

theorem eraseDups_concat (xs : List α) (x : α) :
    (xs ++ [x]).eraseDups = if x ∈ xs then xs.eraseDups else xs.eraseDups ++ [x] := by
  rw [List.eraseDups_append, List.removeAll]
  split
  next h => simp [h]
  next h => simp [h, List.eraseDups_cons]

theorem takeWhile_ne_append {xs : List α} {x : α} (h : x ∈ xs) (ys : List α) :
    (xs ++ ys).takeWhile (· ≠ x) = xs.takeWhile (· ≠ x) := by
  induction xs with
  | nil => cases h
  | cons y xs ih =>
    rw [List.cons_append, List.takeWhile_cons, List.takeWhile_cons]
    split
    next hne =>
      rcases List.mem_cons.mp h with rfl | h
      · exact absurd rfl (of_decide_eq_true hne)
      · rw [ih h]
    next => rfl

theorem takeWhile_ne_of_not_mem {xs : List α} {x : α} (h : x ∉ xs) :
    (xs ++ [x]).takeWhile (· ≠ x) = xs := by
  have hne : ∀ y ∈ xs, decide (y ≠ x) = true := fun y hy => decide_eq_true fun he => h (he ▸ hy)
  rw [List.takeWhile_append_of_pos hne, List.takeWhile_cons_of_neg (by simp), List.append_nil]

end Duplicates

variable {G A : Type}

def Announcement.assigned (own : Nat) (as : List (Announcement G A)) : List (Key G A) :=
  as.flatMap fun a => (a.rolesOf own).map fun role => ⟨a.key.globalId, role⟩

namespace Sync

variable [DecidableEq G] [DecidableEq A]

/-- Of these keys the ones that are new to a rank, each of them where it first comes up. -/
def discovered (b : Sync G A) (ks : List (Key G A)) : List (Key G A) :=
  (ks.filter fun k => !b.set.keys.contains k).eraseDups

/-- The slot that is chosen for a new key, if one is: the numbering has been asked about those
before it. -/
def chosen (b : Sync G A) (new : List (Key G A)) (k : Key G A) : Option Nat :=
  b.numbering ((new.takeWhile (· ≠ k)).map Key.globalId) k.globalId

def waiting (b : Sync G A) (new : List (Key G A)) : List (Addition G A) :=
  (new.map fun k => ⟨k, b.chosen new k, true⟩).reverse

def opened (b : Sync G A) (new : List (Key G A)) : IndexSet G A :=
  { b.set with phase := .resize, additions := b.waiting new, pendingKeys := new.reverse }

/-- What a sync has added and asked for when a rank was said to hold these keys. -/
structure Asks (b : Sync G A) (ks : List (Key G A)) (d : Discovery G A) : Prop where
  set : d.set = b.opened (b.discovered ks)
  asked : d.asked = (b.discovered ks).map Key.globalId

variable {b : Sync G A} {ks : List (Key G A)}

theorem mem_discovered {k : Key G A} : k ∈ b.discovered ks ↔ k ∈ ks ∧ k ∉ b.set.keys := by
  rw [discovered, List.mem_eraseDups, List.mem_filter, Bool.not_eq_true', ← Bool.not_eq_true,
    List.contains_iff_mem]

theorem discovered_of_known {k : Key G A} (h : k ∈ b.set.keys ∨ k ∈ b.discovered ks) :
    b.discovered (ks ++ [k]) = b.discovered ks := by
  rw [discovered, List.filter_append]
  by_cases hkey : k ∈ b.set.keys
  · rw [List.filter_cons_of_neg (by simpa using hkey), List.filter_nil, List.append_nil]
    rfl
  · have hin := List.mem_eraseDups.mp (h.resolve_left hkey)
    rw [List.filter_cons_of_pos (by simpa using hkey), List.filter_nil,
      eraseDups_concat, if_pos hin]
    rfl

theorem discovered_of_new {k : Key G A} (hkey : k ∉ b.set.keys) (hnew : k ∉ b.discovered ks) :
    b.discovered (ks ++ [k]) = b.discovered ks ++ [k] := by
  have hnot : k ∉ ks.filter fun k => !b.set.keys.contains k := mt List.mem_eraseDups.mpr hnew
  rw [discovered, List.filter_append, List.filter_cons_of_pos (by simpa using hkey),
    List.filter_nil, eraseDups_concat, if_neg hnot]
  rfl

theorem inOrder_discovered (b : Sync G A) (ks : List (Key G A)) :
    (b.discovered ks).Pairwise fun k k' => ks.idxOf k < ks.idxOf k' := by
  -- along the list from its front: what has come up before keeps its place
  induction ks using List.reverseRecOn with
  | nil => exact .nil
  | append_singleton ks k ih =>
    have hsame : (b.discovered ks).Pairwise fun k' k'' =>
        (ks ++ [k]).idxOf k' < (ks ++ [k]).idxOf k'' := by
      apply ih.imp_of_mem
      intro k' k'' hk' hk'' hlt
      rwa [List.idxOf_append_of_mem (mem_discovered.mp hk').1,
        List.idxOf_append_of_mem (mem_discovered.mp hk'').1]
    by_cases hknown : k ∈ b.set.keys ∨ k ∈ b.discovered ks
    · rw [discovered_of_known hknown]
      exact hsame
    · rw [not_or] at hknown
      rw [discovered_of_new hknown.1 hknown.2]
      apply List.pairwise_append.mpr
      refine ⟨hsame, List.pairwise_singleton .., fun k' hk' k'' hk'' => ?_⟩
      have hfirst := (mem_discovered.mp hk').1
      have hnot : k ∉ ks := fun hk => hknown.2 (mem_discovered.mpr ⟨hk, hknown.1⟩)
      rw [List.mem_singleton.mp hk'', List.idxOf_append_of_mem hfirst,
        List.idxOf_append_of_notMem hnot]
      exact Nat.lt_add_right _ (List.idxOf_lt_length_of_mem hfirst)

theorem nodup_discovered (b : Sync G A) (ks : List (Key G A)) : (b.discovered ks).Nodup := by
  apply (b.inOrder_discovered ks).imp
  rintro k _ hlt rfl
  exact absurd hlt (Nat.lt_irrefl _)

theorem waiting_concat {new : List (Key G A)} {k : Key G A} (h : k ∉ new) :
    b.waiting (new ++ [k]) =
    ⟨k, b.numbering (new.map Key.globalId) k.globalId, true⟩ :: b.waiting new := by
  have hsame : (new.map fun k' => (⟨k', b.chosen (new ++ [k]) k', true⟩ : Addition G A)) =
      new.map fun k' => ⟨k', b.chosen new k', true⟩ := by
    apply List.map_congr_left
    intro k' hk'
    rw [chosen, takeWhile_ne_append hk', chosen]
  rw [waiting, List.map_append, List.map_singleton, hsame, List.reverse_append,
    List.reverse_singleton, List.singleton_append, chosen, takeWhile_ne_of_not_mem h, waiting]

theorem map_key_waiting (new : List (Key G A)) :
    (b.waiting new).map Addition.key = new.reverse := by
  rw [waiting, List.map_reverse, List.map_map]
  exact congrArg List.reverse (List.map_id new)

variable {d : Discovery G A}

theorem Asks.phase (h : Asks b ks d) : d.set.phase = .resize := by
  rw [h.set]
  rfl

theorem Asks.forEach {β : Type} {act : β → Discovery G A → Except Fault Unit × Discovery G A}
    (assigned : β → List (Key G A)) (hact : ∀ x ks d, Asks b ks d →
      (act x d).1 = .ok () ∧ Asks b (ks ++ assigned x) (act x d).2) (h : Asks b ks d)
    (xs : List β) : (Discovery.forEach act xs d).1 = .ok () ∧
      Asks b (ks ++ xs.flatMap assigned) (Discovery.forEach act xs d).2 := by
  induction xs generalizing ks d with
  | nil =>
    rw [List.flatMap_nil, List.append_nil]
    exact ⟨rfl, h⟩
  | cons x xs ih =>
    obtain ⟨hok, hnext⟩ := hact x ks d h
    have hfirst : act x d = (.ok (), (act x d).2) := Prod.ext hok rfl
    rw [Discovery.forEach, hfirst, List.flatMap_cons, ← List.append_assoc]
    exact ih hnext

section Steps

variable [LT G] [LT A]

theorem asks_start (hset : b.set.WellFormed) (hphase : b.set.phase = .ground) :
    Asks b [] b.start := by
  constructor
  case set =>
    have hnone : b.set.additions = b.waiting (b.discovered []) := (hset.settled hphase).1
    have hpending : b.set.pendingKeys = (b.discovered []).reverse :=
      hset.pendingKeys_eq_nil hphase
    rw [opened, ← hnone, ← hpending]
    rfl
  case asked => rfl

theorem wellFormed_opened (hset : b.set.WellFormed) (ks : List (Key G A)) :
    (b.opened (b.discovered ks)).WellFormed := by
  constructor
  case ascending => exact hset.ascending
  case queued => exact (map_key_waiting _).symm
  case distinct =>
    rw [opened, map_key_waiting, List.nodup_reverse]
    exact b.nodup_discovered ks
  case fresh =>
    intro a ha x hx hkey
    have hnew : a.key ∈ b.discovered ks := by
      rw [← List.mem_reverse, ← map_key_waiting]
      exact List.mem_map_of_mem ha
    exact absurd (IndexSet.mem_keys.mpr ⟨x, hx, hkey⟩) (mem_discovered.mp hnew).2
  case settled => exact nofun

variable [DecidableLT G] [DecidableLT A]

theorem Asks.records (h : Asks b ks d) (link : A → Link G A) (knowers : List (Nat × A)) :
    Asks b ks (knowers.foldl (fun d knower => d.record knower.1 (link knower.2)) d) := by
  induction knowers generalizing d with
  | nil => exact h
  | cons knower knowers ih => exact ih ⟨h.set, h.asked⟩

theorem round_of_path [Scalar G] [Role A] {build : Build} {s : Station}
    {settings : SyncSettings} {es : List Event} {r : SyncResult G A}
    (hpath : (b.programBy build s settings).Path es (.done r)) (hok : r.outcome = .ok ()) :
    b.table.checkSyncable b.set = .ok () ∧ ∃ d, (Exchange.round settings.tag
        ((b.peers s.rank).map fun peer => (peer, Announcement.encode s.registry (b.told peer)))
        (LinkTable.takeAnnouncements s settings.tag b.numbering) b.start).Path es
          (.done (.ok (), d)) ∧
      r = b.settle (.ok ()) d ∧ (build = .checked → d.set.countsOn = true) := by
  cases hcheck : b.table.checkSyncable b.set with
  | error f =>
    rw [programBy, LinkTable.syncBy, hcheck] at hpath
    obtain ⟨-, he⟩ := hpath.of_done
    cases he
    cases hok
  | ok =>
    rw [programBy_eq build hcheck] at hpath
    obtain ⟨⟨outcome, d⟩, fs, gs, rfl, hround, hlast⟩ := hpath.of_bind
    obtain ⟨rfl, he⟩ := hlast.of_done
    cases he
    obtain ⟨rfl, hsettle, hcounts⟩ := cases_settleBy hok
    rw [List.append_nil]
    exact ⟨rfl, d, hround, hsettle, hcounts⟩

variable [IsStrictTotalOrder G (· < ·)] [IsStrictTotalOrder A (· < ·)] (hset : b.set.WellFormed)
  (hphase : b.set.phase = .ground)

include hset hphase

theorem holds_opened {new : List (Key G A)} {k : Key G A} :
    (b.opened new).holds k = true ↔ k ∈ b.set.keys ∨ k ∈ new := by
  have hwaiting : k ∈ (b.opened new).pendingKeys ↔ k ∈ new := List.mem_reverse
  have hascending : Ascending (b.opened new).keys := hset.ascending
  rw [IndexSet.holds_iff hascending, hwaiting, IndexSet.mem_keys]
  apply or_congr_left
  constructor
  · rintro ⟨x, hx, hk, -⟩
    exact ⟨x, hx, hk⟩
  · rintro ⟨x, hx, hk⟩
    exact ⟨x, hx, hk, (hset.settled hphase).2 x hx⟩

variable [Scalar G] [Role A]

/-- The numbering is asked about a key that is neither held nor waiting, and about no other. -/
theorem Asks.hold (h : Asks b ks d) (k : Key G A) :
    Asks b (ks ++ [k]) (Discovery.hold b.numbering k d).2 := by
  have hholds : d.set.holds k = true ↔ k ∈ b.set.keys ∨ k ∈ b.discovered ks := by
    rw [h.set]
    exact holds_opened hset hphase
  rw [Discovery.hold]
  split
  next hheld =>
    have hknown := discovered_of_known (hholds.mp hheld)
    exact ⟨hknown ▸ h.set, hknown ▸ h.asked⟩
  next hfree =>
    obtain ⟨hkey, hnew⟩ := not_or.mp (mt hholds.mpr hfree)
    have hlater := discovered_of_new hkey hnew
    simp only [IndexSet.add_eq h.phase (Bool.eq_false_iff.mpr hfree)]
    constructor
    case set =>
      rw [hlater, opened, waiting_concat hnew, List.reverse_concat, h.set, h.asked]
      rfl
    case asked => rw [hlater, List.map_append, h.asked, List.map_singleton]

theorem Asks.adopt (h : Asks b ks d) (own sender : Nat) (a : Announcement G A) (role : A) :
    Asks b (ks ++ [⟨a.key.globalId, role⟩])
      (Discovery.adopt own sender b.numbering a role d).2 := by
  have hhold := h.hold hset hphase ⟨a.key.globalId, role⟩
  rw [Discovery.adopt]
  split
  next f d' heq =>
    rw [heq] at hhold
    exact hhold
  next d' heq =>
    rw [heq] at hhold
    have hsender : Asks b (ks ++ [⟨a.key.globalId, role⟩])
        (d'.record sender ⟨a.key.globalId, role, a.key.role⟩) := ⟨hhold.set, hhold.asked⟩
    exact hsender.records (fun other => ⟨a.key.globalId, role, other⟩) (a.others own)

theorem Asks.adoptAll (h : Asks b ks d) (own sender : Nat) (as : List (Announcement G A)) :
    Asks b (ks ++ Announcement.assigned own as) (d.adoptAll own sender b.numbering as).2 := by
  have hadopt (a : Announcement G A) (role : A) (ks : List (Key G A)) (d : Discovery G A)
      (h : Asks b ks d) :
      (d.adopt own sender b.numbering a role).1 = .ok () ∧
        Asks b (ks ++ [⟨a.key.globalId, role⟩]) (d.adopt own sender b.numbering a role).2 :=
    ⟨((Discovery.adopt_adopts own sender b.numbering a role).ok d h.phase).1,
      h.adopt hset hphase own sender a role⟩
  have heach (a : Announcement G A) (ks : List (Key G A)) (d : Discovery G A)
      (h : Asks b ks d) :=
    h.forEach (fun role => [⟨a.key.globalId, role⟩]) (hadopt a) (a.rolesOf own)
  have hall := (h.forEach _ heach as).2
  rwa [Announcement.assigned, funext fun a => List.map_eq_flatMap]

def Learns (b : Sync G A) (s : Station) (peer : Nat) (payload : List UInt8)
    (d d' : Discovery G A) : Prop :=
  ∃ as, Announcement.decode s.registry payload = .ok as ∧
    d' = (d.adoptAll s.rank peer b.numbering as).2

variable {s : Station}

/-- What the messages of all neighbours add and ask for. -/
theorem Asks.takes (h : Asks b ks d)
    {ms : List (Nat × List UInt8)} {d' : Discovery G A}
    (htakes : Exchange.Takes (b.Learns s) ms d d') :
    ∃ heard : List (List (Announcement G A)),
      List.Forall₂ (fun m as => Announcement.decode s.registry m.2 = .ok as) ms heard ∧
        Asks b (ks ++ heard.flatMap (Announcement.assigned s.rank)) d' := by
  induction htakes generalizing ks with
  | nil =>
    refine ⟨[], .nil, ?_⟩
    rw [List.flatMap_nil, List.append_nil]
    exact h
  | @cons peer payload rest d mid d' hfirst _ ih =>
    obtain ⟨as, hdecode, rfl⟩ := hfirst
    obtain ⟨heard, hall, hasks⟩ := ih (h.adoptAll hset hphase s.rank peer as)
    refine ⟨as :: heard, .cons hdecode hall, ?_⟩
    rw [List.flatMap_cons, ← List.append_assoc]
    exact hasks

variable {settings : SyncSettings} {es : List Event} {r : SyncResult G A}

omit hset hphase

theorem sources_of_path (hpath : (b.program s settings).Path es (.done r))
    (hok : r.outcome = .ok ()) :
    (receipts es).map Prod.fst = b.peers s.rank := by
  cases goes_of_path hpath with
  | refused _ _ hout => cases hok.symm.trans hout
  | exchanged _ hlog =>
    rw [hok] at hlog
    apply hlog.sources
    intro peer es htaken
    generalize houtcome : (.ok () : Except Fault Unit) = outcome at htaken
    cases htaken with
    | unreceived => cases houtcome
    | read => rfl

/-- A sync that ends well has read one message from each neighbour, in order, and settles what
they say. -/
theorem asks_of_path {build : Build} (hset : b.set.WellFormed)
    (hpath : (b.programBy build s settings).Path es (.done r)) (hok : r.outcome = .ok ()) :
    b.set.phase = .ground ∧ (receipts es).map Prod.fst = b.peers s.rank ∧ ∃ heard d,
      List.Forall₂ (fun m as => Announcement.decode s.registry m.2 = .ok as)
          (receipts es) heard ∧
        Asks b (heard.flatMap (Announcement.assigned s.rank)) d ∧ r = b.settle (.ok ()) d ∧
        (build = .checked → d.set.countsOn = true) := by
  obtain ⟨hcheck, d, hround, rfl, hcounts⟩ := round_of_path hpath hok
  have hphase := (LinkTable.checkSyncable_eq_ok_iff.mp hcheck).1
  have hplain : (b.program s settings).Path es (.done (b.settle (.ok ()) d)) := by
    rw [program_eq hcheck, ← List.append_nil es]
    exact hround.andThen (.refl _)
  have hsources := sources_of_path hplain hok
  have htake : ∀ peer d es d',
      (LinkTable.takeAnnouncements s settings.tag b.numbering peer d).Path es
        (.done (.ok (), d')) →
      ∃ payload, payloads es = [payload] ∧ b.Learns s peer payload d d' := by
    intro peer d es d' htaken
    obtain ⟨f, -, he⟩ | ⟨payload, rfl, ⟨f, -, he⟩ | ⟨as, hdecode, he⟩⟩ :=
      cases_takeAnnouncements htaken
    · cases he
    · cases he
    · exact ⟨payload, rfl, as, hdecode, congrArg Prod.snd he⟩
  have htakes := Exchange.round_takes htake hround
  rw [List.map_map, Function.comp_def, List.map_id',
    ← List.zip_of_prod hsources (map_snd_receipts es)] at htakes
  obtain ⟨heard, hall, hasks⟩ := (asks_start hset hphase).takes hset hphase htakes
  exact ⟨hphase, hsources, heard, d, hall, hasks, rfl, hcounts⟩

end Steps

/-- How many of the new keys come before a key and have no slot chosen for them. -/
def unchosenBefore [LT G] [LT A] [DecidableLT G] [DecidableLT A] (b : Sync G A)
    (new : List (Key G A)) (k : Key G A) : Nat :=
  new.countP fun k' => decide (b.chosen new k' = none ∧ k' < k)

/-- The slot of a new key: the one that was chosen for it, or one of those from `first` on, in
the order of the keys. After the last slot it goes on with slot zero. -/
def slotOf [LT G] [LT A] [DecidableLT G] [DecidableLT A] (b : Sync G A)
    (new : List (Key G A)) (first : Nat) (k : Key G A) : Nat :=
  (b.chosen new k).getD ((first + b.unchosenBefore new k) % UInt64.size)

/-- Behind all slots that are held or chosen there is one for each of the other new keys. -/
def HasRoom (b : Sync G A) (new : List (Key G A)) : Prop :=
  ∃ bound, (∀ h ∈ b.set.holdings, h.slot < bound) ∧
    (∀ k ∈ new, ∀ slot, b.chosen new k = some slot → slot < bound) ∧
    bound + new.countP (fun k => decide (b.chosen new k = none)) < UInt64.size

/-- The new keys of a rank that was said to hold `ks` are asked about once, in the order in which
they first come up, and get their slots; all that was held before stays as it is. As long as
there is room, the slots that were not chosen are above all others. -/
structure Numbered [LT G] [LT A] [DecidableLT G] [DecidableLT A] (b : Sync G A)
    (ks new : List (Key G A)) (first : Nat) (r : SyncResult G A) : Prop where
  mem_new : ∀ k, k ∈ new ↔ k ∈ ks ∧ k ∉ b.set.keys
  inOrder : new.Pairwise fun k k' => ks.idxOf k < ks.idxOf k'
  asked : r.asked = new.map Key.globalId
  isLeast : b.HasRoom new → IsLeast {n | (∀ h ∈ b.set.holdings, h.slot < n) ∧
    ∀ k ∈ new, ∀ slot, b.chosen new k = some slot → slot < n} first
  slotOf_eq : b.HasRoom new → ∀ k,
    b.slotOf new first k = (b.chosen new k).getD (first + b.unchosenBefore new k)
  ascending : Ascending r.set.keys
  holdings : r.set.holdings.Perm (b.set.holdings ++
    new.map fun k => ⟨k.globalId, .valid (b.slotOf new first k) k.role true⟩)

section Commit

variable [LT G] [LT A] {new : List (Key G A)}

theorem survivors_opened (hset : b.set.WellFormed) (hphase : b.set.phase = .ground) :
    (b.opened new).survivors = b.set.holdings := by
  apply List.filter_eq_self.mpr
  intro h hh
  rw [(hset.settled hphase).2 h hh]
  rfl

theorem mem_fixedSlots_opened (hset : b.set.WellFormed) (hphase : b.set.phase = .ground)
    {slot : Nat} :
    slot ∈ (b.opened new).fixedSlots ↔
      (∃ h ∈ b.set.holdings, h.slot = slot) ∨ ∃ k ∈ new, b.chosen new k = some slot := by
  have hchosen : slot ∈ (b.opened new).additions.filterMap Addition.slot ↔
      ∃ k ∈ new, b.chosen new k = some slot := by
    rw [opened, waiting, List.filterMap_reverse, List.mem_reverse, List.filterMap_map,
      List.mem_filterMap]
    rfl
  rw [IndexSet.fixedSlots, survivors_opened hset hphase, List.mem_append, List.mem_map, hchosen]

theorem bounds_opened_iff (hset : b.set.WellFormed) (hphase : b.set.phase = .ground) {n : Nat} :
    (∀ slot ∈ (b.opened new).fixedSlots, slot < n) ↔
      (∀ h ∈ b.set.holdings, h.slot < n) ∧
        ∀ k ∈ new, ∀ slot, b.chosen new k = some slot → slot < n := by
  simp only [mem_fixedSlots_opened hset hphase]
  constructor
  · intro hall
    exact ⟨fun h hh => hall _ (.inl ⟨h, hh, rfl⟩),
      fun k hk slot hslot => hall slot (.inr ⟨k, hk, hslot⟩)⟩
  · rintro ⟨hheld, hnew⟩ slot (⟨h, hh, rfl⟩ | ⟨k, hk, hslot⟩)
    · exact hheld h hh
    · exact hnew k hk slot hslot

theorem roomy_opened_iff (hset : b.set.WellFormed) (hphase : b.set.phase = .ground) :
    IndexSet.Roomy (b.opened new).fixedSlots (b.opened new).unplaced ↔ b.HasRoom new := by
  have hunplaced : (b.opened new).unplaced =
      new.countP fun k => decide (b.chosen new k = none) := by
    rw [IndexSet.unplaced, opened, waiting, List.countP_reverse, List.countP_map]
    rfl
  simp only [IndexSet.Roomy, HasRoom, hunplaced, bounds_opened_iff hset hphase, and_assoc]

theorem isLeast_opened (hset : b.set.WellFormed) (hphase : b.set.phase = .ground)
    (hroom : b.HasRoom new) :
    IsLeast {n | (∀ h ∈ b.set.holdings, h.slot < n) ∧
      ∀ k ∈ new, ∀ slot, b.chosen new k = some slot → slot < n}
    (IndexSet.firstFreeSlot (b.opened new).fixedSlots) := by
  have hleast := IndexSet.isLeast_firstFreeSlot ((roomy_opened_iff hset hphase).mpr hroom)
  rwa [Set.ext fun n => bounds_opened_iff hset hphase] at hleast

variable [DecidableLT G] [DecidableLT A]

theorem countP_opened (b : Sync G A) (new : List (Key G A)) (k : Key G A) :
    ((b.opened new).additions.countP fun a => decide (a.slot = none ∧ a.key < k)) =
    b.unchosenBefore new k := by
  rw [opened, waiting, List.countP_reverse, List.countP_map]
  rfl

theorem slotFor_opened (k : Key G A) : (b.opened new).slotFor ⟨k, b.chosen new k, true⟩ =
    b.slotOf new (IndexSet.firstFreeSlot (b.opened new).fixedSlots) k := by
  rw [IndexSet.slotFor, slotOf, countP_opened]

theorem slotOf_opened (hset : b.set.WellFormed) (hphase : b.set.phase = .ground)
    (hroom : b.HasRoom new) (k : Key G A) :
    b.slotOf new (IndexSet.firstFreeSlot (b.opened new).fixedSlots) k =
      (b.chosen new k).getD
        (IndexSet.firstFreeSlot (b.opened new).fixedSlots + b.unchosenBefore new k) := by
  rw [← slotFor_opened, IndexSet.slotFor_eq ((roomy_opened_iff hset hphase).mpr hroom),
    countP_opened]

variable [IsStrictTotalOrder G (· < ·)] [IsStrictTotalOrder A (· < ·)]

/-- What the commit leaves: all that was held, and the new keys with their slots. -/
theorem perm_merged_opened (hset : b.set.WellFormed) (hphase : b.set.phase = .ground)
    (hwell : (b.opened new).WellFormed) :
    (b.opened new).merged.Perm (b.set.holdings ++ new.map fun k =>
      ⟨k.globalId, .valid
        (b.slotOf new (IndexSet.firstFreeSlot (b.opened new).fixedSlots) k) k.role true⟩) := by
  have hback {xs : List (Holding G A)} (hxs : ∀ x ∈ xs, x.isDeleted = false) :
      (xs.map Holding.entry).map Entry.holding = xs := by
    rw [List.map_map]
    exact (List.map_congr_left fun x hx => Holding.holding_entry (hxs x hx)).trans
      (List.map_id xs)
  have hperm := (IndexSet.perm_entries_merged hwell).map Entry.holding
  rw [survivors_opened hset hphase, List.map_append,
    hback fun _ => IndexSet.isDeleted_of_mem_merged, hback (hset.settled hphase).2] at hperm
  apply hperm.trans
  apply List.Perm.append_left
  rw [opened, waiting, List.map_reverse, List.map_reverse, List.map_map, List.map_map]
  apply (List.reverse_perm _).trans
  apply List.Perm.of_eq
  apply List.map_congr_left
  intro k _
  exact congrArg (fun slot => (⟨k.globalId, .valid slot k.role true⟩ : Holding G A))
    (slotFor_opened k)

theorem numbered_settle (hset : b.set.WellFormed) (hphase : b.set.phase = .ground)
    {d : Discovery G A} (h : Asks b ks d) : Numbered b ks (b.discovered ks)
      (IndexSet.firstFreeSlot (b.opened (b.discovered ks)).fixedSlots)
      (b.settle (.ok ()) d) := by
  obtain ⟨set, links, asked⟩ := d
  obtain ⟨rfl, hasked⟩ := h
  have hwell := wellFormed_opened hset ks
  have hopen : (b.opened (b.discovered ks)).phase = .resize := rfl
  have hcommit := IndexSet.commit_eq hopen
  rw [settle_ok hcommit]
  constructor
  case mem_new => exact fun k => mem_discovered
  case inOrder => exact b.inOrder_discovered ks
  case asked => exact hasked
  case isLeast => exact isLeast_opened hset hphase
  case slotOf_eq => exact slotOf_opened hset hphase
  case ascending => exact (hwell.commit hcommit).ascending
  case holdings => exact perm_merged_opened hset hphase hwell

end Commit

/-- In a sync that ends well each key that the neighbours say a rank holds, and that it did not
hold, is numbered once, in the order in which these keys first come up. In a checked build it
ends well only if there is room for the slots. -/
theorem sync_numbers_once [LT G] [LT A] [DecidableLT G] [DecidableLT A] [Scalar G] [Role A]
    [IsStrictTotalOrder G (· < ·)] [IsStrictTotalOrder A (· < ·)] {b : Sync G A}
    (hset : b.set.WellFormed) {build : Build} {s : Station} {settings : SyncSettings}
    {es : List Event} {r : SyncResult G A}
    (hpath : (b.programBy build s settings).Path es (.done r)) (hok : r.outcome = .ok ()) :
    ∃ heard new first, (b.peers s.rank).Pairwise (· < ·) ∧
      (receipts es).map Prod.fst = b.peers s.rank ∧
      List.Forall₂ (fun m as => Announcement.decode s.registry m.2 = .ok as)
        (receipts es) heard ∧
      Numbered b (heard.flatMap (Announcement.assigned s.rank)) new first r ∧
      (build = .checked → b.HasRoom new) := by
  obtain ⟨hphase, hsources, heard, d, hall, hasks, rfl, hcounts⟩ := asks_of_path hset hpath hok
  refine ⟨heard, _, _, (b.known.erase s.rank).pairwise_keys, hsources, hall,
    numbered_settle hset hphase hasks, fun hchecked => ?_⟩
  rw [← roomy_opened_iff hset hphase, ← IndexSet.countsOn_iff, ← hasks.set]
  exact hcounts hchecked

/-- A rank between two others; the slot of every second key is chosen. -/
def between : Sync UInt64 MeshRole where
  table :=
    { isShared := true, sourceRevision := some 0, destRevision := some 0,
      links := .ofList [(0, .shared []), (2, .shared [])] }
  set := { holdings := [⟨2, .valid 7 .owner true⟩, ⟨5, .valid 3 .owner false⟩] }
  numbering := Numbering.everySecond (slotsFrom 20 1)

/-- Both say that rank 1 holds a key as a ghost; one of them says that it holds the key under
another role too, and names a key that rank 1 has had before. -/
def rumours : (r : Request) → r.Answer
  | .post peer _ _ => .ok ⟨peer⟩
  | .wait _ => .ok ()
  | .probe _ _ => .ok ⟨0, 0⟩
  | .receive 0 _ => Announcement.encode .basic
    [(⟨⟨9, .owner⟩, [(1, .ghost)]⟩ : Announcement UInt64 MeshRole),
      ⟨⟨4, .owner⟩, [(1, .ghost), (2, .owner)]⟩]
  | .receive _ _ => Announcement.encode .basic
    [(⟨⟨4, .owner⟩, [(1, .ghost), (1, .overlap)]⟩ : Announcement UInt64 MeshRole),
      ⟨⟨2, .ghost⟩, [(1, .owner)]⟩, ⟨⟨1, .owner⟩, [(1, .ghost)]⟩]
  | .queued => .ok 0

theorem sync_numbers_once_between :
    ∃ es r, (between.programBy .checked ⟨1, 3, .basic⟩ {}).Path es (.done r) ∧
    r.asked = [9, 4, 4, 1] ∧
    r.set.holdings = [⟨1, .valid 23 .ghost true⟩, ⟨2, .valid 7 .owner true⟩,
      ⟨4, .valid 22 .overlap true⟩, ⟨4, .valid 24 .ghost true⟩, ⟨5, .valid 3 .owner false⟩,
      ⟨9, .valid 20 .ghost true⟩] ∧
    ∃ heard new first,
      List.Forall₂ (fun m as => Announcement.decode .basic m.2 = .ok as) (receipts es) heard ∧
      Numbered between (heard.flatMap (Announcement.assigned 1)) new first r ∧
      between.HasRoom new := by
  obtain ⟨es, hpath, -⟩ :=
    Program.path_under rumours (between.programBy .checked ⟨1, 3, .basic⟩ {})
  have hset : between.set.WellFormed := .of_settled (by decide) rfl rfl (by decide)
  obtain ⟨heard, new, first, -, -, hall, hnumbered, hroom⟩ :=
    sync_numbers_once hset hpath (by decide +kernel)
  let opened := between.opened [⟨9, .ghost⟩, ⟨4, .ghost⟩, ⟨4, .overlap⟩, ⟨1, .ghost⟩]
  have hcommitted : _ = (opened.commitBy .checked).2 :=
    set_under_programBy .checked (b := between) (by decide +kernel) ⟨1, 3, .basic⟩ {} rumours rfl
      (by decide +kernel) (by decide +kernel)
  refine ⟨es, _, hpath, by decide +kernel, ?_, heard, new, first, hall, hnumbered, hroom rfl⟩
  rw [hcommitted]
  decide_cbv

/-- The numbering gives the last slot that there is to the first new key, and leaves the second
to the commit. -/
def overfull : Sync UInt64 MeshRole where
  table :=
    { isShared := true, sourceRevision := some 0, destRevision := some 0,
      links := .ofList [(1, .shared [])] }
  set := { holdings := [⟨5, .valid 0 .owner true⟩] }
  numbering := Numbering.everySecond (slotsFrom 18446744073709551615 0)

def twoKeys : (r : Request) → r.Answer
  | .post peer _ _ => .ok ⟨peer⟩
  | .wait _ => .ok ()
  | .probe _ _ => .ok ⟨0, 0⟩
  | .receive _ _ => Announcement.encode .basic
    [(⟨⟨1, .owner⟩, [(0, .overlap)]⟩ : Announcement UInt64 MeshRole),
      ⟨⟨2, .owner⟩, [(0, .overlap)]⟩]
  | .queued => .ok 0

/-- There is no slot above the last one: the second key gets slot zero, which is taken, or the
program stops. -/
theorem sync_numbers_overfull :
    overfull.chosen [⟨1, .overlap⟩, ⟨2, .overlap⟩] ⟨2, .overlap⟩ = none ∧
    (∃ es r, (overfull.programBy .plain ⟨0, 2, .basic⟩ {}).Path es (.done r) ∧
      r.outcome = .ok () ∧
      r.asked = [1, 2] ∧
      r.set.holdings = [⟨1, .valid 18446744073709551615 .overlap true⟩,
        ⟨2, .valid 0 .overlap true⟩, ⟨5, .valid 0 .owner true⟩]) ∧
    ∃ es r, (overfull.programBy .checked ⟨0, 2, .basic⟩ {}).Path es (.done r) ∧
      r.outcome = .error (.panicked "attempt to add with overflow") := by
  obtain ⟨es, hplain, -⟩ :=
    Program.path_under twoKeys (overfull.programBy .plain ⟨0, 2, .basic⟩ {})
  obtain ⟨fs, hchecked, -⟩ :=
    Program.path_under twoKeys (overfull.programBy .checked ⟨0, 2, .basic⟩ {})
  let opened := overfull.opened [⟨1, .overlap⟩, ⟨2, .overlap⟩]
  have hcommitted : _ = (opened.commitBy .plain).2 :=
    set_under_programBy .plain (b := overfull) (by decide +kernel) ⟨0, 2, .basic⟩ {} twoKeys rfl
      (by decide +kernel) (by decide +kernel)
  refine ⟨by decide +kernel, ⟨es, _, hplain, by decide +kernel, by decide +kernel, ?_⟩,
    fs, _, hchecked, by decide +kernel⟩
  rw [hcommitted]
  decide_cbv

end Sync

end HaloIndex
