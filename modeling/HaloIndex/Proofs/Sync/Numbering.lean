import HaloIndex.Proofs.Sync.Asking

namespace HaloIndex

variable {G A : Type} [DecidableEq G] [DecidableEq A]

namespace Sync

variable {b : Sync G A}

theorem chosen_fresh (hfresh : b.numbering = freshSlots) (new : List (Key G A)) (k : Key G A) :
    b.chosen new k = none := by
  rw [chosen, hfresh]
  rfl

theorem hasRoom_fresh (hfresh : b.numbering = freshSlots) {new : List (Key G A)}
    (hroom : IndexSet.Roomy (b.set.holdings.map Holding.slot) new.length) : b.HasRoom new := by
  obtain ⟨bound, hheld, hlt⟩ := hroom
  refine ⟨bound, List.forall_mem_map.mp hheld, fun k _ slot hslot => ?_, ?_⟩
  · cases (chosen_fresh hfresh new k).symm.trans hslot
  · exact Nat.lt_of_le_of_lt (Nat.add_le_add_left List.countP_le_length bound) hlt

theorem apart_opened [LT G] [LT A] (h : b.set.Apart) (hfresh : b.numbering = freshSlots)
    (ks : List (Key G A)) :
    (b.opened (b.discovered ks)).Apart := by
  refine ⟨wellFormed_opened h.wellFormed ks, h.distinct, fun a ha => ?_⟩
  obtain ⟨k, -, rfl⟩ := List.mem_map.mp (List.mem_reverse.mp ha)
  exact chosen_fresh hfresh _ k

end Sync

variable [LT G] [LT A] [DecidableLT G] [DecidableLT A] [Scalar G] [Role A]

/-- Sets that begin with different slots, are changed without a slot being chosen, and are
synced, with room for the new slots each time. -/
inductive Unchosen : IndexSet G A → Prop where
  | start {s : IndexSet G A} (hs : s.WellFormed) (hphase : s.phase = .ground)
      (hslots : (s.holdings.map Holding.slot).Nodup) : Unchosen s
  | called {s s' : IndexSet G A} {call : Call G A} {outcome : Except Fault (Option Nat)}
      (h : Unchosen s) (hcall : ∀ key isPublic slot, call ≠ .add key isPublic (some slot))
      (hroom : call = .commit → IndexSet.Roomy s.fixedSlots s.unplaced)
      (hanswer : s.answer call = (outcome, s')) : Unchosen s'
  | synced {b : Sync G A} {s : Station} {settings : SyncSettings} {es : List Event}
      {r : SyncResult G A} (h : Unchosen b.set) (hfresh : b.numbering = freshSlots)
      (hroom : IndexSet.Roomy (b.set.holdings.map Holding.slot) r.asked.length)
      (hpath : (b.program s settings).Path es (.done r)) : Unchosen r.set

variable [IsStrictTotalOrder G (· < ·)] [IsStrictTotalOrder A (· < ·)]

/-- A sync that leaves the numbering to the commit keeps slots different, whatever it is told and
however it ends. -/
theorem Sync.apart_of_path {b : Sync G A} {s : Station} {settings : SyncSettings}
    {es : List Event} {r : SyncResult G A} (h : b.set.Apart) (hfresh : b.numbering = freshSlots)
    (hroom : IndexSet.Roomy (b.set.holdings.map Holding.slot) r.asked.length)
    (hpath : (b.program s settings).Path es (.done r)) : r.set.Apart := by
  cases houtcome : r.outcome with
  | error f => exact set_of_failed h.wellFormed hpath houtcome ▸ h
  | ok =>
    have hby : (b.programBy .plain s settings).Path es (.done r) := hpath
    obtain ⟨hphase, -, heard, d, -, hasks, rfl, -⟩ := asks_of_path h.wellFormed hby houtcome
    have hcommit := settle_ok (b := b) (IndexSet.commit_eq hasks.phase)
    rw [hcommit] at hroom ⊢
    rw [hasks.asked, List.length_map] at hroom
    rw [hasks.set]
    exact (apart_opened h hfresh _).committed
      ((roomy_opened_iff h.wellFormed hphase).mpr (hasRoom_fresh hfresh hroom))

theorem Unchosen.apart {s : IndexSet G A} (h : Unchosen s) : s.Apart := by
  induction h with
  | start hs hphase hslots =>
    refine ⟨hs, hslots, ?_⟩
    rw [(hs.settled hphase).1]
    exact nofun
  | called _ hcall hroom hanswer ih => exact ih.answer hanswer hcall hroom
  | synced _ hfresh hroom hpath ih => exact Sync.apart_of_path ih hfresh hroom hpath

/-- However a window was used, at its end what was not flagged is as it was before, and what was
added has the slot that was chosen for it or, if there is room, one of the slots above all
others, in the order of the keys. Where no slot is chosen, slots stay different. -/
theorem slots_apart :
    (∀ s t : IndexSet G A, s.WellFormed → s.Window t → ∃ s', t.commit = (.ok (), s') ∧
      (∀ x ∈ s.holdings, x ∈ t.survivors ∨ x.withState .deleted ∈ t.holdings) ∧
      (∀ x ∈ t.survivors, x ∈ s.holdings ∧ x ∈ s'.holdings) ∧
      (∀ a ∈ t.additions, ∀ slot, a.slot = some slot →
        ⟨a.key, slot, a.isPublic⟩ ∈ s'.holdings.map Holding.entry) ∧
      (IndexSet.Roomy t.fixedSlots t.unplaced → ∃ first,
        IsLeast {n | ∀ slot ∈ t.fixedSlots, slot < n} first ∧
        (s'.holdings.map Holding.entry).Perm
        (t.survivors.map Holding.entry ++ t.additions.map fun a =>
          ⟨a.key, a.slot.getD
            (first + t.additions.countP fun b => decide (b.slot = none ∧ b.key < a.key)),
            a.isPublic⟩) ∧
        (t.fixedSlots.Nodup → (s'.holdings.map Holding.slot).Nodup))) ∧
    ∀ s : IndexSet G A, Unchosen s → (s.holdings.map Holding.slot).Nodup := by
  refine ⟨fun s t hs h => ⟨_, IndexSet.commit_eq h.phase, ?_, ?_, ?_, fun hroom => ?_⟩,
    fun _ h => h.apart.distinct⟩
  · exact fun x hx => h.survivor_or hs hx
  · exact fun x hx => ⟨h.mem_of_survivor hs hx, IndexSet.mem_merged.mpr (.inl hx)⟩
  · intro a ha slot hslot
    have hmem := (IndexSet.perm_entries_merged (h.wellFormed hs)).mem_iff
      (a := ⟨a.key, t.slotFor a, a.isPublic⟩)
    rw [IndexSet.slotFor, hslot, Option.getD_some] at hmem
    exact hmem.mpr
      (List.mem_append_right _ (List.mem_map.mpr ⟨a, ha, by rw [IndexSet.slotFor, hslot]; rfl⟩))
  · refine ⟨_, IndexSet.isLeast_firstFreeSlot hroom, ?_, IndexSet.nodup_slots_merged hroom⟩
    have hperm := IndexSet.perm_entries_merged (h.wellFormed hs)
    simp only [IndexSet.slotFor_eq hroom] at hperm
    exact hperm

def sparse : IndexSet UInt64 MeshRole where
  holdings := [⟨2, .valid 7 .owner true⟩, ⟨5, .valid 3 .owner false⟩]

/-- The key with the greatest slot is given up and added again; one of the others has its slot
chosen. -/
def reworked : IndexSet UInt64 MeshRole :=
  (replay IndexSet.answer { sparse with phase := .resize }
    [.deleteGlobal 2, .add ⟨9, .owner⟩ true (some 5), .add ⟨5, .ghost⟩ false none,
      .add ⟨2, .owner⟩ true none, .add ⟨1, .ghost⟩ true none]).2

def sparseSync : Sync UInt64 MeshRole where
  table :=
    { isShared := true, sourceRevision := some 0, destRevision := some 0,
      links := .ofList [(0, .shared [])] }
  set := sparse
  numbering := freshSlots

def hearsay : (r : Request) → r.Answer
  | .post peer _ _ => .ok ⟨peer⟩
  | .wait _ => .ok ()
  | .probe _ _ => .ok ⟨0, 0⟩
  | .receive _ _ =>
    Announcement.encode .basic [(⟨⟨4, .owner⟩, [(1, .ghost)]⟩ : Announcement UInt64 MeshRole)]
  | .queued => .ok 0

theorem slots_apart_reworked :
    (∃ s', reworked.commit = (.ok (), s') ∧ s'.holdings.map Holding.slot = [6, 7, 3, 8, 5] ∧
      (s'.holdings.map Holding.slot).Nodup) ∧
    ∃ es r, (sparseSync.program ⟨1, 2, .basic⟩ {}).Path es (.done r) ∧
      r.set.holdings.map Holding.slot = [7, 8, 3] ∧ (r.set.holdings.map Holding.slot).Nodup := by
  obtain ⟨hwindows, hruns⟩ := slots_apart (G := UInt64) (A := MeshRole)
  have hsparse : sparse.WellFormed := .of_settled (by decide) rfl rfl (by decide)
  constructor
  · have hwindow : sparse.Window reworked := .replay (.opened rfl) (by decide)
    have hroom : IndexSet.Roomy reworked.fixedSlots reworked.unplaced :=
      ⟨6, by decide +kernel, by decide +kernel⟩
    obtain ⟨s', hcommit, -, -, -, hroomy⟩ := hwindows _ _ hsparse hwindow
    obtain ⟨first, -, -, hnodup⟩ := hroomy hroom
    refine ⟨s', hcommit, ?_, hnodup (by decide +kernel)⟩
    have hslots : reworked.commit.2.holdings.map Holding.slot = [6, 7, 3, 8, 5] := by decide_cbv
    rwa [hcommit] at hslots
  · obtain ⟨es, hpath, -⟩ := Program.path_under hearsay (sparseSync.program ⟨1, 2, .basic⟩ {})
    have hsynced :=
      Unchosen.synced (.start hsparse rfl (by decide)) rfl ⟨8, by decide, by decide +kernel⟩
        hpath
    let opened := sparseSync.opened [⟨4, .ghost⟩]
    have hcommitted : _ = (opened.commitBy .plain).2 :=
      Sync.set_under_programBy .plain (b := sparseSync) (by decide +kernel) ⟨1, 2, .basic⟩ {}
        hearsay rfl (by decide +kernel) (by decide +kernel)
    have hslots : (opened.commitBy .plain).2.holdings.map Holding.slot = [7, 8, 3] := by
      decide_cbv
    exact ⟨es, _, hpath, hcommitted ▸ hslots, hruns _ hsynced⟩

end HaloIndex
