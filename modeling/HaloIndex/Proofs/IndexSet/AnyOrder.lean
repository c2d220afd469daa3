import HaloIndex.Proofs.IndexSet.Refinement

namespace HaloIndex

variable {G A : Type}

namespace Call

def isEdit : Call G A → Bool
  | .add .. | .deleteAt _ | .deleteGlobal _ => true
  | .beginResize | .commit | .renumber => false

def queued? : Call G A → Option (Addition G A)
  | .add key isPublic slot => some ⟨key, slot, isPublic⟩
  | _ => none

/-- A window of its own for these calls. -/
def window (calls : List (Call G A)) : List (Call G A) := .beginResize :: (calls ++ [.commit])

end Call

def Entry.holding (e : Entry G A) : Holding G A :=
  ⟨e.key.globalId, .valid e.slot e.key.role e.isPublic⟩

theorem Holding.holding_entry {h : Holding G A} (hvalid : h.isDeleted = false) :
    h.entry.holding = h := by
  obtain ⟨globalId, ⟨slot, state⟩, role, isPublic⟩ := h
  cases state with
  | valid => rfl
  | deleted => cases hvalid

section Replay

variable {σ : Type} {step : σ → Call G A → Except Fault (Option Nat) × σ} {s : σ}

def Accepted (step : σ → Call G A → Except Fault (Option Nat) × σ) (s : σ)
    (calls : List (Call G A)) :
    Prop := ∀ answer ∈ (replay step s calls).1, answer.isOk = true

theorem Accepted.of_cons {call : Call G A} {calls : List (Call G A)}
    (h : Accepted step s (call :: calls)) :
    ∃ count next, step s call = (.ok count, next) ∧ Accepted step next calls ∧
      (replay step s (call :: calls)).2 = (replay step next calls).2 := by
  rw [Accepted, replay] at h
  have hfirst := h _ (List.mem_cons_self ..)
  cases hstep : step s call with
  | mk outcome next =>
    rw [hstep] at h hfirst
    cases outcome with
    | error f => cases hfirst
    | ok count =>
      refine ⟨count, next, rfl,
        fun answer hanswer => h answer (List.mem_cons_of_mem _ hanswer), ?_⟩
      rw [replay, hstep]

theorem accepted_append {calls rest : List (Call G A)} : Accepted step s (calls ++ rest) ↔
    Accepted step s calls ∧ Accepted step (replay step s calls).2 rest := by
  simp only [Accepted, replay_append, List.forall_mem_append]

end Replay

variable [DecidableEq G] [DecidableEq A] [LT G] [LT A] [DecidableLT G] [DecidableLT A]

namespace Ledger

def named (m : Ledger G A) : Call G A → Finset (Key G A)
  | .deleteAt position => m.keys.filter (below m.keys · = position)
  | .deleteGlobal globalId => m.keys.filter (·.globalId = globalId)
  | _ => ∅

/-- The ledger after these edits, in whatever order they are made. -/
def edited (m : Ledger G A) (calls : Finset (Call G A)) : Ledger G A :=
  { m with
    doomed := m.doomed ∪ calls.biUnion m.named
    waiting := m.waiting ∪ calls.biUnion (·.queued?.toFinset) }

def committed (m : Ledger G A) : Ledger G A :=
  { stable := m.live ∪ m.waiting.image m.entryFor, phase := .ground, revision := m.revision + 1 }

@[simp]
theorem edited_empty (m : Ledger G A) : m.edited ∅ = m := by
  simp [edited]

theorem named_edited (m : Ledger G A) (calls : Finset (Call G A)) :
    (m.edited calls).named = m.named := by
  funext call
  cases call <;> rfl

theorem edited_edited (m : Ledger G A) (calls more : Finset (Call G A)) :
    (m.edited calls).edited more = m.edited (calls ∪ more) := by
  rw [edited, named_edited, edited, edited, Finset.union_biUnion, Finset.union_biUnion,
    Finset.union_assoc, Finset.union_assoc]

variable {m : Ledger G A}

variable [Scalar G] [Role A]

theorem step_edit {m' : Ledger G A} {call : Call G A} {count : Option Nat}
    (hedit : call.isEdit = true) (h : m.step call = (.ok count, m')) : m' = m.edited {call} := by
  rw [edited, Finset.singleton_biUnion, Finset.singleton_biUnion]
  cases call with
  | beginResize | commit | renumber => cases hedit
  | add key isPublic slot =>
    obtain ⟨-, h⟩ := ok_of_afterCheck h
    split at h
    next => cases h
    next =>
      cases h
      have hnone : m.named (.add key isPublic slot) = ∅ := rfl
      rw [Call.queued?, Option.toFinset_some, Finset.union_singleton, hnone, Finset.union_empty]
  | deleteAt position =>
    obtain ⟨-, h⟩ := ok_of_afterCheck h
    split at h
    next =>
      cases h
      simp [named, Call.queued?]
    next => cases h
  | deleteGlobal globalId =>
    obtain ⟨-, h⟩ := ok_of_afterCheck h
    cases h
    simp [named, Call.queued?]

/-- What the edits of a window leave depends on which edits there were, and on nothing else. -/
theorem replay_edits {calls : List (Call G A)} (hedits : ∀ call ∈ calls, call.isEdit = true)
    (hok : Accepted step m calls) : (replay step m calls).2 = m.edited calls.toFinset := by
  induction calls generalizing m with
  | nil => exact (edited_empty m).symm
  | cons call calls ih =>
    obtain ⟨count, next, hstep, hrest, hfinal⟩ := hok.of_cons
    have hnext := step_edit (hedits call (List.mem_cons_self ..)) hstep
    rw [hfinal, ih (fun call hcall => hedits call (List.mem_cons_of_mem _ hcall)) hrest, hnext,
      edited_edited, List.toFinset_cons, Finset.insert_eq]

theorem replay_window {calls : List (Call G A)} (hedits : ∀ call ∈ calls, call.isEdit = true)
    (hok : Accepted step m (Call.window calls)) : (replay step m (Call.window calls)).2 =
      ({ m with phase := .resize }.edited calls.toFinset).committed := by
  obtain ⟨_, opened, hopen, hrest, hfinal⟩ := hok.of_cons
  obtain ⟨-, hopen⟩ := ok_of_afterCheck hopen
  cases hopen
  obtain ⟨hcalls, hlast⟩ := accepted_append.mp hrest
  obtain ⟨_, last, hcommit, -, hend⟩ := hlast.of_cons
  obtain ⟨-, hcommit⟩ := ok_of_afterCheck hcommit
  cases hcommit
  rw [Call.window, hfinal, replay_append, hend, ← replay_edits hedits hcalls]
  rfl

end Ledger

namespace IndexSet

variable [IsStrictTotalOrder G (· < ·)] [IsStrictTotalOrder A (· < ·)] {s t : IndexSet G A}

omit [DecidableLT G] [DecidableLT A] in
theorem entries_eq_of_ledger_eq (hs : s.WellFormed) (ht : t.WellFormed)
    (h : s.ledger = t.ledger) :
    s.holdings.map Holding.entry = t.holdings.map Holding.entry := by
  have hascending (u : IndexSet G A) (hu : u.WellFormed) :
      (u.holdings.map Holding.entry).Pairwise fun e e' => e.key < e'.key :=
    List.pairwise_map.mpr (List.pairwise_map.mp hu.ascending)
  have hnodup (u : IndexSet G A) (hu : u.WellFormed) : (u.holdings.map Holding.entry).Nodup := by
    apply List.Nodup.of_map Entry.key
    rw [List.map_map]
    exact hu.ascending.nodup
  have hstable : (s.holdings.map Holding.entry).toFinset =
      (t.holdings.map Holding.entry).toFinset :=
    congrArg Ledger.stable h
  have hperm := List.perm_of_nodup_nodup_toFinset_eq (hnodup s hs) (hnodup t ht) hstable
  exact hperm.eq_of_pairwise (fun e e' _ _ hlt hlt' => absurd hlt' (asymm hlt)) (hascending s hs)
    (hascending t ht)

omit [DecidableLT G] [DecidableLT A] in
/-- Sets at rest are equal if their callers cannot tell them apart. -/
theorem eq_of_ledger_eq (hs : s.WellFormed) (ht : t.WellFormed) (hphase : s.phase = .ground)
    (h : s.ledger = t.ledger) : s = t := by
  have hphases : s.phase = t.phase := congrArg Ledger.phase h
  have hrevisions : s.revision = t.revision := congrArg Ledger.revision h
  have hholdings (u : IndexSet G A) (hu : u.WellFormed) (hground : u.phase = .ground) :
      u.holdings = (u.holdings.map Holding.entry).map Entry.holding := by
    have hback : ∀ h ∈ u.holdings, (Entry.holding ∘ Holding.entry) h = h := fun h hh =>
      Holding.holding_entry ((hu.settled hground).2 h hh)
    rw [List.map_map, List.map_congr_left hback, List.map_id']
  have hsame : s.holdings = t.holdings := by
    rw [hholdings s hs hphase, hholdings t ht (hphases ▸ hphase),
      entries_eq_of_ledger_eq hs ht h]
  obtain ⟨holdings, additions, pendingKeys, phase, revision⟩ := s
  obtain ⟨holdings', additions', pendingKeys', phase', revision'⟩ := t
  obtain rfl : additions = [] := (hs.settled hphase).1
  obtain rfl : additions' = [] := (ht.settled (hphases ▸ hphase)).1
  obtain rfl : pendingKeys = [] := hs.pendingKeys_eq_nil hphase
  obtain rfl : pendingKeys' = [] := ht.pendingKeys_eq_nil (hphases ▸ hphase)
  cases hsame
  cases hphases
  cases hrevisions
  rfl

variable [Scalar G] [Role A]

theorem ledger_window (hs : s.WellFormed) {calls : List (Call G A)}
    (hedits : ∀ call ∈ calls, call.isEdit = true) (hok : Accepted answer s (Call.window calls)) :
    (replay answer s (Call.window calls)).2.ledger =
      ({ s.ledger with phase := .resize }.edited calls.toFinset).committed := by
  have hview := replay_ledger hs (Call.window calls)
  have hok' : Accepted Ledger.step s.ledger (Call.window calls) := by
    rw [Accepted, hview]
    exact hok
  rw [← Ledger.replay_window hedits hok', hview]

/-- The order of the calls in a window does not matter, as long as none of them is refused. -/
theorem window_perm (hs : s.WellFormed) {calls calls' : List (Call G A)}
    (hperm : calls.Perm calls') (hedits : ∀ call ∈ calls, call.isEdit = true)
    (hok : Accepted answer s (Call.window calls))
    (hok' : Accepted answer s (Call.window calls')) :
    (replay answer s (Call.window calls)).2 = (replay answer s (Call.window calls')).2 ∧
      (replay answer s (Call.window calls)).2.phase = .ground ∧
      (replay answer s (Call.window calls)).2.revision = s.revision + 1 := by
  have hinv (calls : List (Call G A)) := wellFormed_replay hs (Call.window calls)
  have hledger := ledger_window hs hedits hok
  have hledger' :=
    ledger_window hs (fun call hcall => hedits call (hperm.mem_iff.mpr hcall)) hok'
  rw [← List.toFinset_eq_of_perm _ _ hperm, ← hledger] at hledger'
  have hphase : (replay answer s (Call.window calls)).2.phase = .ground :=
    congrArg Ledger.phase hledger
  have hrevision : (replay answer s (Call.window calls)).2.revision = s.revision + 1 :=
    congrArg Ledger.revision hledger
  exact ⟨eq_of_ledger_eq (hinv calls) (hinv calls') hphase hledger'.symm, hphase, hrevision⟩

def threeKeys : IndexSet UInt64 MeshRole :=
  (replay answer empty (Call.window [.add ⟨4, .border⟩ true none, .add ⟨1, .ghost⟩ true none,
    .add ⟨1, .owner⟩ true none])).2

/-- Give up an identifier and add one of its roles again, add two more keys, one at a chosen
slot, and delete at a position. -/
def exchangeCalls : List (Call UInt64 MeshRole) :=
  [.deleteGlobal 1, .add ⟨1, .owner⟩ false none, .add ⟨7, .owner⟩ true (some 9), .deleteAt 2,
    .add ⟨3, .overlap⟩ true none]

theorem window_perm_exchangeCalls : threeKeys.keys = [⟨1, .owner⟩, ⟨1, .ghost⟩, ⟨4, .border⟩] ∧
    Accepted answer threeKeys (Call.window exchangeCalls) ∧
    Accepted answer threeKeys (Call.window (exchangeCalls.rotate 3)) ∧
    (replay answer threeKeys (Call.window exchangeCalls)).2 =
      (replay answer threeKeys (Call.window (exchangeCalls.rotate 3))).2 ∧
    (replay answer threeKeys (Call.window exchangeCalls)).2.holdings =
      [⟨1, .valid 10 .owner false⟩, ⟨3, .valid 11 .overlap true⟩,
        ⟨7, .valid 9 .owner true⟩] := by
  have hs : threeKeys.WellFormed := wellFormed_replay wellFormed_empty _
  have hok : Accepted answer threeKeys (Call.window exchangeCalls) :=
    List.all_eq_true.mp (by decide_cbv)
  have hok' : Accepted answer threeKeys (Call.window (exchangeCalls.rotate 3)) :=
    List.all_eq_true.mp (by decide_cbv)
  obtain ⟨hsame, -⟩ := window_perm hs (exchangeCalls.rotate_perm 3).symm (by decide) hok hok'
  exact ⟨by decide_cbv, hok, hok', hsame, by decide_cbv⟩

end IndexSet

end HaloIndex
