import HaloIndex.Proofs.IndexSet.Resize

namespace HaloIndex

inductive Deletion (G : Type) where
  | one (position : Nat)
  | all (globalId : G)
  deriving DecidableEq

namespace IndexSet

variable {G A : Type}

/-- Some holdings of a set are flagged, in an open window in which nothing waits. -/
structure Flagged (s : IndexSet G A) (doomed : Key G A → Bool) (s' : IndexSet G A) : Prop where
  holdings : s'.holdings = s.holdings.map fun h =>
    if doomed h.key then h.withState .deleted else h
  additions : s'.additions = []
  pendingKeys : s'.pendingKeys = []
  phase : s'.phase = .resize
  revision : s'.revision = s.revision

section Flags

variable {s s' : IndexSet G A} {doomed : Key G A → Bool}

theorem Flagged.keys (h : s.Flagged doomed s') : s'.keys = s.keys := by
  rw [IndexSet.keys, h.holdings, List.map_map]
  apply List.map_congr_left
  intro x _
  rw [Function.comp_apply]
  split
  · rfl
  · rfl

theorem Flagged.more (h : s.Flagged doomed s') (more : Key G A → Bool) : s.Flagged
    (fun k => doomed k || more k)
    { s' with
      holdings := s'.holdings.map fun h => if more h.key then h.withState .deleted else h } := by
  refine ⟨?_, h.additions, h.pendingKeys, h.phase, h.revision⟩
  rw [h.holdings, List.map_map]
  apply List.map_congr_left
  intro x _
  rw [Function.comp_apply]
  cases hdoomed : doomed x.key with
  | false => simp
  | true =>
    simp only [if_true, Bool.true_or, Holding.key_withState]
    split
    · rfl
    · rfl

theorem Flagged.survivors (h : s.Flagged doomed s')
    (hvalid : ∀ h ∈ s.holdings, h.isDeleted = false) :
    s'.survivors = s.holdings.filter fun h => !doomed h.key := by
  rw [IndexSet.survivors, h.holdings, List.filter_map]
  have htest : ∀ x ∈ s.holdings, ((fun x => !x.isDeleted) ∘ fun x : Holding G A =>
      if doomed x.key then x.withState .deleted else x) x = !doomed x.key := by
    intro x hx
    rw [Function.comp_apply]
    cases hdoomed : doomed x.key with
    | true => rfl
    | false => rw [if_neg Bool.false_ne_true, hvalid x hx]
  have hkept : ∀ x ∈ s.holdings.filter fun x => !doomed x.key,
      (if doomed x.key then x.withState .deleted else x) = x := by
    intro x hx
    apply if_neg
    simpa using (List.mem_filter.mp hx).2
  rw [List.filter_congr htest, List.map_congr_left hkept, List.map_id']

theorem map_filtered {β : Type} {p : β → Bool} {before same after : List β} (f : β → β)
    (h : same = (before ++ same ++ after).filter p) :
    before ++ same.map f ++ after = (before ++ same ++ after).map fun x =>
    if p x then f x else x := by
  have hsame : ∀ x ∈ same, p x = true := by
    intro x hx
    rw [h] at hx
    exact (List.mem_filter.mp hx).2
  have hlength := congrArg List.length h
  rw [List.filter_append, List.filter_append, List.filter_eq_self.mpr hsame, List.length_append,
    List.length_append] at hlength
  have hfixed : ∀ other : List β, (other.filter p).length = 0 →
      other.map (fun x => if p x then f x else x) = other := by
    intro other hnone
    rw [List.length_eq_zero_iff, List.filter_eq_nil_iff] at hnone
    rw [List.map_congr_left fun x hx => if_neg (hnone x hx), List.map_id']
  rw [List.map_append, List.map_append, hfixed before (by omega), hfixed after (by omega),
    List.map_congr_left fun x hx => if_pos (hsame x hx)]

end Flags

variable [DecidableEq G]

def names [DecidableEq A] (s : IndexSet G A) (k : Key G A) : Deletion G → Bool
  | .one position => decide (s.keys[position]? = some k)
  | .all globalId => decide (k.globalId = globalId)

def remainder [DecidableEq A] (s : IndexSet G A) (deletions : List (Deletion G)) :
    IndexSet G A :=
  { s with
    holdings := s.holdings.filter fun h => !deletions.any (s.names h.key)
    revision := s.revision + 1 }

theorem mem_keys_remainder [DecidableEq A] {s : IndexSet G A} {deletions : List (Deletion G)}
    {k : Key G A} :
    k ∈ (s.remainder deletions).keys ↔ k ∈ s.keys ∧ deletions.any (s.names k) = false := by
  rw [mem_keys, mem_keys]
  constructor
  · rintro ⟨h, hh, rfl⟩
    obtain ⟨hmem, hkept⟩ := List.mem_filter.mp hh
    exact ⟨⟨h, hmem, rfl⟩, Bool.not_eq_true' _ ▸ hkept⟩
  · rintro ⟨⟨h, hh, rfl⟩, hkept⟩
    exact ⟨h, List.mem_filter.mpr ⟨hh, by rw [hkept]; rfl⟩, rfl⟩

variable [LT G]

theorem WellFormed.remainder [LT A] [DecidableEq A] {s : IndexSet G A} (hs : s.WellFormed)
    (hphase : s.phase = .ground) (deletions : List (Deletion G)) :
    (s.remainder deletions).WellFormed := by
  obtain ⟨hnone, hvalid⟩ := hs.settled hphase
  refine .of_settled ?_ hnone (hs.pendingKeys_eq_nil hphase) fun h hh => ?_
  · exact hs.ascending.sublist (List.filter_sublist.map _)
  · exact hvalid h (List.mem_filter.mp hh).1

variable [DecidableLT G]

def mark (s : IndexSet G A) : Deletion G → Except Fault Unit × IndexSet G A
  | .one position => s.deleteAt position
  | .all globalId =>
    let (outcome, marked) := s.deleteGlobal globalId
    (outcome.map fun _ => (), marked)

/-- Flag what is named by these in turn, until one of them is refused. -/
def markEach (s : IndexSet G A) : List (Deletion G) → Except Fault Unit × IndexSet G A
  | [] => (.ok (), s)
  | d :: rest =>
    match s.mark d with
    | (.error f, s) => (.error f, s)
    | (.ok (), s) => markEach s rest

variable [LT A]

/-- Delete some holdings in a window of their own. -/
def without [DecidableLT A] (s : IndexSet G A) (deletions : List (Deletion G)) :
    Except Fault Unit × IndexSet G A :=
  match s.beginResize with
  | (.error f, s) => (.error f, s)
  | (.ok (), opened) =>
    match opened.markEach deletions with
    | (.error f, s) => (.error f, s)
    | (.ok (), marked) => marked.commit

variable [DecidableEq A] [IsStrictTotalOrder G (· < ·)] [IsStrictTotalOrder A (· < ·)]
  {s s' : IndexSet G A} {doomed : Key G A → Bool}

theorem mark_eq (hs : Ascending s.keys) (hphase : s.phase = .resize) {d : Deletion G}
    (hd : ∀ i, d = .one i → i < s.size) :
    s.mark d = (.ok (), { s with
      holdings := s.holdings.map fun h =>
        if s.names h.key d then h.withState .deleted else h }) := by
  cases d with
  | one i =>
    have hi := hd i rfl
    have hmodify : s.holdings.modify i (Holding.withState · .deleted) =
        s.holdings.map fun h => if s.names h.key (.one i) then h.withState .deleted else h := by
      apply List.ext_getElem (by simp)
      intro j hj hj'
      rw [List.length_map] at hj'
      have hkey : s.keys[j]? = some s.holdings[j].key := by simp [keys, hj']
      have hnames : s.names s.holdings[j].key (.one i) = decide (i = j) := by
        rw [names, ← hkey, decide_eq_decide]
        apply List.getElem?_inj _ hs.nodup
        simpa [keys, size] using hi
      simp only [List.getElem_modify, List.getElem_map, hnames, decide_eq_true_eq]
    rw [mark, deleteAt, afterCheck_require hphase, ← hmodify]
    simp only [hi, if_true]
  | all globalId =>
    have hsame := splitAtGlobal_eq hs globalId
    have hsplit := s.splitAtGlobal_append globalId
    rw [← hsplit] at hsame
    have hflag := map_filtered (Holding.withState · .deleted) hsame
    rw [hsplit] at hflag
    rw [mark, deleteGlobal, afterCheck_require hphase]
    exact congrArg (fun holdings =>
      (Except.ok (), ({ s with holdings := holdings } : IndexSet G A))) hflag

theorem markEach_eq (hs : Ascending s.keys) {deletions : List (Deletion G)}
    (hin : ∀ i, .one i ∈ deletions → i < s.size) (h : s.Flagged doomed s') :
    ∃ marked, s'.markEach deletions = (.ok (), marked) ∧
      s.Flagged (fun k => doomed k || deletions.any (s.names k)) marked := by
  induction deletions generalizing doomed s' with
  | nil => exact ⟨s', rfl, by simpa using h⟩
  | cons d deletions ih =>
    have hkeys := h.keys
    have hsize : s'.size = s.size := by simpa [keys, size] using congrArg List.length hkeys
    have hnames (k : Key G A) : s'.names k d = s.names k d := by
      cases d <;> simp only [names, hkeys]
    have hmark := mark_eq (s := s') (hkeys ▸ hs) h.phase (d := d) fun i hi =>
      hsize ▸ hin i (hi ▸ List.mem_cons_self ..)
    simp only [hnames] at hmark
    obtain ⟨marked, hrest, hflagged⟩ := ih (fun i hi => hin i (List.mem_cons_of_mem _ hi))
      (h.more (s.names · d))
    refine ⟨marked, ?_, by simpa [Bool.or_assoc] using hflagged⟩
    rw [markEach, hmark]
    exact hrest

variable [DecidableLT A]

/-- Deletions drop what they name, and nothing else. -/
theorem without_eq (hs : s.WellFormed) (hphase : s.phase = .ground)
    {deletions : List (Deletion G)} (hin : ∀ i, .one i ∈ deletions → i < s.size) :
    s.without deletions = (.ok (), s.remainder deletions) := by
  obtain ⟨hnone, hvalid⟩ := hs.settled hphase
  have hpending := hs.pendingKeys_eq_nil hphase
  have hopened : s.Flagged (fun _ => false) { s with phase := .resize } :=
    ⟨by simp, hnone, hpending, rfl, rfl⟩
  obtain ⟨marked, hmarked, hflagged⟩ := markEach_eq hs.ascending hin hopened
  have hcommit := commit_eq hflagged.phase
  rw [committed, merged_of_none hflagged.additions, hflagged.survivors hvalid,
    hflagged.revision] at hcommit
  simp only [Bool.false_or] at hcommit
  rw [without, beginResize_eq hphase]
  simp only [hmarked, hcommit]
  rw [remainder, hphase, hnone, hpending]

end IndexSet

end HaloIndex
