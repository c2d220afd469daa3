import HaloIndex.Link.Editor
import HaloIndex.Proofs.IndexSet.Resize
import HaloIndex.Proofs.Link.Table

namespace HaloIndex

variable {G A : Type}

namespace LinkEditor

variable [LT G] [LT A] [DecidableEq G] [DecidableEq A] [DecidableLT G] [DecidableLT A]

/-- All listed links of an identifier below the one that was removed last come before the new
link. -/
def InReach (removed : Option G) (links : List (Link G A)) (l : Link G A) : Prop :=
  ∀ globalId ∈ removed, ∀ x ∈ links, x.globalId < globalId → x < l

section Calls

variable [Scalar G] [Role A]

/-- An editor after any calls, but for inserts out of reach; with the links that were accepted,
the last one first, and the identifier that was removed since, if any. -/
inductive Edits (opened : LinkEditor G A) :
    List (Link G A) → Option G → LinkEditor G A → Prop where
  | start : Edits opened [] none opened
  | inserted {accepted : List (Link G A)} {removed : Option G} {e e' : LinkEditor G A}
      {l : Link G A}
      {added : Bool} (h : Edits opened accepted removed e) (hreach : InReach removed e.links l)
      (hinsert : e.insert l = .ok (added, e')) : Edits opened (l :: accepted) none e'
  | refused {accepted : List (Link G A)} {removed : Option G} {e : LinkEditor G A} {l : Link G A}
      {fault : Fault} (h : Edits opened accepted removed e)
      (hinsert : e.insert l = .error fault) :
    Edits opened accepted removed e
  | removed {accepted : List (Link G A)} {removed : Option G} {e : LinkEditor G A}
      (h : Edits opened accepted removed e) (globalId : G) :
    Edits opened accepted (some globalId) (e.remove globalId).2

end Calls

/-- The links before the cursor are known to be passed by those that are inserted next. -/
def Passed (accepted : List (Link G A)) (first rest : List (Link G A)) : Option G → Prop
  | some globalId => (∀ x ∈ first, x.globalId < globalId) ∧ ∀ x ∈ rest, ¬x.globalId < globalId
  | none => ∀ x ∈ first, ∃ a ∈ accepted, ¬a < x

/-- What all calls preserve that do not insert out of reach. -/
structure Tidy (accepted : List (Link G A)) (removed : Option G)
    (e : LinkEditor G A) : Prop where
  ascending : Ascending e.links
  last : e.last = accepted.head?
  descending : accepted.Pairwise fun later earlier => earlier < later
  cursor : ∃ first rest, e.links = first ++ rest ∧ e.cursor = first.length ∧
    Passed accepted first rest removed

omit [DecidableEq G] [DecidableEq A] [DecidableLT G] [DecidableLT A] in
theorem globalId_le_of_lt [IsStrictTotalOrder G (· < ·)] {l m : Link G A} (h : l < m) :
    ¬m.globalId < l.globalId := by
  rcases h with h | ⟨h, -⟩
  · exact IndexSet.globalId_le_of_key_lt h
  · have hsame : l.globalId = m.globalId := congrArg Key.globalId h
    rw [hsame]
    exact irrefl _

section Removal

variable {e : LinkEditor G A} {accepted : List (Link G A)} {removed : Option G}

omit [LT A] [DecidableEq A] [DecidableLT A] in
theorem remove_eq (e : LinkEditor G A) (globalId : G) :
    (e.remove globalId).1 = e.links.countP (fun l => decide (l.globalId = globalId)) ∧
      (e.remove globalId).2.links = e.links.filter fun l => decide (l.globalId ≠ globalId) := by
  refine ⟨?_, rfl⟩
  have hcount := e.links.length_eq_countP_add_countP fun l => decide (l.globalId = globalId)
  simp only [decide_eq_true_eq] at hcount
  rw [remove, ← List.countP_eq_length_filter]
  exact Nat.sub_eq_of_eq_add hcount

omit [DecidableEq A] [DecidableLT A] in
theorem Tidy.remove [IsStrictTotalOrder G (· < ·)] (h : Tidy accepted removed e) (globalId : G) :
    Tidy accepted (some globalId) (e.remove globalId).2 := by
  have hascending : Ascending (e.remove globalId).2.links := h.ascending.filter _
  have hsplit : (e.remove globalId).2.links.Pairwise fun l m =>
      decide (m.globalId < globalId) = true → decide (l.globalId < globalId) = true := by
    apply hascending.imp
    intro l m hlm hm
    rw [decide_eq_true_eq] at hm ⊢
    by_contra hl
    exact not_lt_trans hl (globalId_le_of_lt hlm) hm
  constructor
  case ascending => exact hascending
  case last => exact h.last
  case descending => exact h.descending
  case cursor =>
    refine ⟨_, _, List.takeWhile_append_dropWhile.symm, partitionPoint_eq hsplit, ?_, ?_⟩
    · intro x hx
      simpa using List.mem_takeWhile_imp hx
    · intro x hx
      rw [dropWhile_eq_filter hsplit, List.mem_filter] at hx
      simpa using hx.2

end Removal

section Search

variable {e : LinkEditor G A} {l : Link G A} {first low high before : List (Link G A)}

theorem place_eq (hlinks : e.links = first ++ (low ++ high)) (hcursor : e.cursor = first.length)
    (hlow : ∀ x ∈ low, x < l) (hhigh : ∀ x ∈ high, ¬x < l) :
    e.cursor + Bisection.partitionPoint (fun x => decide (x < l)) (e.links.drop e.cursor) =
      (first ++ low).length := by
  rw [hcursor, hlinks, List.drop_left, Bisection.partitionPoint_append, List.length_append]
  · exact fun x hx => decide_eq_true (hlow x hx)
  · exact fun x hx => decide_eq_false (hhigh x hx)

def insertedAt (e : LinkEditor G A) (l : Link G A) (before high : List (Link G A)) :
    Bool × LinkEditor G A :=
  if high.head? = some l then (false, { e with cursor := before.length, last := some l })
  else (true, { e with
    links := before ++ l :: high, cursor := before.length + 1, last := some l })

theorem insert_of_split [Scalar G] [Role A] (hlinks : e.links = first ++ (low ++ high))
    (hcursor : e.cursor = first.length) (hlow : ∀ x ∈ low, x < l) (hhigh : ∀ x ∈ high, ¬x < l)
    (hlast : ∀ a ∈ e.last, a < l) {h : Holding G A} (hheld : l.holding e.set = .ok h) :
    e.insert l = .ok (e.insertedAt l (first ++ low) high) := by
  have hguard : (e.last.any fun last => !decide (last < l)) = false := by
    rw [Option.any_eq_false]
    intro a ha
    simpa using hlast a ha
  have hget : e.links[(first ++ low).length]? = high.head? := by
    rw [hlinks, ← List.append_assoc, List.getElem?_append_right (Nat.le_refl _), Nat.sub_self,
      List.head?_eq_getElem?]
  have hinsert : e.links.insertIdx (first ++ low).length l = first ++ low ++ l :: high := by
    rw [hlinks, ← List.append_assoc, insertIdx_length_append]
  rw [insert, hguard, hheld]
  simp only [place_eq hlinks hcursor hlow hhigh, hget, hinsert]
  change (if high.head? = some l then _ else _) = _
  rw [insertedAt]
  split <;> rfl

variable [IsStrictTotalOrder G (· < ·)] [IsStrictTotalOrder A (· < ·)]
  {accepted : List (Link G A)} {removed : Option G}

theorem Passed.lt {rest : List (Link G A)} (h : Passed accepted first rest removed)
    (hlinks : e.links = first ++ rest) (hlast : ∀ a ∈ accepted, a < l)
    (hreach : InReach removed e.links l) :
    ∀ x ∈ first, x < l := by
  intro x hx
  cases removed with
  | none =>
    obtain ⟨a, ha, hle⟩ := h x hx
    by_contra hnot
    exact not_lt_trans hnot hle (hlast a ha)
  | some globalId => exact hreach globalId rfl x (hlinks ▸ List.mem_append_left _ hx) (h.1 x hx)

theorem above_of_head (hhigh : Ascending high) (hnot : ∀ x ∈ high, ¬x < l)
    (hhead : high.head? ≠ some l) :
    ∀ x ∈ high, l < x := by
  intro x hx
  by_contra hle
  obtain rfl := Std.Trichotomous.trichotomous x l (hnot x hx) hle
  cases high with
  | nil => cases hx
  | cons y high =>
    rcases List.mem_cons.mp hx with rfl | hx
    · exact hhead rfl
    · exact hnot y (List.mem_cons_self ..) ((List.pairwise_cons.mp hhigh).1 x hx)

/-- Put between the links that are smaller and the others, a link keeps the list ascending. -/
theorem Tidy.insertedAt (h : Tidy accepted removed e) (hlast : ∀ a ∈ accepted, a < l)
    (hlinks : e.links = before ++ high) (hbefore : ∀ x ∈ before, x < l)
    (hhigh : ∀ x ∈ high, ¬x < l) :
    (e.insertedAt l before high).1 = decide (l ∉ e.links) ∧
      Tidy (l :: accepted) none (e.insertedAt l before high).2 ∧
      (∀ x, x ∈ (e.insertedAt l before high).2.links ↔ x = l ∨ x ∈ e.links) ∧
      (l ∈ e.links → (e.insertedAt l before high).2.links = e.links) := by
  have hdescending : (l :: accepted).Pairwise fun later earlier => earlier < later :=
    List.pairwise_cons.mpr ⟨hlast, h.descending⟩
  have hpassed : ∀ x ∈ before, ∃ a ∈ l :: accepted, ¬a < x :=
    fun x hx => ⟨l, List.mem_cons_self .., asymm (hbefore x hx)⟩
  have hascending := h.ascending
  rw [hlinks] at hascending
  rw [LinkEditor.insertedAt]
  split
  next hhead =>
    obtain ⟨tail, rfl⟩ := List.head?_eq_some_iff.mp hhead
    have hmem : l ∈ e.links := hlinks ▸ List.mem_append_right _ (List.mem_cons_self ..)
    refine ⟨by simpa using hmem, ?_, fun x => ?_, fun _ => rfl⟩
    · exact ⟨h.ascending, rfl, hdescending, before, l :: tail, hlinks, rfl, hpassed⟩
    · exact ⟨.inr, fun hx => hx.elim (fun heq => heq ▸ hmem) id⟩
  next hhead =>
    have habove := above_of_head (List.pairwise_append.mp hascending).2.1 hhigh hhead
    have hmem : l ∉ e.links := by
      rw [hlinks, List.mem_append]
      rintro (hl | hl)
      · exact irrefl l (hbefore l hl)
      · exact irrefl l (habove l hl)
    refine ⟨by simpa using hmem, ?_, fun x => ?_, fun hl => absurd hl hmem⟩
    · refine ⟨hascending.between hbefore habove, rfl, hdescending, before ++ [l],
        high, ?_, ?_, ?_⟩
      · exact List.append_cons ..
      · simp
      · intro x hx
        rcases List.mem_append.mp hx with hx | hx
        · exact hpassed x hx
        · obtain rfl := List.mem_singleton.mp hx
          exact ⟨x, List.mem_cons_self .., irrefl x⟩
    · rw [hlinks]
      simp only [List.mem_append, List.mem_cons]
      tauto

variable [Scalar G] [Role A] {holding : Holding G A}

theorem Tidy.exists_split (h : Tidy accepted removed e) (hlast : ∀ a ∈ accepted, a < l)
    (hheld : l.holding e.set = .ok holding) :
    ∃ first low high, e.links = first ++ (low ++ high) ∧
      Passed accepted first (low ++ high) removed ∧ (∀ x ∈ low, x < l) ∧ (∀ x ∈ high, ¬x < l) ∧
        e.insert l = .ok (e.insertedAt l (first ++ low) high) := by
  obtain ⟨first, rest, hlinks, hcursor, hpassed⟩ := h.cursor
  have hrest : Ascending (rest.map fun x => x) := by
    rw [List.map_id']
    exact (List.pairwise_append.mp (hlinks ▸ h.ascending)).2.1
  obtain ⟨low, high, rfl, hlow, hhigh⟩ := HaloIndex.exists_split (fun x => x) l hrest
  refine ⟨first, low, high, hlinks, hpassed, hlow, hhigh, ?_⟩
  apply insert_of_split hlinks hcursor hlow hhigh _ hheld
  intro a ha
  exact hlast a (List.mem_of_head? (h.last ▸ ha))

theorem Tidy.insert (h : Tidy accepted removed e) (hlast : ∀ a ∈ accepted, a < l)
    (hreach : InReach removed e.links l) (hheld : l.holding e.set = .ok holding) :
    ∃ e', e.insert l = .ok (decide (l ∉ e.links), e') ∧ Tidy (l :: accepted) none e' ∧
      (∀ x, x ∈ e'.links ↔ x = l ∨ x ∈ e.links) ∧ (l ∈ e.links → e'.links = e.links) := by
  obtain ⟨first, low, high, hlinks, hpassed, hlow, hhigh, hinsert⟩ := h.exists_split hlast hheld
  have hbefore : ∀ x ∈ first ++ low, x < l :=
    fun x hx => (List.mem_append.mp hx).elim (hpassed.lt hlinks hlast hreach x) (hlow x)
  rw [← List.append_assoc] at hlinks
  obtain ⟨hadded, hrest⟩ := h.insertedAt hlast hlinks hbefore hhigh
  exact ⟨_, hadded ▸ hinsert, hrest⟩

/-- Out of reach, a link is put behind one that does not come before it. -/
theorem Tidy.insert_outOfReach (h : Tidy accepted removed e) (hlast : ∀ a ∈ accepted, a < l)
    (hreach : ¬InReach removed e.links l) (hheld : l.holding e.set = .ok holding) :
    ∃ e', e.insert l = .ok (true, e') ∧ ¬Ascending e'.links := by
  obtain ⟨first, low, high, hlinks, hpassed, hlow, hhigh, hinsert⟩ := h.exists_split hlast hheld
  obtain ⟨globalId, rfl, x, hx, hglobal, hnot⟩ : ∃ globalId, removed = some globalId ∧
      ∃ x ∈ e.links, x.globalId < globalId ∧ ¬x < l := by simpa [InReach] using hreach
  have hfirst : x ∈ first := by
    rw [hlinks] at hx
    exact (List.mem_append.mp hx).resolve_right fun hx => hpassed.2 x hx hglobal
  have hhead : high.head? ≠ some l := by
    intro hhead
    have hl : l ∈ low ++ high := List.mem_append_right _ (List.mem_of_head? hhead)
    exact hnot ((List.pairwise_append.mp (hlinks ▸ h.ascending)).2.2 x hfirst l hl)
  rw [LinkEditor.insertedAt, if_neg hhead] at hinsert
  refine ⟨_, hinsert, fun hascending => hnot ?_⟩
  exact (List.pairwise_append.mp hascending).2.2 x (List.mem_append_left _ hfirst) l
    (List.mem_cons_self ..)

end Search

section Runs

variable [Scalar G] [Role A] {opened e e' : LinkEditor G A} {l : Link G A}
  {accepted : List (Link G A)} {removed : Option G}

theorem ok_of_insert {added : Bool} (h : e.insert l = .ok (added, e')) :
    (∀ a ∈ e.last, a < l) ∧ (∃ holding, l.holding e.set = .ok holding) ∧ e'.rank = e.rank ∧
      e'.set = e.set := by
  rw [insert] at h
  split at h
  next => cases h
  next hguard =>
    cases hheld : l.holding e.set with
    | error fault =>
      rw [hheld] at h
      cases h
    | ok holding =>
      rw [hheld] at h
      have hlast : ∀ a ∈ e.last, a < l := by
        intro a ha
        rw [ha] at hguard
        simpa using hguard
      refine ⟨hlast, ⟨holding, rfl⟩, ?_⟩
      change (if e.links[_]? = some l then _ else _) = _ at h
      split at h <;> cases h <;> exact ⟨rfl, rfl⟩

theorem Edits.same (h : Edits opened accepted removed e) :
    e.rank = opened.rank ∧ e.set = opened.set := by
  induction h with
  | start => exact ⟨rfl, rfl⟩
  | inserted _ _ hinsert ih =>
    obtain ⟨-, -, hrank, hset⟩ := ok_of_insert hinsert
    exact ⟨hrank.trans ih.1, hset.trans ih.2⟩
  | refused _ _ ih => exact ih
  | removed _ _ ih => exact ih

variable [IsStrictTotalOrder G (· < ·)] [IsStrictTotalOrder A (· < ·)]

omit [DecidableEq G] [DecidableEq A] [DecidableLT G] [DecidableLT A] [Scalar G] [Role A] in
/-- The last link that was accepted stands for all of them. -/
theorem Tidy.last_lt_iff (h : Tidy accepted removed e) :
    (∀ a ∈ e.last, a < l) ↔ ∀ a ∈ accepted, a < l := by
  rw [h.last]
  cases accepted with
  | nil => simp
  | cons last earlier =>
    have hearlier := (List.pairwise_cons.mp h.descending).1
    constructor
    · intro hlast a ha
      have hl := hlast last rfl
      rcases List.mem_cons.mp ha with rfl | ha
      · exact hl
      · exact IsTrans.trans _ _ _ (hearlier a ha) hl
    · intro hall a ha
      exact hall a (List.mem_of_head? ha)

theorem Edits.tidy (h : Edits opened accepted removed e) (hopened : Tidy [] none opened) :
    Tidy accepted removed e := by
  induction h with
  | start => exact hopened
  | inserted _ hreach hinsert ih =>
    obtain ⟨hlast, ⟨holding, hheld⟩, -⟩ := ok_of_insert hinsert
    obtain ⟨e', hinsert', htidy, -⟩ := ih.insert (ih.last_lt_iff.mp hlast) hreach hheld
    cases hinsert.symm.trans hinsert'
    exact htidy
  | refused _ _ ih => exact ih
  | removed _ globalId ih => exact ih.remove globalId

omit [DecidableEq A] in
theorem holding_of_mem {set : IndexSet G A} (hset : set.AtRest) (hl : l.localKey ∈ set.keys) :
    ∃ holding, l.holding set = .ok holding := by
  obtain ⟨h, hh⟩ := IndexSet.mem_keys.mp hl
  rw [Link.holding, IndexSet.findKey, IndexSet.require, if_pos hset.phase,
    (IndexSet.holdingOf_eq_some_iff hset.ascending).mpr hh]
  exact ⟨h, rfl⟩

omit [DecidableEq A] in
theorem holding_of_not_mem {set : IndexSet G A} (hset : set.AtRest)
    (hl : l.localKey ∉ set.keys) :
    l.holding set = .error (.unknownGlobal l.localKey.text) := by
  have hnone : set.holdingOf l.localKey = none := by
    rw [Option.eq_none_iff_forall_ne_some]
    intro h hh
    exact hl (IndexSet.mem_keys.mpr ⟨h, (IndexSet.holdingOf_eq_some_iff hset.ascending).mp hh⟩)
  rw [Link.holding, IndexSet.findKey, IndexSet.require, if_pos hset.phase, hnone]
  rfl

theorem Tidy.insert_outOfOrder (h : Tidy accepted removed e) (hl : ∃ a ∈ accepted, ¬a < l) :
    e.insert l = .error (.insertOutOfOrder e.rank (Scalar.text l.globalId)) := by
  obtain ⟨a, ha, hle⟩ := hl
  have hguard : (e.last.any fun last => !decide (last < l)) = true := by
    by_contra hnot
    rw [Bool.not_eq_true, Option.any_eq_false] at hnot
    exact hle (h.last_lt_iff.mp (fun b hb => by simpa using hnot b hb) a ha)
  rw [LinkEditor.insert, if_pos hguard]
  rfl

theorem Tidy.insert_unknown (h : Tidy accepted removed e) (hset : e.set.AtRest)
    (hlast : ∀ a ∈ accepted, a < l) (hl : l.localKey ∉ e.set.keys) :
    e.insert l = .error (.unknownGlobal l.localKey.text) := by
  have hguard : (e.last.any fun last => !decide (last < l)) = false := by
    rw [Option.any_eq_false]
    intro a ha
    simpa using h.last_lt_iff.mpr hlast a ha
  rw [LinkEditor.insert, hguard, holding_of_not_mem hset hl]
  rfl

end Runs

end LinkEditor

open LinkEditor

theorem LinkTable.edit_eq_ok {t t' : LinkTable G A} {rank : Nat} {set : IndexSet G A}
    {opened : LinkEditor G A} (h : t.edit rank set = .ok (opened, t')) :
    opened = ⟨rank, set, t.sendTo rank, 0, none⟩ := by
  obtain ⟨-, h⟩ := IndexSet.ok_of_require h
  split at h <;> cases h
  rfl

variable [LT G] [LT A] [DecidableEq G] [DecidableEq A] [DecidableLT G] [DecidableLT A] [Scalar G]
  [Role A] [IsStrictTotalOrder G (· < ·)] [IsStrictTotalOrder A (· < ·)]

/-- As long as every link that was accepted was in reach, the list ascends, a removal takes all
links of its identifier, and of the links that come after all accepted ones those in reach find
their places. They are all in reach unless something was removed since the last of them. A link
out of reach is accepted too, but from then on the list does not ascend. -/
theorem LinkTable.edits_ascending {t t' : LinkTable G A} {rank : Nat} {set : IndexSet G A}
    (hset : set.AtRest) (hlist : Ascending (t.sendTo rank)) {opened e : LinkEditor G A}
    (hedit : t.edit rank set = .ok (opened, t')) {accepted : List (Link G A)}
    {removed : Option G} (h : Edits opened accepted removed e) :
    Ascending e.links ∧
    (∀ globalId, (e.remove globalId).1 =
      e.links.countP (fun l => decide (l.globalId = globalId)) ∧
      (e.remove globalId).2.links = e.links.filter fun l => decide (l.globalId ≠ globalId)) ∧
    ∀ l, ((∃ a ∈ accepted, ¬a < l) →
        e.insert l = .error (.insertOutOfOrder rank (Scalar.text l.globalId))) ∧
      ((∀ a ∈ accepted, a < l) → l.localKey ∉ set.keys →
        e.insert l = .error (.unknownGlobal l.localKey.text)) ∧
      ((∀ a ∈ accepted, a < l) → l.localKey ∈ set.keys →
        (InReach removed e.links l → ∃ e', e.insert l = .ok (decide (l ∉ e.links), e') ∧
          Ascending e'.links ∧ (∀ x, x ∈ e'.links ↔ x = l ∨ x ∈ e.links) ∧
            (l ∈ e.links → e'.links = e.links)) ∧
        (¬InReach removed e.links l →
          ∃ e', e.insert l = .ok (true, e') ∧ ¬Ascending e'.links)) := by
  obtain rfl := edit_eq_ok hedit
  have htidy := h.tidy ⟨hlist, rfl, .nil, [], _, rfl, rfl, List.forall_mem_nil _⟩
  obtain ⟨hrank, hsame⟩ := h.same
  refine ⟨htidy.ascending, remove_eq e,
    fun l => ⟨fun hl => ?_, fun hlast hl => ?_, fun hlast hl => ?_⟩⟩
  · exact (show e.rank = rank from hrank) ▸ htidy.insert_outOfOrder hl
  · exact htidy.insert_unknown (hsame ▸ hset) hlast (hsame ▸ hl)
  · obtain ⟨holding, hheld⟩ := holding_of_mem hset hl
    rw [← show e.set = set from hsame] at hheld
    refine ⟨fun hreach => ?_, fun hreach => htidy.insert_outOfReach hlast hreach hheld⟩
    obtain ⟨e', hinsert, htidy', hmem, hpresent⟩ := htidy.insert hlast hreach hheld
    exact ⟨e', hinsert, htidy'.ascending, hmem, hpresent⟩

def ownedNodes : IndexSet UInt64 MeshRole where
  holdings := [⟨1, .valid 0 .owner true⟩, ⟨3, .valid 1 .owner true⟩, ⟨9, .valid 2 .owner true⟩]

def ghostOf (globalId : UInt64) : Link UInt64 MeshRole := ⟨globalId, .owner, .ghost⟩

def twoListed : LinkTable UInt64 MeshRole where
  links := NatMap.empty.insert 1 (.shared [ghostOf 3, ghostOf 9])
  isShared := true

def openedNodes : LinkEditor UInt64 MeshRole := ⟨1, ownedNodes, [ghostOf 3, ghostOf 9], 0, none⟩

/-- The smaller of the two is removed. Then the other is in reach, and once it is accepted
nothing below it is. -/
theorem LinkTable.edits_ascending_present : ∃ t' e',
    twoListed.edit 1 ownedNodes = .ok (openedNodes, t') ∧
    (openedNodes.remove 3).2.insert (ghostOf 9) = .ok (false, e') ∧ e'.links = [ghostOf 9] ∧
    e'.insert (ghostOf 1) = .error (.insertOutOfOrder 1 (Scalar.text (1 : UInt64))) := by
  have hset : ownedNodes.AtRest := ⟨rfl, by decide⟩
  have hlist : Ascending (twoListed.sendTo 1) := by decide
  have hremoved : Edits openedNodes [] (some 3) (openedNodes.remove 3).2 := .removed .start 3
  have hlinks : (openedNodes.remove 3).2.links = [ghostOf 9] := by decide
  have hreach : InReach (some 3) (openedNodes.remove 3).2.links (ghostOf 9) := by
    rintro _ ⟨⟩ x hx hlt
    rw [hlinks, List.mem_singleton] at hx
    subst hx
    exact absurd hlt (by decide)
  obtain ⟨-, -, hinserts⟩ := edits_ascending hset hlist rfl hremoved
  obtain ⟨e', hinsert, -, -, hpresent⟩ := ((hinserts (ghostOf 9)).2.2 nofun (by decide)).1 hreach
  have hafter := hremoved.inserted hreach hinsert
  refine ⟨_, e', rfl, hinsert.trans (by rw [hlinks]; rfl),
    hpresent (by decide) |>.trans hlinks, ?_⟩
  exact ((edits_ascending hset hlist rfl hafter).2.2 (ghostOf 1)).1
    ⟨ghostOf 9, by decide, by decide⟩

/-- The greater of the two is removed. Then smaller links are put behind the other, and the other
itself once more. -/
theorem LinkTable.edit_disordered : ∃ t' e e',
    twoListed.edit 1 ownedNodes = .ok (openedNodes, t') ∧
    (openedNodes.remove 9).2.insert (ghostOf 1) = .ok (true, e) ∧
    e.links = [ghostOf 3, ghostOf 1] ∧ ¬Ascending e.links ∧
    e.insert (ghostOf 3) = .ok (true, e') ∧ e'.links = [ghostOf 3, ghostOf 1, ghostOf 3] := by
  refine ⟨_, ⟨1, ownedNodes, [ghostOf 3, ghostOf 1], 2, ghostOf 1⟩,
    ⟨1, ownedNodes, [ghostOf 3, ghostOf 1, ghostOf 3], 3, ghostOf 3⟩,
    rfl, ?_, rfl, by decide, ?_, rfl⟩
  · with_unfolding_all rfl
  · with_unfolding_all rfl

end HaloIndex
