import HaloIndex.Proofs.IndexSet.Resize
import HaloIndex.Sync.Discovery

namespace HaloIndex

variable {G A : Type}

namespace Discovery

section ForEach

variable {β σ : Type} {act : β → σ → Except Fault Unit × σ} {inv : σ → Prop} {xs : List β}

theorem forEach_eq (h : ∀ x ∈ xs, ∀ s, inv s → (act x s).1 = .ok () ∧ inv (act x s).2) {s : σ}
    (hs : inv s) : forEach act xs s = (.ok (), xs.foldl (fun s x => (act x s).2) s) ∧
      inv (xs.foldl (fun s x => (act x s).2) s) := by
  induction xs generalizing s with
  | nil => exact ⟨rfl, hs⟩
  | cons x xs ih =>
    obtain ⟨hok, hkeep⟩ := h x (List.mem_cons_self ..) s hs
    have hfirst : act x s = (.ok (), (act x s).2) := Prod.ext hok rfl
    rw [forEach, hfirst]
    exact ih (fun y hy => h y (List.mem_cons_of_mem _ hy)) hkeep

theorem forEach_induction {P : σ → Prop} (h : ∀ x ∈ xs, ∀ s, P s → P (act x s).2)
    {s : σ} (hs : P s) :
    P (forEach act xs s).2 := by
  induction xs generalizing s with
  | nil => exact hs
  | cons x xs ih =>
    have hfirst := h x (List.mem_cons_self ..) s hs
    rw [forEach]
    split
    next f s' hact =>
      rw [hact] at hfirst
      exact hfirst
    next s' hact =>
      rw [hact] at hfirst
      exact ih (fun y hy => h y (List.mem_cons_of_mem _ hy)) hfirst

end ForEach

def linksTo (d : Discovery G A) (rank : Nat) : List (Link G A) := (d.links.get? rank).getD []

variable [LT G] [LT A]

structure Open (d : Discovery G A) : Prop where
  wellFormed : d.set.WellFormed
  phase : d.set.phase = .resize
  ascending : ∀ rank, Ascending (d.linksTo rank)

variable [DecidableEq G] [DecidableEq A] [DecidableLT G] [DecidableLT A]

/-- From one state to the next these keys and links were learned, and nothing else. -/
structure Learns (d : Discovery G A) (keys : Key G A → Prop) (links : Nat → Link G A → Prop)
    (d' : Discovery G A) : Prop where
  stillOpen : d'.Open
  holdings : d'.set.holdings = d.set.holdings
  holds : ∀ k, d'.set.holds k = true ↔ d.set.holds k = true ∨ keys k
  linked : ∀ rank l, l ∈ d'.linksTo rank ↔ l ∈ d.linksTo rank ∨ links rank l
  listed : ∀ rank, (d'.links.get? rank).isSome ↔
    (d.links.get? rank).isSome ∨ ∃ l, links rank l

namespace Learns

variable {d d' d'' : Discovery G A} {keys keys' : Key G A → Prop}
  {links links' : Nat → Link G A → Prop}

theorem nothing (h : d.Open) : Learns d (fun _ => False) (fun _ _ => False) d :=
  ⟨h, rfl, by simp, by simp, by simp⟩

theorem trans (h : Learns d keys links d') (h' : Learns d' keys' links' d'') :
    Learns d (fun k => keys k ∨ keys' k) (fun rank l => links rank l ∨ links' rank l) d'' := by
  refine ⟨h'.stillOpen, h'.holdings.trans h.holdings, fun k => ?_, fun rank l => ?_,
    fun rank => ?_⟩
  · rw [h'.holds, h.holds, or_assoc]
  · rw [h'.linked, h.linked, or_assoc]
  · rw [h'.listed, h.listed, or_assoc, exists_or]

theorem congr (h : Learns d keys links d') (hkeys : ∀ k, keys k ↔ keys' k)
    (hlinks : ∀ rank l, links rank l ↔ links' rank l) : Learns d keys' links' d' := by
  obtain rfl : keys = keys' := funext fun k => propext (hkeys k)
  obtain rfl : links = links' := funext fun rank => funext fun l => propext (hlinks rank l)
  exact h

theorem foldl {β : Type} {f : Discovery G A → β → Discovery G A} {keys : β → Key G A → Prop}
    {links : β → Nat → Link G A → Prop} {xs : List β}
    (h : ∀ x ∈ xs, ∀ d, Open d → Learns d (keys x) (links x) (f d x)) (hd : d.Open) :
    Learns d (fun k => ∃ x ∈ xs, keys x k) (fun rank l => ∃ x ∈ xs, links x rank l)
      (xs.foldl f d) := by
  induction xs generalizing d with
  | nil => exact (Learns.nothing hd).congr (by simp) (by simp)
  | cons x xs ih =>
    have hfirst := h x (List.mem_cons_self ..) d hd
    have hrest := ih (fun y hy => h y (List.mem_cons_of_mem _ hy)) hfirst.stillOpen
    exact (hfirst.trans hrest).congr (by simp) (by simp)

end Learns

theorem linksTo_record (d : Discovery G A) (rank k : Nat) (link : Link G A) :
    (d.record rank link).linksTo k =
      if k = rank then insertLink link (d.linksTo k) else d.linksTo k := by
  rw [linksTo, record, NatMap.get?_modify]
  split
  next h => rw [h, Option.getD_some, linksTo]
  next => rfl

theorem set_foldl_record (link : A → Link G A) (knowers : List (Nat × A)) (d : Discovery G A) :
    (knowers.foldl (fun d knower => d.record knower.1 (link knower.2)) d).set = d.set := by
  induction knowers generalizing d with
  | nil => rfl
  | cons knower knowers ih => exact ih _

theorem hold_keeps [Scalar G] [Role A] {P : IndexSet G A → Prop} {numbering : Numbering G}
    {key : Key G A} {d : Discovery G A}
    (hadd : P (d.set.add key true (numbering d.asked key.globalId)).2) (hd : P d.set) :
    P (hold numbering key d).2.set := by
  rw [hold]
  split
  next => exact hd
  next => exact hadd

/-- What holding a key keeps of the set, taking over a message keeps. -/
theorem adoptAll_keeps [Scalar G] [Role A] {P : IndexSet G A → Prop} {numbering : Numbering G}
    (hhold : ∀ key (d : Discovery G A), P d.set → P (hold numbering key d).2.set)
    (own sender : Nat) (as : List (Announcement G A)) {d : Discovery G A} (hd : P d.set) :
    P (d.adoptAll own sender numbering as).2.set := by
  apply forEach_induction (P := fun d : Discovery G A => P d.set) (fun a _ d hd => ?_) hd
  apply forEach_induction (P := fun d : Discovery G A => P d.set) (fun role _ d hd => ?_) hd
  have hkept := hhold ⟨a.key.globalId, role⟩ d hd
  rw [adopt]
  split
  next f d' heq =>
    rw [heq] at hkept
    exact hkept
  next d' heq =>
    rw [heq] at hkept
    rw [set_foldl_record]
    exact hkept

section Inserting

variable [IsStrictTotalOrder G (· < ·)] [IsStrictTotalOrder A (· < ·)] {links : List (Link G A)}

theorem mem_insertLink (h : Ascending links) (link l : Link G A) :
    l ∈ insertLink link links ↔ l ∈ links ∨ l = link := by
  have hlocated := located (fun l : Link G A => l) link (by simpa using h)
  rw [insertLink]
  generalize Bisection.locate _ links = place at hlocated
  cases hlocated with
  | found low x high hxs hx =>
    subst hx
    simp only [hxs, List.mem_append, List.mem_cons]
    tauto
  | absent low high hxs hlow hhigh =>
    subst hxs
    simp only [insertIdx_length_append, List.mem_append, List.mem_cons]
    tauto

theorem ascending_insertLink (h : Ascending links) (link : Link G A) :
    Ascending (insertLink link links) := by
  have hlocated := located (fun l : Link G A => l) link (by simpa using h)
  rw [insertLink]
  generalize Bisection.locate _ links = place at hlocated
  cases hlocated with
  | found low x high hxs hx => exact h
  | absent low high hxs hlow hhigh =>
    subst hxs
    simp only [insertIdx_length_append]
    exact h.between hlow hhigh

variable {d : Discovery G A}

theorem record_learns (hd : d.Open) (rank : Nat) (link : Link G A) :
    Learns d (fun _ => False) (fun k l => k = rank ∧ l = link) (d.record rank link) := by
  refine ⟨⟨hd.wellFormed, hd.phase, fun k => ?_⟩, rfl, fun k => ?_, fun k l => ?_, fun k => ?_⟩
  · rw [linksTo_record]
    split
    · exact ascending_insertLink (hd.ascending k) link
    · exact hd.ascending k
  · rw [or_false]
    rfl
  · rw [linksTo_record]
    split
    next h =>
      subst h
      simp [mem_insertLink (hd.ascending k)]
    next h => simp [h]
  · rw [record, NatMap.get?_modify]
    split
    next h => simp [h]
    next h => simp [h]

end Inserting

/-- While the set is open for changes an act does not fail and leaves it open, and if all is in
order this is what is learned by it. -/
structure Adopts (act : Discovery G A → Except Fault Unit × Discovery G A)
    (keys : Key G A → Prop) (links : Nat → Link G A → Prop) : Prop where
  ok : ∀ d : Discovery G A, d.set.phase = .resize →
    (act d).1 = .ok () ∧ (act d).2.set.phase = .resize
  learns : ∀ d : Discovery G A, d.Open → Learns d keys links (act d).2

theorem Adopts.forEach {β : Type} {act : β → Discovery G A → Except Fault Unit × Discovery G A}
    {keys : β → Key G A → Prop} {links : β → Nat → Link G A → Prop} {xs : List β}
    (h : ∀ x ∈ xs, Adopts (act x) (keys x) (links x)) : Adopts (forEach act xs)
      (fun k => ∃ x ∈ xs, keys x k) (fun rank l => ∃ x ∈ xs, links x rank l) := by
  have hok : ∀ x ∈ xs, ∀ d : Discovery G A, d.set.phase = .resize →
      (act x d).1 = .ok () ∧ (act x d).2.set.phase = .resize := fun x hx => (h x hx).ok
  have hall (d : Discovery G A) (hphase : d.set.phase = .resize) := forEach_eq hok hphase
  refine ⟨fun d hphase => ?_, fun d hd => ?_⟩
  · obtain ⟨heq, hkeep⟩ := hall d hphase
    rw [heq]
    exact ⟨rfl, hkeep⟩
  · rw [(hall d hd.phase).1]
    exact Learns.foldl (fun x hx d hd => (h x hx).learns d hd) hd

variable [IsStrictTotalOrder G (· < ·)] [IsStrictTotalOrder A (· < ·)] [Scalar G] [Role A]

theorem hold_adopts (numbering : Numbering G) (key : Key G A) :
    Adopts (hold numbering key) (· = key) (fun _ _ => False) := by
  refine ⟨fun d hphase => ?_, fun d hd => ?_⟩
  · rw [hold]
    split
    next => exact ⟨rfl, hphase⟩
    next hnew =>
      simp only [IndexSet.add_eq hphase (Bool.eq_false_iff.mpr hnew)]
      exact ⟨trivial, hphase⟩
  · rw [hold]
    split
    next hheld =>
      refine ⟨hd, rfl, fun k => ⟨.inl, ?_⟩, by simp, by simp⟩
      rintro (hk | rfl)
      · exact hk
      · exact hheld
    next hnew =>
      have hnew := Bool.eq_false_iff.mpr hnew
      simp only [IndexSet.add_eq hd.phase hnew]
      have hwell := hd.wellFormed.queue hd.phase
        (a := ⟨key, numbering d.asked key.globalId, true⟩) hnew
      refine ⟨⟨hwell, hd.phase, hd.ascending⟩, rfl, fun k => ?_, by simp [linksTo], by simp⟩
      rw [IndexSet.holds_iff hwell.ascending, IndexSet.holds_iff hd.wellFormed.ascending,
        IndexSet.queue, List.mem_cons, or_comm (a := k = key), or_assoc]

/-- The links that an announcement for one of our roles is about. -/
def Tells (own sender : Nat) (a : Announcement G A) (role : A) (rank : Nat)
    (l : Link G A) : Prop :=
  rank = sender ∧ l = ⟨a.key.globalId, role, a.key.role⟩ ∨
    rank ≠ own ∧ ∃ other, (rank, other) ∈ a.knowers ∧ l = ⟨a.key.globalId, role, other⟩

theorem adopt_adopts (own sender : Nat) (numbering : Numbering G)
    (a : Announcement G A) (role : A) :
    Adopts (adopt own sender numbering a role) (· = ⟨a.key.globalId, role⟩)
      (Tells own sender a role) := by
  have hhold := hold_adopts numbering (⟨a.key.globalId, role⟩ : Key G A)
  refine ⟨fun d hphase => ?_, fun d hd => ?_⟩
  · obtain ⟨hok, hkeep⟩ := hhold.ok d hphase
    rw [adopt]
    generalize hold numbering ⟨a.key.globalId, role⟩ d = held at hok hkeep
    obtain ⟨outcome, d'⟩ := held
    cases hok
    have hset := set_foldl_record (fun other => ⟨a.key.globalId, role, other⟩) (a.others own)
      (d'.record sender ⟨a.key.globalId, role, a.key.role⟩)
    exact ⟨rfl, (congrArg IndexSet.phase hset).trans hkeep⟩
  · obtain ⟨hok, -⟩ := hhold.ok d hd.phase
    have hlearns := hhold.learns d hd
    rw [adopt]
    generalize hold numbering ⟨a.key.globalId, role⟩ d = held at hok hlearns
    obtain ⟨outcome, d'⟩ := held
    cases hok
    have hsender := record_learns hlearns.stillOpen sender ⟨a.key.globalId, role, a.key.role⟩
    have hknower (knower : Nat × A) (_ : knower ∈ a.others own) (d : Discovery G A)
        (hd : d.Open) :=
      record_learns hd knower.1 ⟨a.key.globalId, role, knower.2⟩
    have hothers := Learns.foldl hknower hsender.stillOpen
    refine ((hlearns.trans hsender).trans hothers).congr (fun k => ?_) fun rank l => ?_
    · simp
    · simp only [Tells, false_or, Announcement.others, List.mem_filter, Prod.exists]
      refine or_congr_right ⟨?_, ?_⟩
      · rintro ⟨_, other, ⟨hknower, hne⟩, rfl, hl⟩
        exact ⟨by simpa using hne, other, hknower, hl⟩
      · rintro ⟨hne, other, hknower, hl⟩
        exact ⟨rank, other, ⟨hknower, by simpa using hne⟩, rfl, hl⟩

theorem adoptAll_adopts (own sender : Nat) (numbering : Numbering G)
    (as : List (Announcement G A)) :
    Adopts (adoptAll own sender numbering as)
      (fun k => ∃ a ∈ as, ∃ role ∈ a.rolesOf own, k = ⟨a.key.globalId, role⟩)
      (fun rank l => ∃ a ∈ as, ∃ role ∈ a.rolesOf own, Tells own sender a role rank l) :=
  .forEach fun a _ => .forEach fun role _ => adopt_adopts own sender numbering a role

end Discovery

end HaloIndex
