import HaloIndex.Link.Table
import HaloIndex.Proofs.IndexSet.Keys

namespace HaloIndex

variable {G A : Type}

theorem Endpoints.dest_eq_source {ends : Endpoints G A} (h : ends.isOne = true) :
    ends.dest = ends.source := by
  cases ends with
  | one set => rfl
  | two source dest => cases h

namespace Link

def remoteKey (l : Link G A) : Key G A := ⟨l.globalId, l.remoteRole⟩

def reversed (l : Link G A) : Link G A := ⟨l.globalId, l.remoteRole, l.localRole⟩

end Link

namespace LinkTable

def sendTo (t : LinkTable G A) (rank : Nat) : List (Link G A) :=
  ((t.linksTo rank).map Links.send).getD []

def receiveFrom (t : LinkTable G A) (rank : Nat) : List (Link G A) :=
  ((t.linksTo rank).map Links.receive).getD []

variable {t : LinkTable G A}

theorem receiveFrom_of_mem {rank : Nat} {links : Links G A}
    (h : (rank, links) ∈ t.links.entries) :
    t.receiveFrom rank = links.receive := by
  rw [receiveFrom, linksTo, NatMap.get?_eq_some_iff.mpr h]
  rfl

theorem sendTo_of_mem {rank : Nat} {links : Links G A} (h : (rank, links) ∈ t.links.entries) :
    t.sendTo rank = links.send := by
  rw [sendTo, linksTo, NatMap.get?_eq_some_iff.mpr h]
  rfl

theorem mem_sendTo {rank : Nat} {l : Link G A} :
    l ∈ t.sendTo rank ↔ ∃ links, (rank, links) ∈ t.links.entries ∧ l ∈ links.send := by
  constructor
  · intro h
    cases hget : t.links.get? rank with
    | none =>
      rw [sendTo, linksTo, hget] at h
      cases h
    | some links =>
      rw [sendTo, linksTo, hget] at h
      exact ⟨links, NatMap.get?_eq_some_iff.mp hget, h⟩
  · rintro ⟨links, hlinks, hl⟩
    rwa [sendTo_of_mem hlinks]

theorem isSome_of_mem_sendTo {rank : Nat} {l : Link G A} (h : l ∈ t.sendTo rank) :
    (t.linksTo rank).isSome := by
  obtain ⟨links, hlinks, -⟩ := mem_sendTo.mp h
  rw [linksTo, NatMap.get?_eq_some_iff.mpr hlinks]
  rfl

theorem map_send_congr {u : LinkTable G A} (hlists : ∀ rank, t.sendTo rank = u.sendTo rank)
    (hlisted : ∀ rank, (t.linksTo rank).isSome = (u.linksTo rank).isSome) :
    t.links.map Links.send = u.links.map Links.send := by
  apply NatMap.ext_get?
  intro rank
  have hlist := hlists rank
  have hsame := hlisted rank
  rw [sendTo, sendTo] at hlist
  rw [NatMap.get?_map, NatMap.get?_map]
  change (t.linksTo rank).map Links.send = (u.linksTo rank).map Links.send
  cases hleft : t.linksTo rank <;> cases hright : u.linksTo rank <;> simp_all

theorem map_send_shared (links : NatMap (List (Link G A))) :
    (links.map Links.shared).map Links.send = links := by
  apply NatMap.ext_get?
  intro rank
  rw [NatMap.get?_map, NatMap.get?_map, Option.map_map]
  exact Option.map_id'

theorem links_eq_of_shared {u : LinkTable G A}
    (ht : t.links = (t.links.map Links.send).map .shared)
    (hu : u.links = (u.links.map Links.send).map .shared)
    (hlists : ∀ rank, t.sendTo rank = u.sendTo rank)
    (hlisted : ∀ rank, (t.linksTo rank).isSome = (u.linksTo rank).isSome) :
    t.links = u.links := by
  rw [ht, hu, map_send_congr hlists hlisted]

theorem isSynced_align (t : LinkTable G A) (source dest : IndexSet G A) :
    (t.align source dest).isSynced source dest = true := by
  simp [isSynced, align]

section Pruning

variable [LT G] [LT A] [DecidableEq G] [DecidableLT G] [DecidableLT A] {set : IndexSet G A}

/-- The table without the links whose keys are gone from the set of their direction. -/
def kept (t : LinkTable G A) (source dest : IndexSet G A) : LinkTable G A :=
  let resolves (set : IndexSet G A) (l : Link G A) : Bool := (set.positionOf l.localKey).isSome
  { t with
    links := t.links.map (Links.filter (resolves source) (resolves dest)) }.align source dest

theorem isSome_linksTo_kept (t : LinkTable G A) (source dest : IndexSet G A) (rank : Nat) :
    ((t.kept source dest).linksTo rank).isSome = (t.linksTo rank).isSome := by
  rw [linksTo, kept, align, NatMap.get?_map, Option.isSome_map, linksTo]

theorem sendTo_kept (t : LinkTable G A) (source dest : IndexSet G A) (rank : Nat) :
    (t.kept source dest).sendTo rank =
      (t.sendTo rank).filter fun l => (source.positionOf l.localKey).isSome := by
  rw [sendTo, linksTo, kept, align, NatMap.get?_map, sendTo, linksTo]
  cases t.links.get? rank with
  | none => rfl
  | some links =>
    cases links with
    | shared => rfl
    | split => rfl

def pruned (t : LinkTable G A) (set : IndexSet G A) : LinkTable G A :=
  let resolves (l : Link G A) : Bool := (set.positionOf l.localKey).isSome
  { t with links := t.links.map (Links.filter resolves resolves) }.align set set

theorem exists_prune [DecidableEq A] (t : LinkTable G A) (hphase : set.phase = .ground) :
    ∃ count, t.prune set set = .ok (count, t.pruned set) := by
  rw [prune, IndexSet.require, if_pos hphase]
  exact ⟨_, rfl⟩

theorem isSome_linksTo_pruned (t : LinkTable G A) (set : IndexSet G A) (rank : Nat) :
    ((t.pruned set).linksTo rank).isSome = (t.linksTo rank).isSome :=
  isSome_linksTo_kept t set set rank

theorem sendTo_pruned (t : LinkTable G A) (set : IndexSet G A) (rank : Nat) :
    (t.pruned set).sendTo rank =
      (t.sendTo rank).filter fun l => (set.positionOf l.localKey).isSome :=
  sendTo_kept t set set rank

end Pruning

section Validating

variable [LT G] [LT A] [DecidableEq G] [DecidableLT G] [DecidableLT A]

theorem misplaced_eq_none [DecidableEq A] {links : List (Link G A)} (h : Ascending links) :
    misplaced links = none := by
  induction links with
  | nil => rfl
  | cons a rest ih =>
    obtain ⟨ha, hrest⟩ := List.pairwise_cons.mp h
    cases rest with
    | nil => rfl
    | cons b rest =>
      rw [misplaced, if_pos (ha b (List.mem_cons_self ..))]
      exact ih hrest

variable [DecidableEq A] [Scalar G] [Role A]

theorem checkList_eq_ok {links : List (Link G A)} (h : Ascending links) (rank : Nat) :
    checkList rank links = .ok () := by
  rw [checkList, misplaced_eq_none h]

theorem validate_eq_ok
    (h : ∀ e ∈ t.links.entries, Ascending e.2.send ∧ Ascending e.2.receive) :
    t.validate = .ok () := by
  rw [validate]
  generalize t.links.entries = entries at h
  induction entries with
  | nil => rfl
  | cons e entries ih =>
    obtain ⟨hsend, hreceive⟩ := h e (List.mem_cons_self ..)
    rw [List.forM]
    simp only [checkList_eq_ok hsend, checkList_eq_ok hreceive]
    exact ih fun e he => h e (List.mem_cons_of_mem _ he)

end Validating

end LinkTable

end HaloIndex
