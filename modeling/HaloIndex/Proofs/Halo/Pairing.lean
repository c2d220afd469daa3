import HaloIndex.Proofs.Halo.Mirror
import HaloIndex.Proofs.Halo.Plan
import HaloIndex.Proofs.Rebuild.Routes
import Mathlib.Data.List.Permutation

namespace HaloIndex

variable {G A : Type}

namespace Rebuild

/-- Values are to be sent for an identifier that we hold under this role. -/
def Gives (b : Rebuild G A) (f : RoleFilter A) (globalId : G) (role : A) : Prop :=
  f.source role = true ∧ b.ends.source.Publishes b.ignorePublic ⟨globalId, role⟩

def Takes (b : Rebuild G A) (f : RoleFilter A) (globalId : G) (role : A) : Prop :=
  f.dest role = true ∧ b.ends.dest.Publishes b.ignorePublic ⟨globalId, role⟩

variable [LT G] [LT A] {b c : Rebuild G A} {t u : LinkTable G A} {p q : Nat} {f : RoleFilter A}

theorem mem_chosen_send (ht : b.Exact c t q) {l : Link G A} :
    l ∈ t.chosen f q .send ↔
    b.Gives f l.globalId l.localRole ∧ c.Takes f l.globalId l.remoteRole := by
  rw [LinkTable.chosen_send, List.mem_filter, ht.send, RoleFilter.sends, Bool.and_eq_true]
  constructor
  · rintro ⟨⟨hlocal, hremote⟩, hdest, hsource⟩
    exact ⟨⟨hsource, hlocal⟩, hdest, hremote⟩
  · rintro ⟨⟨hsource, hlocal⟩, hdest, hremote⟩
    exact ⟨⟨hlocal, hremote⟩, hdest, hsource⟩

theorem mem_chosen_receive (hu : c.Exact b u p) {l : Link G A} :
    l ∈ u.chosen f p .receive ↔
      b.Gives f l.globalId l.remoteRole ∧ c.Takes f l.globalId l.localRole := by
  rw [LinkTable.chosen_receive, List.mem_filter, hu.receive, RoleFilter.receives,
    Bool.and_eq_true]
  constructor
  · rintro ⟨⟨hlocal, hremote⟩, hsource, hdest⟩
    exact ⟨⟨hsource, hremote⟩, hdest, hlocal⟩
  · rintro ⟨⟨hsource, hremote⟩, hdest, hlocal⟩
    exact ⟨⟨hlocal, hremote⟩, hsource, hdest⟩

theorem ascending_chosen_send (ht : b.Exact c t q) : Ascending (t.chosen f q .send) := by
  rw [LinkTable.chosen_send]
  exact ht.sendAscends.filter _

theorem ascending_chosen_receive (hu : c.Exact b u p) : Ascending (u.chosen f p .receive) := by
  rw [LinkTable.chosen_receive]
  exact hu.receiveAscends.filter _

/-- The links of one identifier that are sent are all those between the roles it is given under
and the roles it is taken under. -/
theorem crossed_chosen [DecidableEq G] (ht : b.Exact c t q) (globalId : G) :
    Crossed globalId (b.Gives f globalId) (c.Takes f globalId)
      ((t.chosen f q .send).filter fun l => decide (l.globalId = globalId)) := by
  refine ⟨(ascending_chosen_send ht).filter _, fun l => ?_⟩
  rw [List.mem_filter, mem_chosen_send ht, decide_eq_true_eq]
  constructor
  · rintro ⟨hroles, rfl⟩
    exact ⟨rfl, hroles⟩
  · rintro ⟨rfl, hroles⟩
    exact ⟨hroles, rfl⟩

variable [IsStrictTotalOrder G (· < ·)] [IsStrictTotalOrder A (· < ·)]

theorem mirrored_of_exact (ht : b.Exact c t q) (hu : c.Exact b u p) :
    Mirrored (t.chosen f q .send) (u.chosen f p .receive) := by
  have hsend := ascending_chosen_send (f := f) ht
  have hreceive := ascending_chosen_receive (f := f) hu
  have hreversed : ((t.chosen f q .send).map Link.reversed).Perm (u.chosen f p .receive) := by
    apply (List.perm_ext_iff_of_nodup
      (hsend.nodup.map Link.reversed_injective) hreceive.nodup).mpr
    intro m
    rw [List.mem_map, mem_chosen_receive hu]
    constructor
    · rintro ⟨l, hl, rfl⟩
      exact (mem_chosen_send ht).mp hl
    · intro hm
      exact ⟨m.reversed, (mem_chosen_send ht).mpr hm, rfl⟩
  refine ⟨hreversed, eq_of_inOrder_perm (inOrder_globalId hsend) (inOrder_globalId hreceive) ?_⟩
  have hglobal := hreversed.map Link.globalId
  rwa [List.map_map] at hglobal

/-- The links of an identifier stand in the same places just if one of the two has a single role
for it. -/
theorem pairedAt_chosen_iff [DecidableEq G] (ht : b.Exact c t q) (hu : c.Exact b u p)
    (globalId : G) :
    PairedAt globalId (t.chosen f q .send) (u.chosen f p .receive) ↔
      SoleRole (b.Gives f globalId) ∨ SoleRole (c.Takes f globalId) := by
  have hreceive : Ascending
      ((u.chosen f p .receive).filter fun l => decide (l.globalId = globalId)) :=
    (ascending_chosen_receive hu).filter _
  rw [pairedAt_iff (mirrored_of_exact ht hu).globalIds,
    ← (crossed_chosen ht globalId).ascending_reversed_iff]
  constructor
  · intro hsame
    rw [hsame]
    exact hreceive
  · intro hascending
    apply hascending.ext hreceive
    intro m
    simp only [List.mem_map, List.mem_filter, mem_chosen_send ht, mem_chosen_receive hu,
      decide_eq_true_eq]
    constructor
    · rintro ⟨l, ⟨hroles, hg⟩, rfl⟩
      exact ⟨hroles, hg⟩
    · rintro ⟨hroles, hg⟩
      exact ⟨m.reversed, ⟨hroles, hg⟩, rfl⟩

section Slots

variable [DecidableEq G] [DecidableLT G] [DecidableLT A]

theorem isSome_slotOf? {s : IndexSet G A} (hs : Ascending s.keys)
    {ignorePublic : Bool} {k : Key G A} (h : s.Publishes ignorePublic k) :
    (s.slotOf? k).isSome :=
  (IndexSet.isSome_slotOf?_iff hs).mpr h.mem_keys

variable [DecidableEq A] [Scalar G] [Role A] {size : Nat} {registry : Nat → Registry} {tag : Tag}
  {route : Route} {b : Nat → Rebuild G A}

theorem resolved_result (h : Prepared size registry tag route b) {rank : Nat}
    (hrank : rank < size) :
    HaloPlan.Resolved (result route size b rank) (b rank).ends.source (b rank).ends.dest where
  send _ he l hl :=
    isSome_slotOf? (h.source rank hrank).ascending ((publishes_result h hrank he).1 l hl)
  receive _ he l hl :=
    isSome_slotOf? (h.dest rank hrank).ascending ((publishes_result h hrank he).2 l hl)

def planned (route : Route) (size : Nat) (b : Nat → Rebuild G A) (f : RoleFilter A)
    (rank : Nat) :
    HaloPlan :=
  (HaloPlan.empty.build (result route size b rank) (b rank).ends.source (b rank).ends.dest f).2

theorem build_result (h : Prepared size registry tag route b) {rank : Nat} (hrank : rank < size)
    (f : RoleFilter A) :
    (∀ old : HaloPlan,
      old.build (result route size b rank) (b rank).ends.source (b rank).ends.dest f =
      (.ok (), planned route size b f rank)) ∧
    ∀ k direction, (planned route size b f rank).slots k direction =
      (HaloPlan.setFor (b rank).ends.source (b rank).ends.dest direction).slotsOf
        ((result route size b rank).chosen f k direction) := by
  obtain ⟨plan, hbuild, hslots⟩ := HaloPlan.build_slots (h.source rank hrank).phase
    (h.dest rank hrank).phase (resolved_result h hrank) (LinkTable.isSynced_align ..) f
  have hplanned : planned route size b f rank = plan := congrArg Prod.snd (hbuild .empty)
  rw [hplanned]
  exact ⟨hbuild, hslots⟩

/-- The slots that one rank sends from and another receives into, and the links that they stand
for. -/
structure Agree (b c : Rebuild G A) (f : RoleFilter A) (send receive : List (Link G A))
    (fromSlots toSlots : List Nat) : Prop where
  sends : fromSlots.map some = send.map fun l => b.ends.source.slotOf? l.localKey
  receives : toSlots.map some = receive.map fun l => c.ends.dest.slotOf? l.localKey
  length : fromSlots.length = toSlots.length
  mirrored : Mirrored send receive
  paired : ∀ l ∈ send, PairedAt l.globalId send receive ↔
    SoleRole (b.Gives f l.globalId) ∨ SoleRole (c.Takes f l.globalId)

theorem mirrored_result (h : Prepared size registry tag route b) (f : RoleFilter A) {p q : Nat}
    (hp : p < size) (hq : q < size) (hne : p ≠ q) :
    Mirrored ((result route size b p).chosen f q .send)
      ((result route size b q).chosen f p .receive) ∧
      ∀ l ∈ (result route size b p).chosen f q .send,
        (PairedAt l.globalId ((result route size b p).chosen f q .send)
          ((result route size b q).chosen f p .receive) ↔
        SoleRole ((b p).Gives f l.globalId) ∨ SoleRole ((b q).Takes f l.globalId)) := by
  by_cases hhears : q ∈ route.sources size p ((b p).neighbours p)
  · have ht := exact_result h hp hne.symm hhears
    have hu := exact_result h hq hne (h.mem_sources_comm hp hq hhears)
    exact ⟨mirrored_of_exact ht hu, fun l _ => pairedAt_chosen_iff ht hu l.globalId⟩
  · have ht := linksTo_result route size b hne.symm
    have hu := linksTo_result route size b hne
    rw [if_neg hhears] at ht
    rw [if_neg (mt (h.mem_sources_comm hq hp) hhears)] at hu
    rw [LinkTable.chosen, LinkTable.chosen, ht, hu]
    refine ⟨⟨.nil, rfl⟩, fun l hl => ?_⟩
    cases hl

theorem agree_planned (h : Prepared size registry tag route b) (f : RoleFilter A) {p q : Nat}
    (hp : p < size) (hq : q < size) (hne : p ≠ q) :
    (b p).Agree (b q) f ((result route size b p).chosen f q .send)
      ((result route size b q).chosen f p .receive) ((planned route size b f p).slots q .send)
      ((planned route size b f q).slots p .receive) := by
  have hsend := (resolved_result h hp).chosen f q .send
  have hreceive := (resolved_result h hq).chosen f p .receive
  obtain ⟨hmirrored, hpaired⟩ := mirrored_result h f hp hq hne
  rw [(build_result h hp f).2, (build_result h hq f).2]
  constructor
  case sends => exact hsend.map_slotsOf
  case receives => exact hreceive.map_slotsOf
  case length =>
    have hsends := congrArg List.length hsend.map_slotsOf
    have hreceives := congrArg List.length hreceive.map_slotsOf
    have hglobals := congrArg List.length hmirrored.globalIds
    simp only [List.length_map] at hsends hreceives hglobals
    rw [hsends, hreceives, hglobals]
  case mirrored => exact hmirrored
  case paired => exact hpaired

variable [LawfulScalar G] [LawfulRole A] {n : Network}

/-- After any rebuild, what a rank sends to another and what that one receives from it are as
long and name the same identifier at every place, and hold the same links seen from either end.
The links of an identifier stand in the same places just if it is sent under a single role or
received under a single role. -/
theorem halo_mirrored (h : Prepared n.size registry tag route b)
    (hclear : ∀ source < n.size, ∀ dest < n.size, n.channel source dest tag = []) :
    ∃ tables : Nat → LinkTable G A, Yields n registry b tables ∧
      ∀ f : RoleFilter A, ∃ plans : Nat → HaloPlan,
        (∀ rank < n.size, ∀ old : HaloPlan,
          old.build (tables rank)
            (b rank).ends.source (b rank).ends.dest f = (.ok (), plans rank)) ∧
        ∀ p < n.size, ∀ q < n.size, p ≠ q →
          (b p).Agree (b q) f ((tables p).chosen f q .send) ((tables q).chosen f p .receive)
            ((plans p).slots q .send) ((plans q).slots p .receive) := by
  refine ⟨_, yields_result h hclear,
    fun f => ⟨planned route n.size b f, fun rank hrank => ?_, ?_⟩⟩
  · exact (build_result h hrank f).1
  · intro p hp q hq hne
    exact agree_planned h f hp hq hne

end Slots

def heldTwice (rank : Nat) : Rebuild UInt64 MeshRole where
  table := { settings := { strategy := .ring } }
  ends := match rank with
    | 0 => .one { holdings := [⟨1, .valid 0 .owner true⟩, ⟨1, .valid 1 .border true⟩] }
    | _ => .one { holdings := [⟨1, .valid 0 .overlap true⟩, ⟨1, .valid 1 .ghost true⟩] }
  ignorePublic := false

def ownersToCopies : RoleFilter MeshRole where
  source a := decide (a = .owner ∨ a = .border)
  dest a := decide (a = .overlap ∨ a = .ghost)

theorem prepared_heldTwice : Prepared 2 (fun _ => .basic) Tag.rebuild .ring heldTwice := by
  have hatRest : ∀ rank < 2,
      (heldTwice rank).ends.source.AtRest ∧ (heldTwice rank).ends.dest.AtRest := by
    intro rank hrank
    match rank, hrank with
    | 0, _ => exact ⟨⟨rfl, by decide⟩, ⟨rfl, by decide⟩⟩
    | 1, _ => exact ⟨⟨rfl, by decide⟩, ⟨rfl, by decide⟩⟩
  constructor
  case speaks => exact fun _ _ => ⟨⟨rfl, rfl, rfl⟩, rfl⟩
  case source => exact fun rank hrank => (hatRest rank hrank).1
  case dest => exact fun rank hrank => (hatRest rank hrank).2
  case onRoute => exact fun _ _ => rfl
  case tag => exact fun _ _ => rfl
  case neighbourly => nofun

theorem halo_mirrored_heldTwice :
    ∃ tables : Nat → LinkTable UInt64 MeshRole,
      Yields (.quiet 2) (fun _ => .basic) heldTwice tables ∧
      ∃ plans : Nat → HaloPlan,
        (heldTwice 0).Agree (heldTwice 1) ownersToCopies
        ((tables 0).chosen ownersToCopies 1 .send)
          ((tables 1).chosen ownersToCopies 0 .receive) ((plans 0).slots 1 .send)
          ((plans 1).slots 0 .receive) := by
  obtain ⟨tables, hyields, hplans⟩ :=
    halo_mirrored (n := .quiet 2) prepared_heldTwice (by decide)
  obtain ⟨plans, -, hagree⟩ := hplans ownersToCopies
  exact ⟨tables, hyields, plans, hagree 0 (by decide) 1 (by decide) (by decide)⟩

/-- What the owner sends to the ghost copy is put where the overlap copy stands. -/
theorem halo_crossed_heldTwice :
    ∃ (tables : Nat → LinkTable UInt64 MeshRole) (plans : Nat → HaloPlan),
      Yields (.quiet 2) (fun _ => .basic) heldTwice tables ∧
      (beginning (.quiet 2) (fun _ => .basic) heldTwice).Inevitable
        (fun q => q.results = [(.ok (), tables 0), (.ok (), tables 1)]) ∧
      (∀ rank < 2, ∀ old : HaloPlan, old.build (tables rank) (heldTwice rank).ends.source
        (heldTwice rank).ends.dest ownersToCopies = (.ok (), plans rank)) ∧
      (plans 0).slots 1 .send = [0, 0, 1, 1] ∧ (plans 1).slots 0 .receive = [0, 0, 1, 1] ∧
      ((tables 0).chosen ownersToCopies 1 .send)[1]? = some ⟨1, .owner, .ghost⟩ ∧
      ((tables 1).chosen ownersToCopies 0 .receive)[1]? = some ⟨1, .overlap, .border⟩ ∧
      ¬PairedAt 1 ((tables 0).chosen ownersToCopies 1 .send)
        ((tables 1).chosen ownersToCopies 0 .receive) := by
  have hyields := yields_result (n := .quiet 2) prepared_heldTwice (by decide)
  have hsend : ((result .ring 2 heldTwice 0).chosen ownersToCopies 1 .send)[1]? =
      some ⟨1, .owner, .ghost⟩ := by decide_cbv
  have hreceive : ((result .ring 2 heldTwice 1).chosen ownersToCopies 0 .receive)[1]? =
      some ⟨1, .overlap, .border⟩ := by decide_cbv
  refine ⟨_, planned .ring 2 heldTwice ownersToCopies, hyields, ?_, ?_, ?_, ?_,
    hsend, hreceive, ?_⟩
  · exact (hyields.inevitable (by decide)).mono fun q hq => hq.1
  · exact fun rank hrank => (build_result prepared_heldTwice hrank ownersToCopies).1
  · decide_cbv
  · decide_cbv
  · intro hpaired
    have hback := hreceive.symm.trans (hpaired 1 _ hsend rfl)
    cases hback

end Rebuild

end HaloIndex
