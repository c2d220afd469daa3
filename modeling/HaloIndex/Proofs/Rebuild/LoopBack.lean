import HaloIndex.Proofs.Rebuild.OneSet
import HaloIndex.Proofs.Rebuild.Provenance

namespace HaloIndex

variable {G A : Type}

theorem Publication.get?_of_takes [LT G] [LT A] [DecidableEq G] [DecidableEq A] [DecidableLT G]
    [DecidableLT A] [Scalar G] [Role A] {own : Publication G A} {registry : Registry}
    {heard : List (Nat × List UInt8)} {links links' : NatMap (Links G A)}
    (h : Exchange.Takes (own.Enters registry) heard links links') {rank : Nat}
    (hrank : ∀ e ∈ heard, e.1 ≠ rank) : links'.get? rank = links.get? rank := by
  induction h with
  | nil => rfl
  | cons hmade _ ih =>
    obtain ⟨found, -, rfl⟩ := hmade
    have hpeer := hrank _ (List.mem_cons_self ..)
    rw [ih fun e he => hrank e (List.mem_cons_of_mem _ he), get?_enter, if_neg hpeer.symm]

namespace Rebuild

/-- A link of a rank to itself, from what it publishes as a source to what it publishes as a
destination. -/
def Loops (b : Rebuild G A) (l : Link G A) : Prop :=
  b.ends.source.Publishes b.ignorePublic l.localKey ∧
    b.ends.dest.Publishes b.ignorePublic l.remoteKey ∧
    (b.table.settings.includeSelf = true → l.localRole ≠ l.remoteRole)

/-- The table has exactly these links of the rank to itself, each of them once in either
direction. -/
structure LoopsBack [LT G] [LT A] (b : Rebuild G A) (t : LinkTable G A) (rank : Nat) : Prop where
  send : ∀ l, l ∈ t.sendTo rank ↔ b.Loops l
  receive : ∀ l, l ∈ t.receiveFrom rank ↔ b.Loops l.reversed
  sendAscends : Ascending (t.sendTo rank)
  receiveAscends : Ascending (t.receiveFrom rank)
  listed : (t.linksTo rank).isSome ↔ ∃ l, b.Loops l

theorem wantsSelf_of_two {b : Rebuild G A} (htwo : b.ends.isOne = false) :
    b.wantsSelf = true := by
  rw [wantsSelf, htwo]
  rfl

variable [LT G] [LT A] [DecidableEq G] [DecidableEq A] [DecidableLT G] [DecidableLT A]
  {b : Rebuild G A}

theorem get?_loopBack_self (htwo : b.ends.isOne = false) (rank : Nat) :
    (b.loopBack rank).get? rank =
    b.published.found b.published b.table.settings.includeSelf := by
  rw [loopBack, if_pos (wantsSelf_of_two htwo), Publication.get?_enter, if_pos rfl,
    NatMap.get?_empty, Option.or_none]

theorem loopsBack_of_found [IsStrictTotalOrder G (· < ·)] [IsStrictTotalOrder A (· < ·)]
    (hb : b.published.Ordered) {t : LinkTable G A} {rank : Nat} (h : t.linksTo rank =
      b.published.found b.published b.table.settings.includeSelf) : b.LoopsBack t rank := by
  obtain ⟨hsend, hreceive, hlisted⟩ := lists_of_found h
  obtain ⟨hsends, hreceives⟩ := Publication.ascending_linksWith b.published b.published.heard
    b.table.settings.includeSelf
  have hother := b.published.ordered_heard
  have hmem (l : Link G A) : l ∈ t.sendTo rank ↔ b.Loops l := by
    rw [hsend, Publication.mem_send_linksWith hb hother, Link.Joins, mem_source_published,
      Publication.mem_destKeys_heard, mem_destKeys_published, Loops]
  have hmem' (l : Link G A) : l ∈ t.receiveFrom rank ↔ b.Loops l.reversed := by
    rw [hreceive, Publication.mem_receive_linksWith hb hother, Link.Joins,
      mem_destKeys_published,
      Publication.mem_source_heard, mem_source_published, Loops, and_left_comm]
    exact and_congr_right fun _ => and_congr_right fun _ => imp_congr_right fun _ => ne_comm
  refine ⟨hmem, hmem', hsend ▸ hsends, hreceive ▸ hreceives, ?_⟩
  simp only [hlisted, hmem, hmem']
  constructor
  · rintro ⟨l, hl | hl⟩
    · exact ⟨l, hl⟩
    · exact ⟨l.reversed, hl⟩
  · rintro ⟨l, hl⟩
    exact ⟨l, .inl hl⟩

variable [Scalar G] [Role A] [LawfulScalar G] [LawfulRole A] {s : Station} {es : List Event}

theorem exists_exchange_of_collect {route : Route} {links : NatMap (Links G A)}
    (hspeaks : s.registry.SpeaksFully G) (hstays : ¬(s.size = 1 ∧ b.wantsSelf = false))
    (h : (LinkTable.collect s b.ends b.ignorePublic b.table.settings
      (b.neighbours s.rank) route).run.Path es
      (.done (.ok links))) : ∃ message,
        (b.exchangeFrom s route message (b.loopBack s.rank)).run.Path es
        (.done (.ok links)) := by
  cases hpack : b.published.encode s.registry with
  | error f =>
    rw [collect_unpacked b s route hstays hpack] at h
    cases h.of_done.2
  | ok message =>
    rw [collect_eq b s route hspeaks hstays hpack] at h
    refine ⟨message, ?_⟩
    cases route <;> exact h

/-- Nothing that is heard from the other ranks touches the links of a rank to itself. -/
theorem linksTo_self_of_path (htwo : b.ends.isOne = false) (hrank : s.rank < s.size)
    (hspeaks : s.registry.SpeaksFully G) {t : LinkTable G A}
    (h : (b.program s).Path es (.done (.ok (), t))) : t.linksTo s.rank =
      b.published.found b.published b.table.settings.includeSelf := by
  generalize hresult : ((.ok (), t) : Except Fault Unit × LinkTable G A) = r at h
  cases ends_of_path h with
  | refused => cases hresult
  | failed => cases hresult
  | @rebuilt route links hsource hdest hroute =>
    cases hresult
    rw [program_eq b s hsource hdest hroute] at h
    obtain ⟨outcome, fs, gs, rfl, hcollect, hlast⟩ := h.of_bind
    obtain ⟨rfl, he⟩ := hlast.of_done
    cases outcome with
    | error => cases he
    | ok found =>
      obtain rfl : links = found :=
        congrArg LinkTable.links (Prod.mk.inj (Program.done.inj he)).2
      have hstays : ¬(s.size = 1 ∧ b.wantsSelf = false) := by simp [wantsSelf_of_two htwo]
      obtain ⟨message, hexchange⟩ := exists_exchange_of_collect hspeaks hstays hcollect
      have hothers : ∀ e ∈ b.heard s route fs, e.1 ≠ s.rank := by
        intro e he hself
        have hmem := (List.of_mem_zip he).1
        rw [hself] at hmem
        exact not_mem_sources_self hrank route b hmem
      rw [← get?_loopBack_self htwo s.rank]
      exact Publication.get?_of_takes (takes_of_exchange hexchange) hothers

variable [IsStrictTotalOrder G (· < ·)] [IsStrictTotalOrder A (· < ·)]

/-- A rank with two sets is linked to itself along the identifiers that it publishes in both,
after every rebuild that went well, in whatever company and over whatever transport. It does go
well if all ranks rebuild together and have no more to publish than can be counted. -/
theorem loopBack_exact (b : Rebuild G A) (htwo : b.ends.isOne = false)
    (hsource : b.ends.source.AtRest) (hdest : b.ends.dest.AtRest) :
    (∀ s : Station, s.rank < s.size → s.registry.SpeaksFully G → ∀ es t,
      (b.program s).Path es (.done (.ok (), t)) → b.LoopsBack t s.rank) ∧
    ∀ (n : Network) (registry : Nat → Registry) (tag : Tag) (route : Route)
    (bs : Nat → Rebuild G A),
      Prepared n.size registry tag route bs →
      (∀ source < n.size, ∀ dest < n.size, n.channel source dest tag = []) →
      ∃ tables, Yields n registry bs tables ∧
        ∀ rank < n.size, bs rank = b → b.LoopsBack (tables rank) rank := by
  have hordered := ordered_published hsource.ascending hdest.ascending
  constructor
  · intro s hrank hspeaks es t h
    exact loopsBack_of_found hordered (linksTo_self_of_path htwo hrank hspeaks h)
  · intro n registry tag route bs h hclear
    refine ⟨_, yields_result h hclear, ?_⟩
    rintro rank hrank rfl
    apply loopsBack_of_found hordered
    rw [linksTo_result_self route bs (not_mem_sources_self hrank route (bs rank)),
      get?_loopBack_self htwo]

def equalRoles (includeSelf : Bool) : Rebuild UInt64 MeshRole where
  table := { settings := { strategy := .ring, includeSelf } }
  ends :=
    .two { holdings := [⟨1, .valid 0 .owner true⟩] } { holdings := [⟨1, .valid 0 .owner true⟩] }
  ignorePublic := false

theorem atRest_equalRoles (includeSelf : Bool) :
    (equalRoles includeSelf).ends.source.AtRest ∧ (equalRoles includeSelf).ends.dest.AtRest :=
  ⟨⟨rfl, List.pairwise_singleton ..⟩, ⟨rfl, List.pairwise_singleton ..⟩⟩

theorem prepared_equalRoles :
    Prepared 2 (fun _ => .basic) Tag.rebuild .ring fun rank => equalRoles (rank == 0) := by
  constructor
  case speaks => exact fun _ _ => ⟨⟨rfl, rfl, rfl⟩, rfl⟩
  case source => exact fun rank _ => (atRest_equalRoles _).1
  case dest => exact fun rank _ => (atRest_equalRoles _).2
  case onRoute => exact fun _ _ => rfl
  case tag => exact fun _ _ => rfl
  case neighbourly => nofun

theorem loopBack_exact_besideAnother :
    (∃ t, ((equalRoles false).program ⟨0, 1, .basic⟩).Path [] (.done (.ok (), t)) ∧
      (equalRoles false).LoopsBack t 0) ∧
    ∃ tables, Yields (.quiet 2) (fun _ => .basic) (fun rank => equalRoles (rank == 0)) tables ∧
      (equalRoles false).LoopsBack (tables 1) 1 := by
  obtain ⟨hpath, hyields⟩ := loopBack_exact (equalRoles false) rfl (atRest_equalRoles false).1
    (atRest_equalRoles false).2
  constructor
  · have hdone : ((equalRoles false).program ⟨0, 1, .basic⟩).Path [] (.done (.ok (), _)) :=
      .refl _
    exact ⟨_, hdone, hpath ⟨0, 1, .basic⟩ (by decide) ⟨⟨rfl, rfl, rfl⟩, rfl⟩ [] _ hdone⟩
  · obtain ⟨tables, hends, hback⟩ := hyields (.quiet 2) _ _ _ _ prepared_equalRoles (by decide)
    exact ⟨tables, hends, hback 1 (by decide) rfl⟩

/-- A link of equal roles between the two sets of a rank is lost on the rank that would link one
set to itself. -/
theorem loopBack_equalRoles : ∃ t u : LinkTable UInt64 MeshRole,
    (equalRoles false).program ⟨0, 1, .basic⟩ = .done (.ok (), t) ∧
      t.linksTo 0 = some (.split [⟨1, .owner, .owner⟩] [⟨1, .owner, .owner⟩]) ∧
    (equalRoles true).program ⟨0, 1, .basic⟩ = .done (.ok (), u) ∧ u.linksTo 0 = none :=
  ⟨_, _, rfl, by decide +kernel, rfl, by decide +kernel⟩

end Rebuild

end HaloIndex
