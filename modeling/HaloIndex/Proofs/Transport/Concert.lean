import HaloIndex.Proofs.Transport.Interleaving

namespace HaloIndex

namespace Traffic

/-- A rank on its own would have these requests answered so. -/
def Offers (t : Traffic) (rank : Nat) : List Event → Prop
  | [] => True
  | e :: es => t.reply rank e.request = some e.answer ∧ (t.after rank e.request).Offers rank es

/-- In some order of the ranks, each of them goes through its events. -/
def Admits (t : Traffic) (es : Nat → List Event) (u : Traffic) : Prop :=
  ∃ log, t.Serves log u ∧ ∀ rank < t.size, eventsOf rank log = es rank

theorem Offers.append {t : Traffic} {rank : Nat} {es fs : List Event} (h : t.Offers rank es)
    (h' : ∀ u, t.Serves (es.map (rank, ·)) u → u.Offers rank fs) (hrank : rank < t.size) :
    t.Offers rank (es ++ fs) := by
  induction es generalizing t with
  | nil => exact h' t (.refl t)
  | cons e es ih =>
    refine ⟨h.1, ih h.2 (fun u hu => h' u (.step hrank h.1 hu)) ?_⟩
    simpa only [size_after] using hrank

section Named

variable {t : Traffic} {rank peer : Nat} {tag : Tag} {payload : List UInt8} {es : List Event}

theorem Offers.sent (hpeer : peer < t.size)
    (h : (t.push ⟨rank, peer, tag⟩ payload).Offers rank es) :
    t.Offers rank (.sent peer tag payload :: es) := ⟨if_pos hpeer, h⟩

theorem Offers.waited (h : t.Offers rank es) : t.Offers rank (.waited peer :: es) := ⟨rfl, h⟩

theorem Offers.seen (hhead : (t.queue ⟨peer, rank, tag⟩).head? = some payload)
    (h : t.Offers rank es) : t.Offers rank (.seen peer tag payload :: es) := by
  refine ⟨?_, h⟩
  change (t.queue ⟨peer, rank, tag⟩).head?.map _ = _
  rw [hhead]
  rfl

theorem Offers.received (hhead : (t.queue ⟨peer, rank, tag⟩).head? = some payload)
    (h : (t.pop ⟨peer, rank, tag⟩).Offers rank es) :
    t.Offers rank (.received peer tag payload :: es) := by
  refine ⟨?_, h⟩
  change (t.queue ⟨peer, rank, tag⟩).head?.map _ = _
  rw [hhead]
  rfl

end Named

theorem Offers.after {t : Traffic} {rank other : Nat} {es : List Event} (h : t.Offers rank es)
    (hne : rank ≠ other) {r : Request} (hr : (t.reply other r).isSome) :
    (t.after other r).Offers rank es := by
  induction es generalizing t with
  | nil => trivial
  | cons e es ih =>
    obtain ⟨hreply, hrest⟩ := h
    obtain ⟨a, ha⟩ := Option.isSome_iff_exists.mp hr
    refine ⟨reply_after hne r hreply, ?_⟩
    rw [← after_comm hne (Option.isSome_of_eq_some hreply) hr]
    exact ih hrest (Option.isSome_of_eq_some (reply_after hne.symm e.request ha))

theorem Offers.serves {t : Traffic} {rank : Nat} {es : List Event} (h : t.Offers rank es)
    (hrank : rank < t.size) : ∃ u, t.Serves (es.map (rank, ·)) u ∧
      ∀ other ≠ rank, ∀ fs, t.Offers other fs → u.Offers other fs := by
  induction es generalizing t with
  | nil => exact ⟨t, .refl t, fun _ _ _ h => h⟩
  | cons e es ih =>
    obtain ⟨hreply, hrest⟩ := h
    obtain ⟨u, hserves, hkeep⟩ := ih hrest (by simpa only [size_after] using hrank)
    refine ⟨u, .step hrank hreply hserves, fun other hne fs hfs => hkeep other hne fs ?_⟩
    exact hfs.after hne (Option.isSome_of_eq_some hreply)

theorem eventsOf_map_self (rank : Nat) (es : List Event) :
    eventsOf rank (es.map (rank, ·)) = es := by
  induction es with
  | nil => rfl
  | cons e es ih => rw [List.map_cons, eventsOf_cons_self, ih]

theorem eventsOf_map_of_ne {rank other : Nat} (h : other ≠ rank) (es : List Event) :
    eventsOf rank (es.map (other, ·)) = [] := by
  induction es with
  | nil => rfl
  | cons e es ih => rw [List.map_cons, eventsOf_cons_of_ne h, ih]

/-- If every rank could go through its events on its own, all can in turn. -/
theorem admits_of_offers {t : Traffic} {es : Nat → List Event}
    (h : ∀ rank < t.size, t.Offers rank (es rank)) : ∃ u, t.Admits es u := by
  -- Induction on how many ranks have acted: the others are still where they were.
  have hfirst : ∀ k ≤ t.size, ∃ log u,
      t.Serves log u ∧ (∀ rank < k, eventsOf rank log = es rank) ∧
      ∀ rank, k ≤ rank → rank < t.size → u.Offers rank (es rank) ∧ eventsOf rank log = [] := by
    intro k hk
    induction k with
    | zero => exact ⟨[], t, .refl t, by simp, fun rank _ hrank => ⟨h rank hrank, rfl⟩⟩
    | succ k ih =>
      obtain ⟨log, u, hserves, hdone, hleft⟩ := ih (Nat.le_of_succ_le hk)
      obtain ⟨hoffers, hnone⟩ := hleft k (Nat.le_refl k) hk
      obtain ⟨w, hserves', hkeep⟩ := hoffers.serves (hserves.size_eq.symm ▸ hk)
      refine ⟨_, w, hserves.trans hserves', fun rank hrank => ?_, fun rank hle hrank => ?_⟩
      · rw [eventsOf_append]
        rcases Nat.lt_succ_iff_lt_or_eq.mp hrank with hlt | rfl
        · rw [hdone rank hlt, eventsOf_map_of_ne (Nat.ne_of_gt hlt), List.append_nil]
        · rw [hnone, eventsOf_map_self, List.nil_append]
      · have hne : rank ≠ k := Nat.ne_of_gt hle
        obtain ⟨hoffers', hnone'⟩ := hleft rank (Nat.le_of_succ_le hle) hrank
        rw [eventsOf_append, hnone', eventsOf_map_of_ne hne.symm]
        exact ⟨hkeep rank hne _ hoffers', rfl⟩
  obtain ⟨log, u, hserves, hdone, -⟩ := hfirst t.size (Nat.le_refl _)
  exact ⟨u, log, hserves, hdone⟩

theorem Admits.size_eq {t u : Traffic} {es : Nat → List Event} (h : t.Admits es u) :
    u.size = t.size := by
  obtain ⟨log, hserves, -⟩ := h
  exact hserves.size_eq

def Clear (t : Traffic) (tag : Tag) : Prop :=
  ∀ source < t.size, ∀ dest < t.size, t.queue ⟨source, dest, tag⟩ = []

theorem Admits.trans {t u w : Traffic} {es fs : Nat → List Event} (h : t.Admits es u)
    (h' : u.Admits fs w) : t.Admits (fun rank => es rank ++ fs rank) w := by
  obtain ⟨log, hserves, hes⟩ := h
  obtain ⟨more, hserves', hfs⟩ := h'
  refine ⟨log ++ more, hserves.trans hserves', fun rank hrank => ?_⟩
  rw [eventsOf_append, hes rank hrank, hfs rank (hserves.size_eq.symm ▸ hrank)]

theorem Admits.congr {t u : Traffic} {es fs : Nat → List Event} (h : t.Admits es u)
    (he : ∀ rank < t.size, es rank = fs rank) : t.Admits fs u := by
  obtain ⟨log, hserves, hes⟩ := h
  exact ⟨log, hserves, fun rank hrank => (hes rank hrank).trans (he rank hrank)⟩

theorem Admits.conserve {t u : Traffic} {es : Nat → List Event} (h : t.Admits es u) {c : Channel}
    (hsource : c.source < t.size) (hdest : c.dest < t.size) :
    t.queue c ++ posted c (es c.source) = taken c (es c.dest) ++ u.queue c := by
  obtain ⟨log, hserves, hes⟩ := h
  rw [← hes _ hsource, ← hes _ hdest]
  exact hserves.conserve c

theorem Serves.eventsOf_eq_nil {t u : Traffic} {log : List (Nat × Event)} (h : t.Serves log u)
    {rank : Nat} (hrank : t.size ≤ rank) : eventsOf rank log = [] := by
  induction h with
  | refl => rfl
  | step hlt _ _ ih =>
    rw [eventsOf_cons_of_ne (Nat.ne_of_lt (Nat.lt_of_lt_of_le hlt hrank))]
    exact ih (by simpa only [size_after] using hrank)

theorem Serves.posted_eq_nil {t u : Traffic} {log : List (Nat × Event)} (h : t.Serves log u)
    {c : Channel} (hdest : t.size ≤ c.dest) (rank : Nat) :
    posted c (eventsOf rank log) = [] := by
  induction h with
  | refl => rfl
  | @step t u other e log hlt hreply _ ih =>
    have ih := ih (by simpa only [size_after] using hdest)
    rw [eventsOf_cons]
    split
    · have hno : e.posted c = none := by
        obtain ⟨r, a⟩ := e
        cases r with
        | post peer tag payload =>
          have hpeer : peer < t.size := by
            by_contra hnot
            rw [reply, if_neg hnot] at hreply
            cases hreply
          apply if_neg
          intro h
          exact Nat.not_lt.mpr hdest (h.1 ▸ hpeer)
        | wait | probe | receive | queued => rfl
      rw [posted, List.filterMap_cons, hno]
      exact ih
    · exact ih

/-- If all that is posted is taken, and only from channels that were empty, nothing changes. -/
theorem Admits.eq_of_balanced {t u : Traffic} {es : Nat → List Event} (h : t.Admits es u)
    (hc : ∀ c : Channel, c.dest < t.size →
      (c.source < t.size → posted c (es c.source) = taken c (es c.dest)) ∧
      (t.queue c = [] ∨ taken c (es c.dest) = [])) : u = t := by
  obtain ⟨log, hserves, hes⟩ := h
  refine Traffic.ext hserves.size_eq (funext fun c => ?_)
  have hfifo := hserves.conserve c
  by_cases hdest : c.dest < t.size
  · obtain ⟨hbalanced, hempty⟩ := hc c hdest
    rw [hes _ hdest] at hfifo
    have hposted : posted c (eventsOf c.source log) = taken c (es c.dest) ∨
        posted c (eventsOf c.source log) = [] := by
      by_cases hsource : c.source < t.size
      · exact .inl (hes _ hsource ▸ hbalanced hsource)
      · exact .inr (hserves.eventsOf_eq_nil (Nat.not_lt.mp hsource) ▸ rfl)
    rcases hempty with hempty | hempty <;> rcases hposted with hposted | hposted <;>
      simp_all
  · rw [hserves.posted_eq_nil (Nat.not_lt.mp hdest),
      hserves.eventsOf_eq_nil (Nat.not_lt.mp hdest), List.append_nil] at hfifo
    exact hfifo.symm

/-- Each rank can give what it has to give on its own, and what the others take of it is just
what it gives to them. -/
structure Crosses (t : Traffic) (tag : Tag) (gives takes : Nat → List Event) : Prop where
  clear : t.Clear tag
  offers : ∀ rank < t.size, t.Offers rank (gives rank)
  onlyGives : ∀ rank c, taken c (gives rank) = []
  onlyTakes : ∀ rank c, posted c (takes rank) = []
  balanced : ∀ c : Channel, c.source < t.size → c.dest < t.size →
    posted c (gives c.source) = taken c (takes c.dest)
  onChannel : ∀ c : Channel, c.dest < t.size → ¬(c.source < t.size ∧ c.tag = tag) →
    taken c (takes c.dest) = []
  ready : ∀ rank < t.size, ∀ u : Traffic, u.size = t.size →
    (∀ source < t.size, u.queue ⟨source, rank, tag⟩ =
      posted ⟨source, rank, tag⟩ (gives source)) →
    u.Offers rank (takes rank)

theorem Crosses.admits {t : Traffic} {tag : Tag} {gives takes : Nat → List Event}
    (h : t.Crosses tag gives takes) : t.Admits (fun rank => gives rank ++ takes rank) t := by
  obtain ⟨u, hu⟩ := admits_of_offers h.offers
  -- A queue holds just what was given, since nothing had been on the way.
  have htakes : ∀ rank < u.size, u.Offers rank (takes rank) := by
    rw [hu.size_eq]
    intro rank hrank
    apply h.ready rank hrank u hu.size_eq
    intro source hsource
    have hqueue := hu.conserve (c := ⟨source, rank, tag⟩) hsource hrank
    rw [h.clear source hsource rank hrank, h.onlyGives, List.nil_append,
      List.nil_append] at hqueue
    exact hqueue.symm
  obtain ⟨w, hw⟩ := admits_of_offers htakes
  have hall := hu.trans hw
  have hsame : w = t := by
    apply hall.eq_of_balanced
    intro c hdest
    simp only [posted_append, taken_append, h.onlyGives, h.onlyTakes, List.append_nil,
      List.nil_append]
    refine ⟨fun hsource => h.balanced c hsource hdest, ?_⟩
    by_cases hc : c.source < t.size ∧ c.tag = tag
    · obtain ⟨source, dest, _⟩ := c
      obtain ⟨hsource, rfl⟩ := hc
      exact .inl (h.clear source hsource dest hdest)
    · exact .inr (h.onChannel c hdest hc)
  exact hsame ▸ hall

end Traffic

variable {α β : Type}

theorem Talk.ofExcept_bind (a : α) (f : α → Talk β) : (Talk.ofExcept (.ok a) >>= f) = f a := rfl

/-- All ranks can go through their programs together, and no message is left over or used up. -/
structure Concludes (t : Traffic) (f : Nat → Program α) (es : Nat → List Event) (v : Nat → α) :
    Prop where
  paths : ∀ rank < t.size, (f rank).Path (es rank) (.done (v rank))
  admits : t.Admits es t

namespace Concludes

variable {t : Traffic} {f : Nat → Program α} {es : Nat → List Event} {v : Nat → α}

theorem of_done (h : ∀ rank < t.size, f rank = .done (v rank)) :
    Concludes t f (fun _ => []) v := by
  refine ⟨fun rank hrank => ?_, [], .refl t, fun _ _ => rfl⟩
  rw [h rank hrank]
  exact .refl _

theorem bind {g : Nat → α → Program β} {fs : Nat → List Event} {w : Nat → β}
    (h : Concludes t f es v) (h' : Concludes t (fun rank => g rank (v rank)) fs w) :
    Concludes t (fun rank => f rank >>= g rank) (fun rank => es rank ++ fs rank) w :=
  ⟨fun rank hrank => (h.paths rank hrank).andThen (h'.paths rank hrank),
    h.admits.trans h'.admits⟩

theorem andThen {f : Nat → Talk α} {g : Nat → α → Talk β} {fs : Nat → List Event}
    {v : Nat → α} {w : Nat → Except Fault β}
    (h : Concludes t (fun rank => (f rank).run) es fun rank => .ok (v rank))
    (h' : Concludes t (fun rank => (g rank (v rank)).run) fs w) :
    Concludes t (fun rank => (f rank >>= g rank).run) (fun rank => es rank ++ fs rank) w :=
  h.bind (g := fun rank => ExceptT.bindCont (g rank)) h'

theorem map (h : Concludes t f es v) (g : Nat → α → β) :
    Concludes t (fun rank => f rank >>= fun a => pure (g rank a)) es fun rank =>
    g rank (v rank) :=
  ⟨fun rank hrank => (h.paths rank hrank).bind fun a => pure (g rank a), h.admits⟩

theorem lift (h : Concludes t f es v) :
    Concludes t (fun rank => (ExceptT.lift (f rank) : Talk α).run) es fun rank => .ok (v rank) :=
  h.map fun _ => Except.ok

theorem congr {g : Nat → Program α} {w : Nat → α} (h : Concludes t f es v)
    (hg : ∀ rank < t.size, f rank = g rank) (hw : ∀ rank < t.size, v rank = w rank) :
    Concludes t g es w :=
  ⟨fun rank hrank => hg rank hrank ▸ hw rank hrank ▸ h.paths rank hrank, h.admits⟩

theorem foretold {n : Network} (h : Concludes n.traffic f es v) :
    ∃ log, Foretold n f log n.traffic v ∧ ∀ rank < n.size, eventsOf rank log = es rank := by
  obtain ⟨hpaths, log, hserves, hes⟩ := h
  exact ⟨log, ⟨hserves, fun rank hrank => hes rank hrank ▸ hpaths rank hrank⟩, hes⟩

theorem settles {n : Network} (h : Concludes n.traffic f es v) :
    Pool.Settles (.ofRanks n f) fun log q => q.results = (List.range n.size).map v ∧
      q.network.traffic = n.traffic ∧ ∀ rank < n.size, eventsOf rank log = es rank := by
  obtain ⟨log, hforetold, hlog⟩ := h.foretold
  refine hforetold.settles.mono fun done q ⟨hresults, _, htraffic, hevents⟩ =>
    ⟨hresults, htraffic, ?_⟩
  exact fun rank hrank => (hevents rank hrank).trans (hlog rank hrank)

theorem inevitable {n : Network} (h : Concludes n.traffic f es v) :
    Pool.Inevitable (.ofRanks n f) fun q =>
      q.results = (List.range n.size).map v ∧ q.network.size = n.size ∧
        q.network.traffic = n.traffic := by
  obtain ⟨log, hforetold, -⟩ := h.foretold
  exact hforetold.inevitable

theorem posted_eq_taken (h : Concludes t f es v) {c : Channel} (hsource : c.source < t.size)
    (hdest : c.dest < t.size) (hempty : t.queue c = []) :
    posted c (es c.source) = taken c (es c.dest) := by
  simpa [hempty] using h.admits.conserve hsource hdest

end Concludes

end HaloIndex
