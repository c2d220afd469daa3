import HaloIndex.Proofs.Transport.Concert
import HaloIndex.Proofs.Transport.Outcome

namespace HaloIndex

variable {α β : Type}

namespace Traffic

/-- Whatever is on its way to an active rank is on its way in `u` too, with more behind it only
from ranks that are not active. -/
structure Ahead (active : Nat → Prop) (t u : Traffic) : Prop where
  size : u.size = t.size
  queue : ∀ c : Channel, active c.dest →
    ∃ more, u.queue c = t.queue c ++ more ∧ (active c.source → more = [])

namespace Ahead

variable {active : Nat → Prop} {t u : Traffic} {rank : Nat} {r : Request}

theorem refl (active : Nat → Prop) (t : Traffic) : Ahead active t t :=
  ⟨rfl, fun _ _ => ⟨[], (List.append_nil _).symm, fun _ => rfl⟩⟩

theorem mono (h : Ahead active t u) {active' : Nat → Prop} (himp : ∀ k, active' k → active k) :
    Ahead active' t u := by
  refine ⟨h.size, fun c hdest => ?_⟩
  obtain ⟨more, hqueue, hnone⟩ := h.queue c (himp _ hdest)
  exact ⟨more, hqueue, fun hsource => hnone (himp _ hsource)⟩

theorem head? (h : Ahead active t u) {c : Channel} (hdest : active c.dest) {m : List UInt8}
    (hm : (t.queue c).head? = some m) : (u.queue c).head? = some m := by
  obtain ⟨more, hqueue, -⟩ := h.queue c hdest
  rw [hqueue, List.head?_append, hm]
  rfl

theorem reply (h : Ahead active t u) (hrank : active rank) {a : r.Answer}
    (ha : t.reply rank r = some a) :
    u.reply rank r = some a := by
  cases r with
  | post peer tag payload =>
    rw [Traffic.reply] at ha ⊢
    rwa [h.size]
  | wait handle => exact ha
  | probe source tag =>
    cases source with
    | anyone => cases ha
    | rank source =>
      obtain ⟨m, hm, rfl⟩ := Option.map_eq_some_iff.mp ha
      exact Option.map_eq_some_iff.mpr ⟨m, h.head? hrank hm, rfl⟩
  | receive source tag =>
    obtain ⟨m, hm, rfl⟩ := Option.map_eq_some_iff.mp ha
    exact Option.map_eq_some_iff.mpr ⟨m, h.head? hrank hm, rfl⟩
  | queued => cases ha

theorem queue_ne_nil (h : Ahead active t u) {c : Channel} (hdest : active c.dest)
    (hu : u.queue c ≠ []) (hrest : ¬active c.source → t.queue c ≠ []) : t.queue c ≠ [] := by
  by_cases hsource : active c.source
  · obtain ⟨more, hqueue, hnone⟩ := h.queue c hdest
    rwa [hqueue, hnone hsource, List.append_nil] at hu
  · exact hrest hsource

/-- An active rank that is answered would be answered too if nobody were ahead, unless it never
would. -/
theorem reply_isSome (h : Ahead active t u) (hrank : active rank) (hu : (u.reply rank r).isSome)
    {t' : Traffic} (hsize : t'.size = t.size) (hlater : (t'.reply rank r).isSome)
    (hqueue : ∀ c : Channel, c.dest = rank → ¬active c.source → t'.queue c = t.queue c) :
    (t.reply rank r).isSome := by
  have hhead {c : Channel} (hc : c.dest = rank) (hready : (u.queue c).head?.isSome)
      (hready' : (t'.queue c).head?.isSome) : (t.queue c).head?.isSome := by
    rw [List.isSome_head?] at hready hready' ⊢
    exact h.queue_ne_nil (hc ▸ hrank) hready fun hsource => hqueue c hc hsource ▸ hready'
  cases r with
  | post peer tag payload =>
    rw [Traffic.reply] at hlater ⊢
    rwa [← hsize]
  | wait handle => rfl
  | probe source tag =>
    cases source with
    | anyone => cases hlater
    | rank source =>
      rw [Traffic.reply, Option.isSome_map] at hu hlater ⊢
      exact hhead rfl hu hlater
  | receive source tag =>
    rw [Traffic.reply, Option.isSome_map] at hu hlater ⊢
    exact hhead rfl hu hlater
  | queued => cases hlater

theorem after (h : Ahead active t u) (hrank : active rank) (hready : (t.reply rank r).isSome) :
    Ahead active (t.after rank r) (u.after rank r) := by
  refine ⟨by rw [size_after, size_after, h.size], fun c hdest => ?_⟩
  obtain ⟨more, hqueue, hnone⟩ := h.queue c hdest
  cases r with
  | post peer tag payload =>
    by_cases hc : c = ⟨rank, peer, tag⟩
    · subst hc
      refine ⟨[], ?_, fun _ => rfl⟩
      simp only [Traffic.after, push, Function.update_self, hqueue, hnone hrank, List.append_nil]
    · refine ⟨more, ?_, hnone⟩
      simpa only [Traffic.after, push, Function.update_of_ne hc] using hqueue
  | receive source tag =>
    refine ⟨more, ?_, hnone⟩
    by_cases hc : c = ⟨source, rank, tag⟩
    · subst hc
      simp only [Traffic.after, pop, Function.update_self, hqueue]
      exact List.tail_append_of_ne_nil (queue_ne_nil_of_reply hready)
    · simpa only [Traffic.after, pop, Function.update_of_ne hc] using hqueue
  | wait | probe | queued => exact ⟨more, hqueue, hnone⟩

theorem of_perform {n n' : Network} (h : Ahead active t n.traffic) (hlt : rank < n.size)
    (hrank : ¬active rank) {a : r.Answer} (hperform : n.perform rank r = some (a, n')) :
    Ahead active t n'.traffic := by
  cases r with
  | post peer tag payload =>
    rw [Network.perform] at hperform
    split at hperform
    next hpeer =>
      cases hperform
      rw [Network.traffic_deliver n rank peer tag payload hpeer]
      refine ⟨h.size, fun c hdest => ?_⟩
      obtain ⟨more, hqueue, hnone⟩ := h.queue c hdest
      by_cases hc : c = ⟨rank, peer, tag⟩
      · subst hc
        refine ⟨more ++ [payload], ?_, fun hsource => absurd hsource hrank⟩
        simp only [push, Function.update_self, hqueue, List.append_assoc]
      · refine ⟨more, ?_, hnone⟩
        simpa only [push, Function.update_of_ne hc] using hqueue
    next =>
      cases hperform
      exact h
  | receive source tag =>
    obtain ⟨m, -, he⟩ := Option.map_eq_some_iff.mp hperform
    cases he
    rw [Network.traffic_take n rank source tag hlt]
    refine ⟨h.size, fun c hdest => ?_⟩
    have hc : c ≠ ⟨source, rank, tag⟩ := by
      rintro rfl
      exact hrank hdest
    rw [queue_pop_of_ne _ hc]
    exact h.queue c hdest
  | probe source tag =>
    obtain ⟨m, -, he⟩ := Option.map_eq_some_iff.mp hperform
    cases he
    exact h
  | wait | queued =>
    cases hperform
    exact h

end Ahead

end Traffic

def Program.Unfinished : Program α → Prop
  | .done _ => False
  | .ask .. => True

theorem Program.Path.of_finished {p q : Program α} {es : List Event} (h : p.Path es q)
    (hp : ¬p.Unfinished) : es = [] ∧ q = p := by
  cases p with
  | done a => exact h.of_done
  | ask r next => exact absurd trivial hp

/-- Ranks that are in their first parts do as if nobody were further on; the others will end as
promised. -/
structure Underway (g : Nat → α → Program β) (P : Nat → β → Prop) (v : Nat → α) (t : Traffic)
    (n : Network) (f : Nat → Program β) (m : Network) (p : Nat → Program α)
    (log : List (Nat × Event)) :
    Prop where
  foretold : Foretold m p log t v
  ahead : Traffic.Ahead (fun k => (p k).Unfinished) m.traffic n.traffic
  within : ∀ rank < n.size, (p rank).Unfinished → f rank = p rank >>= g rank
  beyond : ∀ rank < n.size, ¬(p rank).Unfinished → (f rank).Always (P rank)

namespace Underway

open Pool

variable {g : Nat → α → Program β} {P : Nat → β → Prop} {v : Nat → α} {t : Traffic}
  {n n' : Network} {f : Nat → Program β} {m : Network} {p : Nat → Program α}
  {log : List (Nat × Event)} {rank : Nat}

theorem of_foretold (h : Foretold n p log t v)
    (hg : ∀ rank < n.size, (g rank (v rank)).Always (P rank)) :
    Underway g P v t n (fun rank => p rank >>= g rank) n p log := by
  refine ⟨h, .refl _ _, fun _ _ _ => rfl, fun rank hrank hdone => ?_⟩
  obtain ⟨-, he⟩ := (h.paths rank hrank).of_finished hdone
  rw [← he]
  exact hg rank hrank

theorem eventsOf_eq_nil (h : Underway g P v t n f m p log) {k : Nat} (hk : ¬(p k).Unfinished) :
    eventsOf k log = [] := by
  by_cases hlt : k < m.size
  · exact ((h.foretold.paths k hlt).of_finished hk).1
  · exact h.foretold.served.eventsOf_eq_nil (Nat.not_lt.mp hlt)

theorem reply_of_within (h : Underway g P v t n f m p log) (hrank : rank < n.size) {r : Request}
    {next : r.Answer → Program α} (hp : p rank = .ask r next) {a : r.Answer}
    (hperform : n.perform rank r = some (a, n')) : m.traffic.reply rank r = some a ∧
      n'.traffic = n.traffic.after rank r := by
  have hsize : n.size = m.size := h.ahead.size
  have hactive : (p rank).Unfinished := hp ▸ trivial
  have hpath := h.foretold.paths rank (hsize ▸ hrank)
  rw [hp] at hpath
  obtain ⟨b, es, he, -⟩ := hpath.of_ask
  obtain ⟨t', ht', hlater, hqueue⟩ := h.foretold.served.reply_of_first he
  have hready := Network.reply_isSome_of_perform hperform (ht'.trans hsize.symm) hlater
  have hready' := h.ahead.reply_isSome hactive hready ht' hlater fun c hc hsource =>
    hqueue c hc (h.eventsOf_eq_nil hsource)
  obtain ⟨a', ha'⟩ := Option.isSome_iff_exists.mp hready'
  obtain ⟨n'', hperform', htraffic⟩ := Network.perform_of_reply hrank (h.ahead.reply hactive ha')
  obtain ⟨rfl, rfl⟩ := Prod.mk.inj (Option.some.inj (hperform.symm.trans hperform'))
  exact ⟨ha', htraffic⟩

/-- A rank in its first part goes on in it or comes to its end. -/
theorem step_within (h : Underway g P v t n f m p log)
    (hg : ∀ rank < n.size, (g rank (v rank)).Always (P rank))
    (hrank : rank < n.size) {r : Request} {next : r.Answer → Program α}
    (hp : p rank = .ask r next) {a : r.Answer} (hperform : n.perform rank r = some (a, n')) :
    n'.size = n.size ∧
      ∃ m' log', Underway g P v t n' (Function.update f rank (next a >>= g rank)) m'
        (Function.update p rank (next a)) log' := by
  obtain ⟨ha, htraffic⟩ := h.reply_of_within hrank hp hperform
  have hsize : n.size = m.size := h.ahead.size
  have hactive : (p rank).Unfinished := hp ▸ trivial
  obtain ⟨m', -, htraffic'⟩ := Network.perform_of_reply (hsize ▸ hrank) ha
  obtain ⟨log', hlog', -⟩ := h.foretold.of_reply (hsize ▸ hrank) hp ha htraffic'
  have hahead := h.ahead.after hactive (Option.isSome_of_eq_some ha)
  rw [← htraffic, ← htraffic'] at hahead
  have hsize' : n'.size = n.size :=
    congrArg Traffic.size htraffic |>.trans (Traffic.size_after ..)
  refine ⟨hsize', m', log', hlog', hahead.mono fun k hk => ?_, fun k hk hun => ?_,
    fun k hk hdone => ?_⟩
  all_goals by_cases hkr : k = rank
  · exact hkr ▸ hactive
  · rwa [Function.update_of_ne hkr] at hk
  · subst hkr
    rw [Function.update_self, Function.update_self]
  · rw [Function.update_of_ne hkr] at hun ⊢
    rw [Function.update_of_ne hkr]
    exact h.within k (hsize' ▸ hk) hun
  · subst hkr
    have hlt : k < m'.size := Nat.lt_of_lt_of_eq hk hahead.size
    obtain ⟨-, he⟩ := (hlog'.paths k hlt).of_finished hdone
    rw [Function.update_self] at he ⊢
    rw [← he]
    exact hg k hrank
  · rw [Function.update_of_ne hkr] at hdone ⊢
    exact h.beyond k (hsize' ▸ hk) hdone

theorem step_beyond (h : Underway g P v t n f m p log) (hrank : rank < n.size) {r : Request}
    {next : r.Answer → Program β} (hf : f rank = .ask r next) (hdone : ¬(p rank).Unfinished)
    {a : r.Answer} (hperform : n.perform rank r = some (a, n')) : n'.size = n.size ∧
      Underway g P v t n' (Function.update f rank (next a)) m p log := by
  have hahead := h.ahead.of_perform hrank hdone hperform
  have hsize : n'.size = n.size := hahead.size.trans h.ahead.size.symm
  refine ⟨hsize, h.foretold, hahead, fun k hk hun => ?_, fun k hk hdone => ?_⟩
  all_goals by_cases hkr : k = rank
  · exact absurd (hkr ▸ hun) hdone
  · rw [Function.update_of_ne hkr]
    exact h.within k (hsize ▸ hk) hun
  · subst hkr
    have halways := h.beyond k hrank hdone
    rw [hf] at halways
    rw [Function.update_self]
    exact halways a
  · rw [Function.update_of_ne hkr]
    exact h.beyond k (hsize ▸ hk) hdone

theorem of_does (h : Underway g P v t n f m p log)
    (hg : ∀ rank < n.size, (g rank (v rank)).Always (P rank)) {label : Nat × Event} {q : Pool β}
    (hd : Does (ofRanks n f) label q) :
    ∃ n' f' m' p' log', q = ofRanks n' f' ∧ n'.size = n.size ∧
      Underway g P v t n' f' m' p' log' := by
  obtain ⟨rank, hrank, r, next, a, n', hf, hperform, -, hq⟩ := hd.of_ofRanks
  cases hp : p rank with
  | done w =>
    have hdone : ¬(p rank).Unfinished := hp ▸ not_false
    obtain ⟨hsize, h'⟩ := h.step_beyond hrank hf hdone hperform
    exact ⟨n', _, m, p, log, hq hsize, hsize, h'⟩
  | ask r' next' =>
    have hstep := h.within rank hrank (hp ▸ trivial)
    rw [hf, hp, Program.ask_bind] at hstep
    obtain ⟨rfl, hnext⟩ := Program.ask.inj hstep
    cases hnext
    obtain ⟨hsize, m', log', h'⟩ := h.step_within hg hrank hp hperform
    exact ⟨n', _, m', _, log', hq hsize, hsize, h'⟩

end Underway

namespace Concludes

variable {n : Network} {f : Nat → Program α} {es : Nat → List Event} {v : Nat → α}
  {g : Nat → α → Program β}

/-- If the first parts conclude, every rank goes on from what its own ends with, however far the
others are by then. -/
theorem first_part (h : Concludes n.traffic f es v) {P : Nat → β → Prop}
    (hg : ∀ rank < n.size, (g rank (v rank)).Always (P rank)) {q : Pool β}
    (hq : Relation.ReflTransGen Pool.Step (.ofRanks n fun rank => f rank >>= g rank) q) :
    ∀ task ∈ q.tasks, ∀ value, task.program = .done value → P task.rank value := by
  obtain ⟨log, hforetold, -⟩ := h.foretold
  have hunderway : ∃ n' f' m p log, q = .ofRanks n' f' ∧ n'.size = n.size ∧
      Underway g P v n.traffic n' f' m p log := by
    induction hq with
    | refl => exact ⟨n, _, n, f, log, rfl, rfl, .of_foretold hforetold hg⟩
    | tail _ hs ih =>
      obtain ⟨n', f', m, p, log, rfl, hsize, hunder⟩ := ih
      obtain ⟨label, hd⟩ := Pool.step_iff_does.mp hs
      obtain ⟨n'', f'', m', p', log', rfl, hsize', hunder'⟩ := hunder.of_does (hsize ▸ hg) hd
      exact ⟨n'', f'', m', p', log', rfl, hsize'.trans hsize, hunder'⟩
  obtain ⟨n', f', m, p, log, rfl, -, hunder⟩ := hunderway
  rintro task htask value hvalue
  obtain ⟨k, hk, rfl⟩ := List.mem_map.mp htask
  have hlt := List.mem_range.mp hk
  change f' k = .done value at hvalue
  by_cases hun : (p k).Unfinished
  · have hf := hunder.within k hlt hun
    rw [hvalue] at hf
    cases hp : p k with
    | done w => exact absurd hun (hp ▸ not_false)
    | ask r next =>
      rw [hp] at hf
      cases hf
  · have halways := hunder.beyond k hlt hun
    rwa [hvalue] at halways

theorem exists_ended (h : Concludes n.traffic f es v) {rank : Nat} (hrank : rank < n.size)
    {P : β → Prop} (hg : (g rank (v rank)).Always P) {q : Pool β}
    (hq : Relation.ReflTransGen Pool.Step (.ofRanks n fun rank => f rank >>= g rank) q)
    {ended : β → Prop} (hdone : ∀ t ∈ q.tasks, ∃ value, t.program = .done value ∧ ended value) :
    ∃ value, P value ∧ ended value := by
  have hpromised : ∀ k < n.size, (g k (v k)).Always fun value => k = rank → P value := by
    intro k _
    by_cases hkr : k = rank
    · subst hkr
      exact hg.mono fun _ hvalue _ => hvalue
    · exact Program.always_of_forall (fun _ h => absurd h hkr) _
  obtain ⟨t, ht, hrank⟩ := Pool.exists_task hrank hq
  obtain ⟨value, hvalue, hended⟩ := hdone t ht
  exact ⟨value, h.first_part hpromised hq t ht value hvalue hrank, hended⟩

end Concludes

end HaloIndex
