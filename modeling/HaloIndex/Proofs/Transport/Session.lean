import HaloIndex.Proofs.Transport.Concert
import HaloIndex.Transport.World

namespace HaloIndex

variable {σ α β : Type}

/-- A step that changes the state of a rank, and nothing else that the rank keeps. -/
def Act.ofState (f : σ → Program (α × σ)) : Act σ α := fun r => do
  let (answer, state) ← f r.state
  return (answer, { r with state })

namespace Program

def isWait (e : Event) : Bool :=
  match e.request with
  | .wait _ => true
  | _ => false

theorem Path.disrupted {p q : Program α} {es : List Event} (h : p.Path es q) (waits : Nat) :
    (p.disrupted {} waits).Path es (q.disrupted {} (waits + es.countP isWait)) := by
  induction h generalizing waits with
  | refl => exact .refl _
  | @ask r next a es q _ ih =>
    cases r with
    | wait handle =>
      have hrest := ih (waits + 1)
      rw [List.countP_cons_of_pos rfl, Nat.add_comm (es.countP isWait), ← Nat.add_assoc]
      exact .ask hrest
    | post | probe | receive | queued =>
      rw [List.countP_cons_of_neg Bool.false_ne_true]
      exact .ask (ih waits)

end Program

/-- Each rank goes through its calls, and all come to the end of each call together. -/
inductive Proceeds (t : Traffic) : List (Nat → σ → Program (α × σ)) → (Nat → σ) →
    List (Nat → List Event) → List (Nat → α) → (Nat → σ) → Prop where
  | nil (state : Nat → σ) : Proceeds t [] state [] [] state
  | cons {call : Nat → σ → Program (α × σ)} {calls : List (Nat → σ → Program (α × σ))}
      {state next final : Nat → σ} {es : Nat → List Event} {stages : List (Nat → List Event)}
      {answer : Nat → α} {answers : List (Nat → α)}
      (h : Concludes t (fun rank => call rank (state rank)) es fun rank =>
        (answer rank, next rank))
      (rest : Proceeds t calls next stages answers final) :
      Proceeds t (call :: calls) state (es :: stages) (answer :: answers) final

def eventsIn (stages : List (Nat → List Event)) (rank : Nat) : List Event :=
  stages.flatMap (· rank)

namespace Proceeds

variable {t : Traffic} {calls : List (Nat → σ → Program (α × σ))} {state final : Nat → σ}
  {stages : List (Nat → List Event)} {answers : List (Nat → α)}

theorem inTurn_concludes (h : Proceeds t calls state stages answers final) (waits : Nat → Nat) :
    Concludes t (fun rank => World.inTurn (calls.map fun call => Act.ofState (call rank))
        ⟨state rank, {}, waits rank⟩)
      (eventsIn stages) fun rank => (answers.map (· rank),
        ⟨final rank, {}, waits rank + (eventsIn stages rank).countP Program.isWait⟩) := by
  induction h generalizing waits with
  | nil state => exact .of_done fun _ _ => rfl
  | @cons call calls state next final es stages answer answers hcall _ ih =>
    have hrest := ih fun rank => waits rank + (es rank).countP Program.isWait
    constructor
    case admits => exact hcall.admits.trans hrest.admits
    case paths =>
      intro rank hrank
      have hone := ((hcall.paths rank hrank).bind (fun r => (pure (r.1, ⟨r.2, {}, waits rank⟩) :
        Program (α × Resident σ)))).disrupted (waits rank)
      have hlater := (hrest.paths rank hrank).bind fun r =>
        (pure (answer rank :: r.1, r.2) : Program (List α × Resident σ))
      have hboth := hone.andThen (f := fun r =>
        World.inTurn (calls.map fun call => Act.ofState (call rank))
            { r.1.2 with waits := r.2 } >>=
          fun later => pure (r.1.1 :: later.1, later.2)) hlater
      simp only [eventsIn, List.flatMap_cons, List.countP_append, ← Nat.add_assoc]
      exact hboth

end Proceeds

def callAt (stages : List (Nat → List Event)) (rank events : Nat) : Nat :=
  match stages with
  | [] => 0
  | es :: rest =>
    if events < (es rank).length then 0
    else callAt rest rank (events - (es rank).length) + 1

theorem length_lt_iff_countP_lt {es rest before : List Event} {e : Event} {p : Event → Bool}
    (he : p e = true) (h : before ++ [e] <+: es ++ rest) :
    before.length < es.length ↔ before.countP p < es.countP p := by
  constructor
  · intro hlt
    have hfirst : before ++ [e] <+: es := by
      apply List.prefix_of_prefix_length_le h (List.prefix_append ..)
      rwa [List.length_append, List.length_singleton]
    have hcount := hfirst.sublist.countP_le (p := p)
    rw [List.countP_append, List.countP_singleton, if_pos he] at hcount
    exact hcount
  · intro hlt
    by_contra hle
    have hall : es <+: before := by
      apply List.prefix_of_prefix_length_le (List.prefix_append es rest)
      · exact (List.prefix_append before [e]).trans h
      · exact Nat.not_lt.mp hle
    have hcount := hall.sublist.countP_le (p := p)
    omega

/-- If two ranks agree in how many events of a kind each call has, then events of the same number
are in the same call. -/
theorem callAt_eq {stages : List (Nat → List Event)} {source dest : Nat} {p q : Event → Bool}
    (h : ∀ es ∈ stages, (es source).countP p = (es dest).countP q) {before before' : List Event}
    {d e : Event} (hd : p d = true) (he : q e = true)
    (hbefore : before ++ [d] <+: eventsIn stages source)
    (hbefore' : before' ++ [e] <+: eventsIn stages dest)
    (hcount : before.countP p = before'.countP q) :
    callAt stages source before.length = callAt stages dest before'.length := by
  induction stages generalizing before before' with
  | nil => simp [eventsIn] at hbefore
  | cons es stages ih =>
    rw [eventsIn, List.flatMap_cons] at hbefore hbefore'
    have hfirst := h es (List.mem_cons_self ..)
    have hiff := length_lt_iff_countP_lt hd hbefore
    rw [hcount, hfirst, ← length_lt_iff_countP_lt he hbefore'] at hiff
    -- Either both are in this call, or this call is over for both and can be left out.
    rw [callAt, callAt]
    by_cases hlt : before.length < (es source).length
    · rw [if_pos hlt, if_pos (hiff.mp hlt)]
    · have hlt' := fun hless => hlt (hiff.mpr hless)
      rw [if_neg hlt, if_neg hlt']
      obtain ⟨before, rfl⟩ : es source <+: before := List.prefix_of_prefix_length_le
        (List.prefix_append ..) ((List.prefix_append before [d]).trans hbefore)
          (Nat.not_lt.mp hlt)
      obtain ⟨before', rfl⟩ : es dest <+: before' := List.prefix_of_prefix_length_le
        (List.prefix_append ..) ((List.prefix_append before' [e]).trans hbefore')
          (Nat.not_lt.mp hlt')
      rw [List.append_assoc, List.prefix_append_right_inj] at hbefore hbefore'
      rw [List.countP_append, List.countP_append, hfirst, Nat.add_left_cancel_iff] at hcount
      rw [List.length_append, List.length_append, Nat.add_sub_cancel_left,
        Nat.add_sub_cancel_left,
        ih (fun es hes => h es (List.mem_cons_of_mem _ hes)) hbefore hbefore' hcount]

theorem exists_of_filterMap {γ δ : Type} {f : γ → Option δ} {xs : List γ}
    {ys zs : List δ} {y : δ} (h : xs.filterMap f = ys ++ y :: zs) :
    ∃ before x after, xs = before ++ x :: after ∧ before.filterMap f = ys ∧ f x = some y := by
  obtain ⟨first, rest, rfl, rfl, hrest⟩ := List.filterMap_eq_append_iff.mp h
  obtain ⟨none, x, after, rfl, hnone, hx, -⟩ := List.filterMap_eq_cons_iff.mp hrest
  refine ⟨first ++ none, x, after, (List.append_assoc ..).symm, ?_, hx⟩
  rw [List.filterMap_append, List.filterMap_eq_nil_iff.mpr hnone, List.append_nil]

theorem exists_of_eventsOf {rank : Nat} {log : List (Nat × Event)}
    {es fs : List Event} {e : Event} (h : eventsOf rank log = es ++ e :: fs) :
    ∃ earlier later, log = earlier ++ (rank, e) :: later ∧ eventsOf rank earlier = es := by
  have heq (log : List (Nat × Event)) : eventsOf rank log =
      log.filterMap fun x => if x.1 == rank then some x.2 else none := by
    rw [eventsOf, ← List.filterMap_eq_map, List.filterMap_filter]
    rfl
  rw [heq] at h
  obtain ⟨earlier, ⟨owner, d⟩, later, rfl, hearlier, hd⟩ := exists_of_filterMap h
  obtain ⟨howner, he⟩ := Option.ite_none_right_eq_some.mp hd
  obtain rfl : owner = rank := beq_iff_eq.mp howner
  cases he
  exact ⟨earlier, later, rfl, heq earlier ▸ hearlier⟩

theorem posted_of_taken {c c' : Channel} {e : Event} {payload : List UInt8}
    (h : e.taken c = some payload) : e.posted c' = none := by
  obtain ⟨r, a⟩ := e
  cases r with
  | receive => rfl
  | post | wait | probe | queued => cases h

namespace Foretold

open Pool

variable {n : Network} {f : Nat → Program α} {log : List (Nat × Event)} {t : Traffic}
  {v : Nat → α}

theorem rank_lt_of_run (h : Foretold n f log t v) {done : List (Nat × Event)} {q : Pool α}
    (hr : Run (ofRanks n f) done q) {rank : Nat} {e : Event} (he : (rank, e) ∈ done) :
    rank < n.size := by
  by_contra hrank
  obtain ⟨_, _, log', -, -, -, hevents⟩ := h.of_run hr
  have hnone := h.served.eventsOf_eq_nil (Nat.not_lt.mp hrank)
  rw [hevents, List.append_eq_nil_iff] at hnone
  have hin : e ∈ eventsOf rank done :=
    List.mem_map.mpr ⟨_, List.mem_filter.mpr ⟨he, beq_self_eq_true rank⟩, rfl⟩
  rw [hnone.1] at hin
  cases hin

/-- What a rank takes was posted before, after all that the rank has taken before on this
channel. -/
theorem posted_before (h : Foretold n f log t v)
    {before after : List (Nat × Event)} {c : Channel} {e : Event} {q : Pool α}
    (hr : Run (ofRanks n f) (before ++ (c.dest, e) :: after) q) (hempty : n.traffic.queue c = [])
    {payload : List UInt8} (htaken : e.taken c = some payload) :
    ∃ earlier d later, before = earlier ++ (c.source, d) :: later ∧ d.posted c = some payload ∧
      posted c (eventsOf c.source earlier) = taken c (eventsOf c.dest before) := by
  rw [← List.singleton_append, ← List.append_assoc] at hr
  obtain ⟨mid, hmid, -⟩ := hr.of_append
  have hqueue := h.conserve_run hmid c
  -- The event itself posts nothing and takes just this message.
  have hnone : posted c (eventsOf c.source [(c.dest, e)]) = [] := by
    rw [eventsOf_cons]
    split <;> simp [posted, posted_of_taken htaken]
  have hsome : taken c (eventsOf c.dest [(c.dest, e)]) = [payload] := by
    rw [eventsOf_cons_self]
    simp [taken, htaken]
  rw [eventsOf_append, eventsOf_append, posted_append, taken_append, hnone, hsome, hempty,
    List.nil_append, List.append_nil, List.append_assoc] at hqueue
  obtain ⟨es, d, fs, hsent, hes, hd⟩ := exists_of_filterMap hqueue
  obtain ⟨earlier, later, hbefore, rfl⟩ := exists_of_eventsOf hsent
  exact ⟨earlier, d, later, hbefore, hd, hes⟩

end Foretold

namespace Pool

/-- However the ranks are interleaved, each goes through its stages, each message is taken in the
stage in which it was sent, and the ranks do not stop before all have ended, with these values
and with empty mailboxes. -/
structure Orderly (size : Nat) (f : Nat → Program α) (stages : List (Nat → List Event))
    (v : Nat → α) :
    Prop where
  ends : Acc (fun q p => Step p q) (ofRanks (.quiet size) f)
  goesOn : ∀ log q, Run (ofRanks (.quiet size) f) log q → (∃ s, Step q s) ∨
    q.results = (List.range size).map v ∧ q.network = .quiet size ∧
      ∀ rank < size, eventsOf rank log = eventsIn stages rank
  inTurn : ∀ log q, Run (ofRanks (.quiet size) f) log q →
    ∀ rank < size, eventsOf rank log <+: eventsIn stages rank
  balanced : ∀ es ∈ stages, ∀ c : Channel, c.source < size → c.dest < size →
    posted c (es c.source) = taken c (es c.dest)
  sameCall : ∀ before after q c e payload,
    Run (ofRanks (.quiet size) f) (before ++ (c.dest, e) :: after) q → e.taken c = some payload →
    ∃ earlier d later, before = earlier ++ (c.source, d) :: later ∧ d.posted c = some payload ∧
      posted c (eventsOf c.source earlier) = taken c (eventsOf c.dest before) ∧
      callAt stages c.source (eventsOf c.source earlier).length =
        callAt stages c.dest (eventsOf c.dest before).length

theorem orderly_of_concludes {size : Nat} {f : Nat → Program α}
    {stages : List (Nat → List Event)} {v : Nat → α}
    (h : Concludes (Network.quiet size).traffic f (eventsIn stages) v)
    (hbalanced : ∀ es ∈ stages, ∀ c : Channel, c.source < size → c.dest < size →
      posted c (es c.source) = taken c (es c.dest)) :
    Orderly size f stages v := by
  obtain ⟨log, hforetold, hlog⟩ := h.foretold
  rw [Network.size_quiet] at hlog
  have hbegins {done : List (Nat × Event)} {q : Pool α}
      (hr : Run (ofRanks (.quiet size) f) done q) :
      ∀ rank < size, eventsOf rank done <+: eventsIn stages rank := by
    intro rank hrank
    obtain ⟨_, _, log', -, -, -, hevents⟩ := hforetold.of_run hr
    rw [← hlog rank hrank, hevents rank]
    exact List.prefix_append ..
  have hnext {before after : List (Nat × Event)} {rank : Nat} {e : Event} {q : Pool α}
      (hr : Run (ofRanks (.quiet size) f) (before ++ (rank, e) :: after) q)
        (hrank : rank < size) :
      eventsOf rank before ++ [e] <+: eventsIn stages rank := by
    have hall := hbegins hr rank hrank
    rw [eventsOf_append, eventsOf_cons_self] at hall
    exact .trans ⟨eventsOf rank after, List.append_assoc ..⟩ hall
  constructor
  case ends => exact step_wf.apply _
  case inTurn => exact fun done q hr => hbegins hr
  case balanced => exact hbalanced
  case goesOn =>
    intro done q hr
    apply (hforetold.settles.stops done q hr).imp_right
    rw [Network.size_quiet]
    rintro ⟨hresults, -, htraffic, hevents⟩
    refine ⟨hresults, Network.eq_quiet_of_traffic htraffic, fun rank hrank => ?_⟩
    exact (hevents rank hrank).trans (hlog rank hrank)
  case sameCall =>
    intro before after q c e payload hr htaken
    have hempty : (Network.quiet size).traffic.queue c = [] := by rw [Network.traffic_quiet]
    obtain ⟨earlier, d, later, rfl, hd, hsame⟩ := hforetold.posted_before hr hempty htaken
    refine ⟨earlier, d, later, rfl, hd, hsame, ?_⟩
    have hsource : c.source < size :=
      Network.size_quiet size ▸ hforetold.rank_lt_of_run hr (e := d) (by simp)
    have hdest : c.dest < size :=
      Network.size_quiet size ▸ hforetold.rank_lt_of_run hr (e := e) (by simp)
    have hlast := hnext hr hdest
    rw [List.append_assoc, List.cons_append] at hr
    have hlength := congrArg List.length hsame
    simp only [posted, taken, List.length_filterMap_eq_countP] at hlength
    apply callAt_eq (p := fun d => (d.posted c).isSome) (q := fun e => (e.taken c).isSome)
    · intro es hes
      simpa only [posted, taken, List.length_filterMap_eq_countP] using
        congrArg List.length (hbalanced es hes c hsource hdest)
    · exact Option.isSome_of_eq_some hd
    · exact Option.isSome_of_eq_some htaken
    · exact hnext hr hsource
    · exact hlast
    · exact hlength

end Pool

namespace Proceeds

variable {t : Traffic} {calls : List (Nat → σ → Program (α × σ))} {state final : Nat → σ}
  {stages : List (Nat → List Event)} {answers : List (Nat → α)}

theorem posted_eq_taken (h : Proceeds t calls state stages answers final)
    (hquiet : ∀ c, t.queue c = []) : ∀ es ∈ stages, ∀ c : Channel, c.source < t.size →
      c.dest < t.size → posted c (es c.source) = taken c (es c.dest) := by
  induction h with
  | nil => exact nofun
  | cons hcall _ ih =>
    intro es hes c hsource hdest
    rcases List.mem_cons.mp hes with rfl | hes
    · exact hcall.posted_eq_taken hsource hdest (hquiet c)
    · exact ih es hes c hsource hdest

/-- Calls that all ranks can make together can be made at any speed. -/
theorem orderly {size : Nat}
    (h : Proceeds (Network.quiet size).traffic calls state stages answers final) :
    Pool.Orderly size
      (fun rank => World.inTurn (calls.map fun call => Act.ofState (call rank))
        { state := state rank })
      stages fun rank => (answers.map (· rank),
        { state := final rank, waits := (eventsIn stages rank).countP Program.isWait }) := by
  have hsession := h.inTurn_concludes fun _ => 0
  simp only [Nat.zero_add] at hsession
  apply Pool.orderly_of_concludes hsession
  rw [Network.traffic_quiet] at h
  exact h.posted_eq_taken fun _ => rfl

end Proceeds

end HaloIndex
