import HaloIndex.Transport.Network
import Mathlib.Logic.Function.Basic
import Mathlib.Data.List.Basic

namespace HaloIndex

structure Channel where
  source : Nat
  dest : Nat
  tag : Tag
  deriving DecidableEq

/-- The payloads queued on every channel between the ranks below `size`, oldest first. -/
@[ext]
structure Traffic where
  size : Nat
  queue : Channel → List (List UInt8)

structure Event where
  request : Request
  answer : request.Answer

namespace Traffic

def push (t : Traffic) (c : Channel) (payload : List UInt8) : Traffic :=
  { t with queue := Function.update t.queue c (t.queue c ++ [payload]) }

def pop (t : Traffic) (c : Channel) : Traffic :=
  { t with queue := Function.update t.queue c (t.queue c).tail }

/-- The answer to a request whose answer does not depend on the order in which the ranks act.
There is none for a request that has to wait, and none for one that looks across channels. -/
def reply (t : Traffic) (rank : Nat) : (r : Request) → Option r.Answer
  | .post peer _ _ => if peer < t.size then some (.ok ⟨peer⟩) else none
  | .wait _ => some (.ok ())
  | .probe (.rank source) tag =>
    (t.queue ⟨source, rank, tag⟩).head?.map fun m => .ok ⟨source, m.length⟩
  | .probe .anyone _ => none
  | .receive source tag => (t.queue ⟨source, rank, tag⟩).head?.map .ok
  | .queued => none

def after (t : Traffic) (rank : Nat) : Request → Traffic
  | .post peer tag payload => t.push ⟨rank, peer, tag⟩ payload
  | .receive source tag => t.pop ⟨source, rank, tag⟩
  | _ => t

@[simp]
theorem size_after (t : Traffic) (rank : Nat) (r : Request) :
    (t.after rank r).size = t.size := by
  cases r <;> rfl

theorem head?_push (t : Traffic) (c d : Channel) (payload m : List UInt8)
    (h : (t.queue d).head? = some m) : ((t.push c payload).queue d).head? = some m := by
  by_cases hd : d = c
  · subst hd
    simp [push, List.head?_append, h]
  · simpa only [push, Function.update_of_ne hd] using h

theorem queue_pop_of_ne (t : Traffic) {c d : Channel} (h : d ≠ c) :
    (t.pop c).queue d = t.queue d := Function.update_of_ne h _ _

theorem head?_after {t : Traffic} {rank other : Nat} (hne : rank ≠ other)
    (s : Request) {c : Channel} (hc : c.dest = rank) {m : List UInt8}
    (h : (t.queue c).head? = some m) :
    ((t.after other s).queue c).head? = some m := by
  cases s with
  | post peer tag payload => exact t.head?_push _ _ _ _ h
  | receive source tag =>
    have hcd : c ≠ ⟨source, other, tag⟩ := by
      rintro rfl
      exact hne hc.symm
    simpa only [after, queue_pop_of_ne t hcd] using h
  | wait | probe | queued => exact h

theorem reply_after {t : Traffic} {rank other : Nat} (hne : rank ≠ other)
    (s : Request) {r : Request} {a : r.Answer} (h : t.reply rank r = some a) :
    (t.after other s).reply rank r = some a := by
  cases r with
  | post => simpa only [reply, size_after] using h
  | wait => exact h
  | probe source tag =>
    cases source with
    | anyone => cases h
    | rank source =>
      obtain ⟨m, hm, rfl⟩ := Option.map_eq_some_iff.mp h
      exact Option.map_eq_some_iff.mpr ⟨m, head?_after hne s rfl hm, rfl⟩
  | receive source tag =>
    obtain ⟨m, hm, rfl⟩ := Option.map_eq_some_iff.mp h
    exact Option.map_eq_some_iff.mpr ⟨m, head?_after hne s rfl hm, rfl⟩
  | queued => cases h

theorem push_comm (t : Traffic) {c d : Channel} (h : c ≠ d) (x y : List UInt8) :
    (t.push c x).push d y = (t.push d y).push c x := by
  simp only [push, Function.update_of_ne h, Function.update_of_ne h.symm, Function.update_comm h]

theorem pop_comm (t : Traffic) {c d : Channel} (h : c ≠ d) :
    (t.pop c).pop d = (t.pop d).pop c := by
  simp only [pop, Function.update_of_ne h, Function.update_of_ne h.symm, Function.update_comm h]

/-- Only the order of a post and a receive on one empty channel matters. -/
theorem push_pop_comm (t : Traffic) (c d : Channel) (x : List UInt8) (h : t.queue d ≠ []) :
    (t.push c x).pop d = (t.pop d).push c x := by
  by_cases hcd : c = d
  · subst hcd
    simp only [push, pop, Function.update_self, Function.update_idem,
      List.tail_append_of_ne_nil h]
  · simp only [push, pop, Function.update_of_ne hcd, Function.update_of_ne (Ne.symm hcd),
      Function.update_comm hcd]

theorem queue_ne_nil_of_reply {t : Traffic} {rank source : Nat} {tag : Tag}
    (h : (t.reply rank (.receive source tag)).isSome) : t.queue ⟨source, rank, tag⟩ ≠ [] := by
  intro hq
  simp [reply, hq] at h

theorem after_comm {t : Traffic} {rank other : Nat} (hne : rank ≠ other) {r s : Request}
    (hr : (t.reply rank r).isSome) (hs : (t.reply other s).isSome) :
    (t.after rank r).after other s = (t.after other s).after rank r := by
  cases r with
  | post peer tag payload =>
    cases s with
    | post => exact t.push_comm (by simp [hne]) _ _
    | receive => exact t.push_pop_comm _ _ _ (queue_ne_nil_of_reply hs)
    | wait | probe | queued => rfl
  | receive source tag =>
    cases s with
    | post => exact (t.push_pop_comm _ _ _ (queue_ne_nil_of_reply hr)).symm
    | receive => exact t.pop_comm (by simp [hne])
    | wait | probe | queued => rfl
  | wait | probe | queued => rfl

end Traffic

def eventsOf (rank : Nat) (log : List (Nat × Event)) : List Event :=
  (log.filter (·.1 == rank)).map (·.2)

@[simp]
theorem eventsOf_nil (rank : Nat) : eventsOf rank [] = [] := rfl

@[simp]
theorem eventsOf_cons_self (rank : Nat) (e : Event) (log : List (Nat × Event)) :
    eventsOf rank ((rank, e) :: log) = e :: eventsOf rank log := by
  simp [eventsOf]

theorem eventsOf_cons_of_ne {rank other : Nat} (h : other ≠ rank) (e : Event)
    (log : List (Nat × Event)) : eventsOf rank ((other, e) :: log) = eventsOf rank log := by
  simp [eventsOf, h]

theorem eventsOf_cons (rank other : Nat) (e : Event) (log : List (Nat × Event)) :
    eventsOf rank ((other, e) :: log) =
      if other = rank then e :: eventsOf rank log else eventsOf rank log := by
  split
  next h => rw [h, eventsOf_cons_self]
  next h => rw [eventsOf_cons_of_ne h]

@[simp]
theorem eventsOf_append (rank : Nat) (log more : List (Nat × Event)) :
    eventsOf rank (log ++ more) = eventsOf rank log ++ eventsOf rank more := by
  simp [eventsOf]

def Event.posted (c : Channel) : Event → Option (List UInt8)
  | ⟨.post peer tag payload, _⟩ => if peer = c.dest ∧ tag = c.tag then some payload else none
  | _ => none

def Event.taken (c : Channel) : Event → Option (List UInt8)
  | ⟨.receive source tag, .ok payload⟩ =>
    if source = c.source ∧ tag = c.tag then some payload else none
  | _ => none

def posted (c : Channel) (es : List Event) : List (List UInt8) := es.filterMap (Event.posted c)

def taken (c : Channel) (es : List Event) : List (List UInt8) := es.filterMap (Event.taken c)

namespace Event

def sent (peer : Nat) (tag : Tag) (payload : List UInt8) : Event :=
  ⟨.post peer tag payload, .ok ⟨peer⟩⟩

def waited (peer : Nat) : Event := ⟨.wait ⟨peer⟩, .ok ()⟩

def seen (source : Nat) (tag : Tag) (payload : List UInt8) : Event :=
  ⟨.probe (.rank source) tag, .ok ⟨source, payload.length⟩⟩

def received (source : Nat) (tag : Tag) (payload : List UInt8) : Event :=
  ⟨.receive source tag, .ok payload⟩

end Event

@[simp]
theorem posted_nil (c : Channel) : posted c [] = [] := rfl

@[simp]
theorem taken_nil (c : Channel) : taken c [] = [] := rfl

@[simp]
theorem posted_append (c : Channel) (es fs : List Event) :
    posted c (es ++ fs) = posted c es ++ posted c fs := List.filterMap_append

@[simp]
theorem taken_append (c : Channel) (es fs : List Event) :
    taken c (es ++ fs) = taken c es ++ taken c fs := List.filterMap_append

theorem posted_eventsOf_cons (c : Channel) (rank : Nat) (e : Event) (log : List (Nat × Event)) :
    posted c (eventsOf c.source ((rank, e) :: log)) =
      (if rank = c.source then (e.posted c).toList else []) ++ posted c
      (eventsOf c.source log) := by
  rw [eventsOf_cons]
  split
  next => cases hposted : e.posted c <;> simp [posted, hposted]
  next => rfl

theorem taken_eventsOf_cons (c : Channel) (rank : Nat) (e : Event) (log : List (Nat × Event)) :
    taken c (eventsOf c.dest ((rank, e) :: log)) =
      (if rank = c.dest then (e.taken c).toList else []) ++ taken c (eventsOf c.dest log) := by
  rw [eventsOf_cons]
  split
  next => cases htaken : e.taken c <;> simp [taken, htaken]
  next => rfl

section Named

open Event

variable (c : Channel) (peer : Nat) (tag : Tag) (payload : List UInt8) (es : List Event)

@[simp]
theorem posted_sent : posted c (sent peer tag payload :: es) =
    (if peer = c.dest ∧ tag = c.tag then [payload] else []) ++ posted c es := by
  simp only [posted, List.filterMap_cons, sent, Event.posted]
  split <;> simp_all

@[simp]
theorem posted_waited : posted c (waited peer :: es) = posted c es := rfl

@[simp]
theorem posted_seen : posted c (seen peer tag payload :: es) = posted c es := rfl

@[simp]
theorem posted_received : posted c (received peer tag payload :: es) = posted c es := rfl

@[simp]
theorem taken_sent : taken c (sent peer tag payload :: es) = taken c es := rfl

@[simp]
theorem taken_waited : taken c (waited peer :: es) = taken c es := rfl

@[simp]
theorem taken_seen : taken c (seen peer tag payload :: es) = taken c es := rfl

@[simp]
theorem taken_received : taken c (received peer tag payload :: es) =
    (if peer = c.source ∧ tag = c.tag then [payload] else []) ++ taken c es := by
  simp only [taken, List.filterMap_cons, received, Event.taken]
  split <;> simp_all

end Named

namespace Traffic

/-- The requests of a log are answered as it says, one after the other. -/
inductive Serves : Traffic → List (Nat × Event) → Traffic → Prop where
  | refl (t : Traffic) : Serves t [] t
  | step {t u : Traffic} {rank : Nat} {e : Event} {log : List (Nat × Event)}
      (hrank : rank < t.size) (hreply : t.reply rank e.request = some e.answer)
      (rest : Serves (t.after rank e.request) log u) : Serves t ((rank, e) :: log) u

theorem Serves.trans {t u v : Traffic} {log more : List (Nat × Event)} (h : Serves t log u)
    (h' : Serves u more v) : Serves t (log ++ more) v := by
  induction h with
  | refl => exact h'
  | step hrank hreply _ ih => exact .step hrank hreply (ih h')

theorem Serves.size_eq {t u : Traffic} {log : List (Nat × Event)} (h : Serves t log u) :
    u.size = t.size := by
  induction h with
  | refl => rfl
  | step _ _ _ ih => rw [ih, size_after]

/-- A request that is served now instead of later has the same answer, and the others can still
be served as before. -/
theorem Serves.advance {t u : Traffic} {log : List (Nat × Event)}
    (h : Serves t log u) {rank : Nat} {r : Request} {a b : r.Answer} {es : List Event}
    (he : eventsOf rank log = ⟨r, b⟩ :: es) (hreply : t.reply rank r = some a) :
    a = b ∧ ∃ log', Serves (t.after rank r) log' u ∧
      ∀ k, eventsOf k log = eventsOf k ((rank, ⟨r, a⟩) :: log') := by
  induction h with
  | refl => cases he
  | @step t u other e log hrank hother rest ih =>
    by_cases hne : other = rank
    · subst hne
      rw [eventsOf_cons_self] at he
      cases he
      have hab : a = b := Option.some.inj (hreply.symm.trans hother)
      subst hab
      exact ⟨rfl, log, rest, fun _ => rfl⟩
    · rw [eventsOf_cons_of_ne hne] at he
      have hready := reply_after (Ne.symm hne) e.request hreply
      obtain ⟨hab, log', hserves, hevents⟩ := ih he hready
      have hcomm :=
        after_comm hne (Option.isSome_of_eq_some hother) (Option.isSome_of_eq_some hreply)
      refine ⟨hab, (other, e) :: log', .step ?_ (reply_after hne r hother) ?_, fun k => ?_⟩
      · simpa only [size_after] using hrank
      · rwa [← hcomm]
      · simp only [eventsOf_cons, hevents k]
        split <;> split <;> simp_all

theorem queue_after_of_ne (t : Traffic) {rank : Nat} (r : Request) {c : Channel}
    (hsource : c.source ≠ rank) (hdest : c.dest ≠ rank) :
    (t.after rank r).queue c = t.queue c := by
  have hne {d : Channel} (hd : d.source = rank ∨ d.dest = rank) : c ≠ d := by
    rintro rfl
    exact hd.elim hsource hdest
  cases r with
  | post peer tag payload => exact Function.update_of_ne (hne (.inl rfl)) _ _
  | receive source tag => exact t.queue_pop_of_ne (hne (.inr rfl))
  | wait | probe | queued => rfl

/-- There comes a time when the first request of a rank can be answered. Until then nothing is
put on the way to it by those who have nothing left to do. -/
theorem Serves.reply_of_first {t u : Traffic} {log : List (Nat × Event)} (h : Serves t log u)
    {rank : Nat} {r : Request} {a : r.Answer} {es : List Event}
    (he : eventsOf rank log = ⟨r, a⟩ :: es) :
    ∃ t' : Traffic, t'.size = t.size ∧ (t'.reply rank r).isSome ∧
      ∀ c : Channel, c.dest = rank → eventsOf c.source log = [] → t'.queue c = t.queue c := by
  induction h with
  | refl => cases he
  | @step t u other e log hrank hother rest ih =>
    by_cases hne : other = rank
    · subst hne
      rw [eventsOf_cons_self] at he
      cases he
      exact ⟨t, rfl, Option.isSome_of_eq_some hother, fun _ _ _ => rfl⟩
    · rw [eventsOf_cons_of_ne hne] at he
      obtain ⟨t', hsize, hready, hqueue⟩ := ih he
      refine ⟨t', hsize.trans (size_after ..), hready, fun c hc hnone => ?_⟩
      rw [eventsOf_cons] at hnone
      split at hnone
      next => cases hnone
      next hsource =>
        rw [hqueue c hc hnone,
          queue_after_of_ne t e.request (Ne.symm hsource) fun h => hne (h ▸ hc)]

theorem conserve_step {t : Traffic} {rank : Nat} {e : Event}
    (h : t.reply rank e.request = some e.answer) (c : Channel) :
    t.queue c ++ (if rank = c.source then (e.posted c).toList else []) =
      (if rank = c.dest then (e.taken c).toList else []) ++
      (t.after rank e.request).queue c := by
  obtain ⟨r, a⟩ := e
  obtain ⟨source, dest, tag⟩ := c
  cases r with
  | post peer tag' payload =>
    by_cases hc : (⟨source, dest, tag⟩ : Channel) = ⟨rank, peer, tag'⟩
    · cases hc
      simp [Event.posted, Event.taken, after, push]
    · have hno : ¬(rank = source ∧ peer = dest ∧ tag' = tag) := by
        rintro ⟨rfl, rfl, rfl⟩
        exact hc rfl
      simp only [Event.posted, Event.taken, after, push, Function.update_of_ne hc]
      grind
  | receive source' tag' =>
    obtain ⟨m, hm, rfl⟩ := Option.map_eq_some_iff.mp h
    by_cases hc : (⟨source, dest, tag⟩ : Channel) = ⟨source', rank, tag'⟩
    · cases hc
      obtain ⟨ms, hms⟩ := List.head?_eq_some_iff.mp hm
      simp [Event.posted, Event.taken, after, pop, hms]
    · have hno : ¬(rank = dest ∧ source' = source ∧ tag' = tag) := by
        rintro ⟨rfl, rfl, rfl⟩
        exact hc rfl
      simp only [Event.posted, Event.taken, after, pop, Function.update_of_ne hc]
      grind
  | wait | probe | queued => simp [Event.posted, Event.taken, after]

/-- A channel is a queue: what was in it and what has been posted to it is what has been taken
from it and what is still in it, in this order. -/
theorem Serves.conserve {t u : Traffic} {log : List (Nat × Event)} (h : Serves t log u)
    (c : Channel) : t.queue c ++ posted c (eventsOf c.source log) =
      taken c (eventsOf c.dest log) ++ u.queue c := by
  induction h with
  | refl => simp
  | @step t u rank e log hrank hreply rest ih =>
    rw [posted_eventsOf_cons, taken_eventsOf_cons, List.append_assoc, ← ih, ← List.append_assoc,
      ← List.append_assoc, conserve_step hreply c]

end Traffic

end HaloIndex
