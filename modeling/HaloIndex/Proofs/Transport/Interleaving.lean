import HaloIndex.Transport.Schedule
import HaloIndex.Proofs.Transport.Network
import Mathlib.Logic.Relation

namespace HaloIndex

variable {α β : Type}

namespace Program

/-- A program goes on through these events. -/
inductive Path : Program α → List Event → Program α → Prop where
  | refl (p : Program α) : Path p [] p
  | ask {r : Request} {next : r.Answer → Program α} {a : r.Answer} {es : List Event}
      {q : Program α} (h : Path (next a) es q) : Path (.ask r next) (⟨r, a⟩ :: es) q

theorem Path.trans {p q s : Program α} {es fs : List Event} (h : Path p es q)
    (h' : Path q fs s) :
    Path p (es ++ fs) s := by
  induction h with
  | refl => exact h'
  | ask _ ih => exact .ask (ih h')

theorem Path.bind {p : Program α} {es : List Event} {q : Program α} (h : Path p es q)
    (f : α → Program β) : Path (p >>= f) es (q >>= f) := by
  induction h with
  | refl => exact .refl _
  | ask _ ih => exact .ask ih

theorem Path.andThen {p : Program α} {a : α} {f : α → Program β} {es fs : List Event}
    {q : Program β} (h : Path p es (.done a)) (h' : Path (f a) fs q) :
    Path (p >>= f) (es ++ fs) q :=
  (h.bind f).trans h'

theorem Path.of_done {a : α} {es : List Event} {q : Program α} (h : Path (.done a) es q) :
    es = [] ∧ q = .done a := by
  cases h
  exact ⟨rfl, rfl⟩

theorem Path.of_ask {r : Request} {next : r.Answer → Program α} {es : List Event} {v : α}
    (h : Path (.ask r next) es (.done v)) :
    ∃ a fs, es = ⟨r, a⟩ :: fs ∧ Path (next a) fs (.done v) := by
  cases h with
  | ask h => exact ⟨_, _, rfl, h⟩

theorem Path.of_bind {p : Program α} {f : α → Program β} {es : List Event} {b : β}
    (h : Path (p >>= f) es (.done b)) :
    ∃ a fs gs, es = fs ++ gs ∧ Path p fs (.done a) ∧ Path (f a) gs (.done b) := by
  induction p generalizing es with
  | done a => exact ⟨a, [], es, rfl, .refl _, h⟩
  | ask r next ih =>
    obtain ⟨answer, es, rfl, hrest⟩ := h.of_ask
    obtain ⟨a, fs, gs, rfl, hfirst, hlast⟩ := ih answer hrest
    exact ⟨a, ⟨r, answer⟩ :: fs, gs, rfl, .ask hfirst, hlast⟩

theorem Path.of_nil {p q : Program α} (h : Path p [] q) : p = q := by
  cases h
  rfl

theorem Path.of_cons {p q : Program α} {e : Event} {es : List Event} (h : Path p (e :: es) q) :
    ∃ next, p = .ask e.request next ∧ Path (next e.answer) es q := by
  cases h with
  | ask h => exact ⟨_, rfl, h⟩

end Program

namespace Pool

def ofRanks (n : Network) (f : Nat → Program α) : Pool α :=
  ⟨n, (List.range n.size).map fun rank => ⟨rank, f rank⟩⟩

def steps : Nat → Pool α → Pool α
  | 0, p => p
  | n + 1, p => (p.next.map (steps n)).getD p

/-- A run can be counted out: it ends where there is no further step. -/
theorem run_eq_steps {p : Pool α} (n : Nat) (h : (p.steps n).next.isSome = false) :
    p.run = p.steps n := by
  induction n generalizing p with
  | zero =>
    rw [run]
    split
    next q hq =>
      rw [steps, hq] at h
      cases h
    next => rfl
  | succ n ih =>
    rw [run]
    split
    next q hq =>
      rw [steps, hq] at h ⊢
      exact ih h
    next hnone => rw [steps, hnone, Option.map_none, Option.getD_none]

/-- A step, with the rank that took it and what it asked for. -/
inductive Does : Pool α → Nat × Event → Pool α → Prop where
  | serve {n n' : Network} {before after : List (Task α)} {rank : Nat} {r : Request}
      {next : r.Answer → Program α} {a : r.Answer} (h : n.perform rank r = some (a, n')) :
      Does ⟨n, before ++ ⟨rank, .ask r next⟩ :: after⟩ (rank, ⟨r, a⟩)
        ⟨n', before ++ ⟨rank, next a⟩ :: after⟩

theorem step_iff_does {p q : Pool α} : Step p q ↔ ∃ label, Does p label q := by
  constructor
  · rintro ⟨h⟩
    next t t' =>
      obtain ⟨rank, program⟩ := t
      cases program with
      | done => cases h
      | ask r next =>
        obtain ⟨⟨a, n'⟩, ha, he⟩ := Option.map_eq_some_iff.mp h
        cases he
        exact ⟨_, .serve ha⟩
  · rintro ⟨_, ⟨h⟩⟩
    exact .serve (by simp only [Task.serve, h, Option.map_some])

/-- An interleaving of the ranks, with all that they did in it. -/
inductive Run : Pool α → List (Nat × Event) → Pool α → Prop where
  | refl (p : Pool α) : Run p [] p
  | step {p q s : Pool α} {label : Nat × Event} {log : List (Nat × Event)} (h : Does p label q)
      (rest : Run q log s) : Run p (label :: log) s

theorem Run.of_append {p s : Pool α} {log more : List (Nat × Event)}
    (h : Run p (log ++ more) s) :
    ∃ q, Run p log q ∧ Run q more s := by
  induction log generalizing p with
  | nil => exact ⟨p, .refl p, h⟩
  | cons label log ih =>
    cases h with
    | step hd hr =>
      obtain ⟨q, hfirst, hlast⟩ := ih hr
      exact ⟨q, .step hd hfirst, hlast⟩

theorem exists_run {p q : Pool α} (h : Relation.ReflTransGen Step p q) : ∃ log, Run p log q := by
  induction h using Relation.ReflTransGen.head_induction_on with
  | refl => exact ⟨[], .refl _⟩
  | head hs _ ih =>
    obtain ⟨label, hd⟩ := step_iff_does.mp hs
    obtain ⟨log, hr⟩ := ih
    exact ⟨label :: log, .step hd hr⟩

theorem Run.reaches {p q : Pool α} {log : List (Nat × Event)} (h : Run p log q) :
    Relation.ReflTransGen Step p q := by
  induction h with
  | refl => exact .refl
  | step hd _ ih => exact .head (step_iff_does.mpr ⟨_, hd⟩) ih

theorem tasks_update (size : Nat) (f : Nat → Program α) {rank : Nat} (p : Program α) :
    (List.range size).map (fun k => (⟨k, Function.update f rank p k⟩ : Task α)) =
      ((List.range size).map fun k => ⟨k, f k⟩).set rank ⟨rank, p⟩ := by
  apply List.ext_getElem?
  intro i
  rw [List.getElem?_set]
  by_cases hi : i < size
  · by_cases hr : rank = i
    · subst hr
      simp [hi]
    · simp [hi, hr, Function.update_of_ne (Ne.symm hr)]
  · by_cases hr : rank = i <;> simp [hr, hi]

theorem does_ofRanks {n n' : Network} {f : Nat → Program α} {rank : Nat} (hrank : rank < n.size)
    {r : Request} {next : r.Answer → Program α} {a : r.Answer} (hf : f rank = .ask r next)
    (h : n.perform rank r = some (a, n')) (hsize : n'.size = n.size) :
    Does (ofRanks n f) (rank, ⟨r, a⟩) (ofRanks n' (Function.update f rank (next a))) := by
  have hlength : rank < ((List.range n.size).map fun k => (⟨k, f k⟩ : Task α)).length := by
    simpa using hrank
  have hbefore := (List.set_eq_take_append_cons_drop (a := (⟨rank, f rank⟩ : Task α)) ..).trans
    (if_pos hlength)
  have hafter := (List.set_eq_take_append_cons_drop (a := (⟨rank, next a⟩ : Task α)) ..).trans
    (if_pos hlength)
  rw [← tasks_update n.size f, Function.update_eq_self] at hbefore
  rw [← tasks_update n.size f] at hafter
  rw [ofRanks, ofRanks, hsize, hbefore, hafter, hf]
  exact .serve h

theorem Does.of_ofRanks {n : Network} {f : Nat → Program α} {label : Nat × Event} {q : Pool α}
    (h : Does (ofRanks n f) label q) : ∃ rank < n.size, ∃ r next a n', f rank = .ask r next ∧
      n.perform rank r = some (a, n') ∧ label = (rank, ⟨r, a⟩) ∧
      (n'.size = n.size → q = ofRanks n' (Function.update f rank (next a))) := by
  generalize hp : ofRanks n f = p at h
  obtain @⟨m, n', before, after, rank, r, next, a, h⟩ := h
  obtain ⟨rfl, htasks⟩ := Pool.mk.inj hp
  have hat : ((List.range n.size).map fun k => (⟨k, f k⟩ : Task α))[before.length]? =
      some ⟨rank, .ask r next⟩ := by
    rw [htasks]
    simp
  rw [List.getElem?_map] at hat
  obtain ⟨k, hk, he⟩ := Option.map_eq_some_iff.mp hat
  obtain ⟨hlt, rfl⟩ := List.getElem?_eq_some_iff.mp hk
  rw [List.getElem_range] at he
  obtain ⟨rfl, hf⟩ := Task.mk.inj he
  refine ⟨_, by simpa using hlt, r, next, a, n', hf, h, rfl, fun hsize => ?_⟩
  rw [ofRanks, hsize, tasks_update, htasks]
  simp

theorem advances_append {rank : Nat} {p q : Program α} (h : Program.Continues q p)
    (before after : List (Task α)) :
    Advances (before ++ ⟨rank, q⟩ :: after) (before ++ ⟨rank, p⟩ :: after) := by
  induction before with
  | nil => exact .here h
  | cons t before ih => exact .there ih

theorem step_wf : WellFounded fun q p : Pool α => Step p q := by
  refine Subrelation.wf (fun {q p} h => ?_) (InvImage.wf Pool.tasks advances_wf)
  obtain ⟨label, ⟨h⟩⟩ := step_iff_does.mp h
  exact advances_append ⟨_, _, _⟩ _ _

/-- However the ranks are interleaved, no run goes on for ever, and one that cannot go on has
ended as described. -/
structure Inevitable (p : Pool α) (final : Pool α → Prop) : Prop where
  ends : Acc (fun q p => Step p q) p
  stops : ∀ q, Relation.ReflTransGen Step p q → (∃ s, Step q s) ∨ final q

theorem Inevitable.mono {p : Pool α} {final final' : Pool α → Prop} (h : Inevitable p final)
    (himp : ∀ q, final q → final' q) : Inevitable p final' :=
  ⟨h.ends, fun q hq => (h.stops q hq).imp_right (himp q)⟩

/-- However the ranks are interleaved, no run goes on for ever, and one that cannot go on is as
described, with all that was done in it. -/
structure Settles (p : Pool α) (final : List (Nat × Event) → Pool α → Prop) : Prop where
  ends : Acc (fun q p => Step p q) p
  stops : ∀ log q, Run p log q → (∃ s, Step q s) ∨ final log q

theorem Settles.mono {p : Pool α} {final final' : List (Nat × Event) → Pool α → Prop}
    (h : p.Settles final) (himp : ∀ log q, final log q → final' log q) : p.Settles final' :=
  ⟨h.ends, fun log q hr => (h.stops log q hr).imp_right (himp log q)⟩

theorem Settles.inevitable {p : Pool α} {final : List (Nat × Event) → Pool α → Prop}
    (h : p.Settles final) :
    p.Inevitable fun q => ∃ log, final log q := by
  refine ⟨h.ends, fun q hq => ?_⟩
  obtain ⟨log, hr⟩ := exists_run hq
  exact (h.stops log q hr).imp_right fun hfinal => ⟨log, hfinal⟩

end Pool

/-- Along this log every rank comes to its end, with these values and this traffic left. -/
structure Foretold (n : Network) (f : Nat → Program α) (log : List (Nat × Event)) (t : Traffic)
    (v : Nat → α) : Prop where
  served : n.traffic.Serves log t
  paths : ∀ rank < n.size, (f rank).Path (eventsOf rank log) (.done (v rank))

namespace Foretold

open Pool

variable {n : Network} {f : Nat → Program α} {log : List (Nat × Event)} {t : Traffic}
  {v : Nat → α}

theorem of_reply (h : Foretold n f log t v) {rank : Nat} (hrank : rank < n.size) {r : Request}
    {next : r.Answer → Program α} (hf : f rank = .ask r next) {a : r.Answer}
    (ha : n.traffic.reply rank r = some a) {n' : Network}
    (htraffic : n'.traffic = n.traffic.after rank r) :
    ∃ log', Foretold n' (Function.update f rank (next a)) log' t v ∧
      ∀ k, eventsOf k log = eventsOf k ((rank, ⟨r, a⟩) :: log') := by
  have hpath := h.paths rank hrank
  rw [hf] at hpath
  obtain ⟨b, es, he, hpath⟩ := hpath.of_ask
  obtain ⟨rfl, log', hserved, hevents⟩ := h.served.advance he ha
  have hsize : n'.size = n.size :=
    congrArg Traffic.size htraffic |>.trans (Traffic.size_after ..)
  refine ⟨log', ⟨htraffic ▸ hserved, fun k hk => ?_⟩, hevents⟩
  rw [hsize] at hk
  have hkevents := hevents k
  by_cases hkr : k = rank
  · subst hkr
    rw [eventsOf_cons_self, he, List.cons.injEq] at hkevents
    rw [Function.update_self, ← hkevents.2]
    exact hpath
  · rw [eventsOf_cons_of_ne (Ne.symm hkr)] at hkevents
    rw [Function.update_of_ne hkr, ← hkevents]
    exact h.paths k hk

theorem of_does (h : Foretold n f log t v) {label : Nat × Event} {q : Pool α}
    (hd : Does (ofRanks n f) label q) : ∃ n' f' log', q = ofRanks n' f' ∧ n'.size = n.size ∧
      Foretold n' f' log' t v ∧ ∀ k, eventsOf k log = eventsOf k (label :: log') := by
  obtain ⟨rank, hrank, r, next, a, n', hf, hperform, rfl, hq⟩ := hd.of_ofRanks
  have hpath := h.paths rank hrank
  rw [hf] at hpath
  obtain ⟨b, es, he, -⟩ := hpath.of_ask
  -- A probe of any sender could be answered in different ways, but none occurs in the log.
  obtain ⟨t', ht', hlater, -⟩ := h.served.reply_of_first he
  obtain ⟨a', ha'⟩ := Option.isSome_iff_exists.mp
    (Network.reply_isSome_of_perform hperform ht' hlater)
  obtain ⟨n'', hperform', htraffic⟩ := Network.perform_of_reply hrank ha'
  obtain ⟨rfl, rfl⟩ := Prod.mk.inj (Option.some.inj (hperform.symm.trans hperform'))
  obtain ⟨log', hlog', hevents⟩ := h.of_reply hrank hf ha' htraffic
  have hsize : n'.size = n.size :=
    congrArg Traffic.size htraffic |>.trans (Traffic.size_after ..)
  exact ⟨n', _, log', hq hsize, hsize, hlog', hevents⟩

theorem step_or_done (h : Foretold n f log t v) : (∃ q, Step (ofRanks n f) q) ∨
    (∀ rank < n.size, f rank = .done (v rank)) ∧ n.traffic = t := by
  obtain ⟨hserved, hpaths⟩ := h
  cases hserved with
  | refl => exact .inr ⟨fun rank hrank => (hpaths rank hrank).of_nil, rfl⟩
  | @step _ _ rank e log hrank hreply rest =>
    have hpath := hpaths rank hrank
    rw [eventsOf_cons_self] at hpath
    obtain ⟨next, hf, -⟩ := hpath.of_cons
    obtain ⟨n', hperform, htraffic⟩ := Network.perform_of_reply hrank hreply
    have hsize : n'.size = n.size :=
      (congrArg Traffic.size htraffic).trans (Traffic.size_after ..)
    exact .inl ⟨_, step_iff_does.mpr ⟨_, does_ofRanks hrank hf hperform hsize⟩⟩

/-- Whatever has been done so far is a beginning of what was foretold. -/
theorem of_run (h : Foretold n f log t v) {done : List (Nat × Event)} {q : Pool α}
    (hr : Run (ofRanks n f) done q) : ∃ n' f' log', q = ofRanks n' f' ∧ n'.size = n.size ∧
      Foretold n' f' log' t v ∧ ∀ k, eventsOf k log = eventsOf k done ++ eventsOf k log' := by
  generalize hp : ofRanks n f = p at hr
  induction hr generalizing n f log with
  | refl => exact ⟨n, f, log, hp.symm, rfl, h, fun _ => rfl⟩
  | @step p q s label done hd _ ih =>
    subst hp
    obtain ⟨n', f', log', rfl, hsize, h', hevents⟩ := h.of_does hd
    obtain ⟨n'', f'', log'', rfl, hsize', h'', hevents'⟩ := ih h' rfl
    refine ⟨n'', f'', log'', rfl, hsize'.trans hsize, h'', fun k => ?_⟩
    rw [hevents k, ← List.singleton_append, eventsOf_append, hevents' k, ← List.append_assoc,
      ← eventsOf_append, List.singleton_append]

/-- At any time, what was posted to a channel is what was taken from it and what is queued. -/
theorem conserve_run (h : Foretold n f log t v) {done : List (Nat × Event)} {q : Pool α}
    (hr : Run (ofRanks n f) done q) (c : Channel) :
    n.traffic.queue c ++ posted c (eventsOf c.source done) =
      taken c (eventsOf c.dest done) ++ q.network.traffic.queue c := by
  obtain ⟨n', f', log', rfl, -, h', hevents⟩ := h.of_run hr
  have hall := h.served.conserve c
  have hlater := h'.served.conserve c
  rw [hevents, hevents, posted_append, taken_append, ← List.append_assoc,
    List.append_assoc (taken ..),
    ← hlater, ← List.append_assoc, List.append_cancel_right_eq] at hall
  exact hall

theorem results_ofRanks {n : Network} {f : Nat → Program α}
    (h : ∀ rank < n.size, f rank = .done (v rank)) :
    (ofRanks n f).results = (List.range n.size).map v := by
  have hvalues : (ofRanks n f).results =
      (List.range n.size).filterMap fun rank => (⟨rank, f rank⟩ : Task α).result? :=
    List.filterMap_map
  rw [hvalues, ← List.filterMap_eq_map]
  apply List.filterMap_congr
  intro rank hrank
  rw [Task.result?, h rank (List.mem_range.mp hrank)]
  rfl

theorem settles (h : Foretold n f log t v) : Settles (ofRanks n f) fun done q =>
    q.results = (List.range n.size).map v ∧ q.network.size = n.size ∧ q.network.traffic = t ∧
      ∀ rank < n.size, eventsOf rank done = eventsOf rank log := by
  refine ⟨step_wf.apply _, fun done q hr => ?_⟩
  obtain ⟨n', f', log', rfl, hsize, h', hevents⟩ := h.of_run hr
  refine h'.step_or_done.imp_right fun ⟨hdone, ht⟩ => ⟨?_, hsize, ht, fun rank hrank => ?_⟩
  · rw [results_ofRanks hdone, hsize]
  · have hpath := h'.paths rank (hsize.symm ▸ hrank)
    rw [hdone rank (hsize.symm ▸ hrank)] at hpath
    rw [hevents rank, hpath.of_done.1, List.append_nil]

theorem inevitable (h : Foretold n f log t v) : Inevitable (ofRanks n f) fun q =>
    q.results = (List.range n.size).map v ∧ q.network.size = n.size ∧ q.network.traffic = t :=
  h.settles.inevitable.mono fun _ ⟨_, hresults, hsize, htraffic, _⟩ => ⟨hresults,
    hsize, htraffic⟩

end Foretold

end HaloIndex
