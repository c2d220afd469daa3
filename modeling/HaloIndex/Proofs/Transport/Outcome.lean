import HaloIndex.Proofs.Transport.Interleaving
import HaloIndex.Transport.Exchange

namespace HaloIndex

variable {α β : Type}

/-- However the requests are answered, the outcome is like this. -/
def Program.Always (P : α → Prop) : Program α → Prop
  | .done value => P value
  | .ask _ next => ∀ answer, (next answer).Always P

theorem Program.Always.bind {P : α → Prop} {Q : β → Prop} {p : Program α} (h : p.Always P)
    {f : α → Program β} (hf : ∀ a, P a → (f a).Always Q) : (p >>= f).Always Q := by
  induction p with
  | done value => exact hf value h
  | ask request next ih =>
    intro answer
    exact ih answer (h answer)

theorem Program.always_of_forall {P : α → Prop} (h : ∀ a, P a) (p : Program α) : p.Always P := by
  induction p with
  | done value => exact h value
  | ask request next ih => exact fun answer => ih answer

theorem Program.Always.mono {P Q : α → Prop} {p : Program α} (h : p.Always P)
    (himp : ∀ a, P a → Q a) :
    p.Always Q := by
  induction p with
  | done value => exact himp value h
  | ask request next ih => exact fun answer => ih answer (h answer)

def Program.under (answer : (r : Request) → r.Answer) : Program α → α
  | .done value => value
  | .ask request next => (next (answer request)).under answer

theorem Program.path_under (answer : (r : Request) → r.Answer) (p : Program α) :
    ∃ es, p.Path es (.done (p.under answer)) ∧ ∀ e ∈ es, e.answer = answer e.request := by
  induction p with
  | done value => exact ⟨[], .refl _, nofun⟩
  | ask request next ih =>
    obtain ⟨es, hpath, hall⟩ := ih (answer request)
    refine ⟨⟨request, answer request⟩ :: es, .ask hpath, fun e he => ?_⟩
    rcases List.mem_cons.mp he with rfl | he
    · rfl
    · exact hall e he

theorem Program.under_bind {β : Type} (answer : (r : Request) → r.Answer) (p : Program α)
    (f : α → Program β) : (p >>= f).under answer = (f (p.under answer)).under answer := by
  induction p with
  | done value => rfl
  | ask request next ih => exact ih (answer request)

namespace Pool

variable {rank : Nat} {P : α → Prop}

theorem always_of_step {p q : Pool α} (h : ∀ t ∈ p.tasks, t.rank = rank → t.program.Always P)
    (hs : Step p q) : ∀ t ∈ q.tasks, t.rank = rank → t.program.Always P := by
  obtain ⟨label, ⟨hperform⟩⟩ := step_iff_does.mp hs
  intro t ht hrank
  rcases List.mem_append.mp ht with ht | ht
  · exact h t (List.mem_append_left _ ht) hrank
  · rcases List.mem_cons.mp ht with rfl | ht
    · exact h _ (List.mem_append_right _ (List.mem_cons_self ..)) hrank _
    · exact h t (List.mem_append_right _ (List.mem_cons_of_mem _ ht)) hrank

theorem always_of_reaches {n : Network} {f : Nat → Program α}
    (h : (f rank).Always P) {q : Pool α} (hr : Relation.ReflTransGen Step (ofRanks n f) q) :
    ∀ t ∈ q.tasks, t.rank = rank → t.program.Always P := by
  induction hr with
  | refl =>
    intro t ht hrank
    obtain ⟨k, -, rfl⟩ := List.mem_map.mp ht
    obtain rfl : k = rank := hrank
    exact h
  | tail _ hs ih => exact always_of_step ih hs

theorem ranks_of_reaches {p q : Pool α} (hr : Relation.ReflTransGen Step p q) :
    q.tasks.map Task.rank = p.tasks.map Task.rank := by
  induction hr with
  | refl => rfl
  | tail _ hs ih =>
    obtain ⟨label, ⟨hperform⟩⟩ := step_iff_does.mp hs
    rw [← ih, List.map_append, List.map_append, List.map_cons, List.map_cons]

theorem exists_task {n : Network} {f : Nat → Program α} (hrank : rank < n.size) {q : Pool α}
    (hq : Relation.ReflTransGen Step (ofRanks n f) q) : ∃ t ∈ q.tasks, t.rank = rank := by
  rw [← List.mem_map, ranks_of_reaches hq, ofRanks, List.map_map, List.mem_map]
  exact ⟨rank, List.mem_range.mpr hrank, rfl⟩

/-- Once all ranks have ended like this, each of them has also ended like everything its program
promises. -/
theorem exists_ended {n : Network} {f : Nat → Program α} (hrank : rank < n.size)
    (h : (f rank).Always P) {q : Pool α} (hq : Relation.ReflTransGen Step (ofRanks n f) q)
    {ended : α → Prop} (hdone : ∀ t ∈ q.tasks, ∃ value, t.program = .done value ∧ ended value) :
    ∃ value, P value ∧ ended value := by
  obtain ⟨t, ht, rfl⟩ := exists_task hrank hq
  obtain ⟨value, hvalue, hended⟩ := hdone t ht
  have halways := always_of_reaches h hq t ht rfl
  rw [hvalue] at halways
  exact ⟨value, halways, hended⟩

theorem ended_of_mem_results {p : Pool α} {ended : α → Prop}
    (hdone : ∀ t ∈ p.tasks, ∃ value, t.program = .done value ∧ ended value) {value : α}
    (h : value ∈ p.results) : ended value := by
  obtain ⟨t, ht, hresult⟩ := List.mem_filterMap.mp h
  obtain ⟨value', hvalue, hended⟩ := hdone t ht
  rw [Task.result?, hvalue] at hresult
  exact Option.some.inj hresult ▸ hended

theorem not_step_of_done {p : Pool α} (h : ∀ t ∈ p.tasks, ∃ value, t.program = .done value) :
    ¬∃ q, Step p q := by
  rintro ⟨q, hs⟩
  obtain ⟨label, ⟨hperform⟩⟩ := step_iff_does.mp hs
  obtain ⟨value, hvalue⟩ := h _ (List.mem_append_right _ (List.mem_cons_self ..))
  cases hvalue

end Pool

namespace Exchange

variable {tag : Tag} {outgoing : List (Nat × Except Fault (List UInt8))}

theorem postAll_stops {peer : Nat} {f : Fault} (h : (peer, .error f) ∈ outgoing) :
    (postAll tag outgoing).Always fun r => r.2 ≠ .ok () := by
  induction outgoing with
  | nil => cases h
  | cons first rest ih =>
    obtain ⟨other, message⟩ := first
    cases message with
    | error f => exact nofun
    | ok payload =>
      have hrest : (peer, .error f) ∈ rest := by
        rcases List.mem_cons.mp h with he | hin
        · cases he
        · exact hin
      intro answer
      cases answer with
      | error f => exact nofun
      | ok handle => exact (ih hrest).bind fun _ hposted => hposted

theorem waitAll_stops (handles : List Handle) {outcome : Except Fault Unit}
    (h : outcome ≠ .ok ()) :
    (waitAll handles outcome).Always (· ≠ .ok ()) := by
  induction handles generalizing outcome with
  | nil => exact h
  | cons handle rest ih =>
    intro waited
    apply ih
    cases outcome with
    | error f => exact nofun
    | ok => exact absurd rfl h

theorem round_stops {σ : Type} {peer : Nat} {f : Fault} (h : (peer, .error f) ∈ outgoing)
    (take : Nat → σ → Program (Except Fault Unit × σ)) (state : σ) :
    (round tag outgoing take state).Always fun r => r.1 ≠ .ok () := by
  apply (postAll_stops h).bind
  intro posted hposted
  obtain ⟨handles, outcome⟩ := posted
  cases outcome with
  | ok => exact absurd rfl hposted
  | error f =>
    have hfailed : (.error f : Except Fault Unit) ≠ .ok () := nofun
    exact (waitAll_stops handles hfailed).bind fun _ hwaited => hwaited

end Exchange

def Answered (f : Fault) (es : List Event) : Prop := ∃ e ∈ es, e.answer = .error f

theorem Answered.cons {f : Fault} {es : List Event} (h : Answered f es) (e : Event) :
    Answered f (e :: es) := by
  obtain ⟨e', he, hanswer⟩ := h
  exact ⟨e', List.mem_cons_of_mem _ he, hanswer⟩

theorem answered_append {f : Fault} {es fs : List Event} :
    Answered f (es ++ fs) ↔ Answered f es ∨ Answered f fs := by
  simp only [Answered, List.mem_append, or_and_right, exists_or]

/-- However the requests are answered, the state stays like this, and the failure is one of these
faults or one that a request was answered with. -/
def Program.Keeps {σ : Type} (inv : σ → Prop) (own : Fault → Prop)
    (p : Program (Except Fault Unit × σ)) : Prop :=
  ∀ es r, p.Path es (.done r) → inv r.2 ∧ ∀ f, r.1 = .error f → own f ∨ Answered f es

namespace Exchange

section Faults

variable {tag : Tag} {own : Fault → Prop} {es : List Event} {f : Fault}

theorem postAll_fails {outgoing : List (Nat × Except Fault (List UInt8))}
    (h : ∀ e ∈ outgoing, ∀ f, e.2 = .error f → own f) {r : List Handle × Except Fault Unit}
    (hpath : (postAll tag outgoing).Path es (.done r)) (hf : r.2 = .error f) :
    own f ∨ Answered f es := by
  induction outgoing generalizing es r with
  | nil =>
    obtain ⟨-, he⟩ := hpath.of_done
    cases he
    cases hf
  | cons first rest ih =>
    obtain ⟨peer, message⟩ := first
    cases message with
    | error g =>
      obtain ⟨-, he⟩ := hpath.of_done
      cases he
      cases hf
      exact .inl (h _ (List.mem_cons_self ..) f rfl)
    | ok payload =>
      obtain ⟨answer, more, rfl, hmore⟩ := hpath.of_ask
      cases answer with
      | error g =>
        obtain ⟨-, he⟩ := hmore.of_done
        cases he
        cases hf
        exact .inr ⟨_, List.mem_cons_self .., rfl⟩
      | ok handle =>
        obtain ⟨posted, fs, gs, rfl, hfirst, hlast⟩ :=
          Program.Path.of_bind (p := postAll tag rest) hmore
        obtain ⟨rfl, he⟩ := hlast.of_done
        cases he
        rw [List.append_nil]
        have hrest := ih (fun e he => h e (List.mem_cons_of_mem _ he)) hfirst hf
        exact hrest.imp_right fun hfault => hfault.cons _

theorem waitAll_fails {handles : List Handle} {outcome r : Except Fault Unit}
    (hpath : (waitAll handles outcome).Path es (.done r)) (hf : r = .error f) :
    outcome = .error f ∨ Answered f es := by
  induction handles generalizing outcome es with
  | nil =>
    obtain ⟨-, he⟩ := hpath.of_done
    cases he
    exact .inl hf
  | cons handle rest ih =>
    obtain ⟨waited, more, rfl, hmore⟩ := hpath.of_ask
    rcases ih hmore with hbefore | hfault
    · cases outcome with
      | error g => exact .inl hbefore
      | ok => exact .inr ⟨_, List.mem_cons_self .., hbefore⟩
    · exact .inr (hfault.cons _)

variable {σ : Type} {inv : σ → Prop} {take : Nat → σ → Program (Except Fault Unit × σ)}

theorem takeAll_keeps (h : ∀ peer s, inv s → (take peer s).Keeps inv own)
    (peers : List Nat) {s : σ} (hs : inv s) : (takeAll take peers s).Keeps inv own := by
  induction peers generalizing s with
  | nil =>
    intro es r hpath
    obtain ⟨-, he⟩ := hpath.of_done
    cases he
    exact ⟨hs, nofun⟩
  | cons peer peers ih =>
    intro es r hpath
    obtain ⟨⟨outcome, s'⟩, fs, gs, rfl, hfirst, hlast⟩ := hpath.of_bind
    obtain ⟨hkeep, hfault⟩ := h peer s hs fs _ hfirst
    cases outcome with
    | error g =>
      obtain ⟨rfl, he⟩ := hlast.of_done
      cases he
      rw [List.append_nil]
      exact ⟨hkeep, hfault⟩
    | ok =>
      obtain ⟨hend, hlater⟩ := ih hkeep gs r hlast
      refine ⟨hend, fun f hf => (hlater f hf).imp_right fun hin => ?_⟩
      exact answered_append.mpr (.inr hin)

/-- A round fails only for a message that could not be packed, for one that could not be taken,
or with an answer that it got. -/
theorem round_keeps {outgoing : List (Nat × Except Fault (List UInt8))}
    (hpack : ∀ e ∈ outgoing, ∀ f, e.2 = .error f → own f)
    (htake : ∀ peer s, inv s → (take peer s).Keeps inv own) {s : σ} (hs : inv s) :
    (round tag outgoing take s).Keeps inv own := by
  intro es r hpath
  obtain ⟨⟨handles, posted⟩, fs, gs, rfl, hposts, hpath⟩ := hpath.of_bind
  have hmiddle : ∃ taken s' ts us, gs = ts ++ us ∧ inv s' ∧
      (∀ f, taken = .error f → own f ∨ Answered f (fs ++ ts)) ∧
      (waitAll handles taken >>= fun outcome => pure (outcome, s')).Path us (.done r) := by
    cases posted with
    | error g =>
      refine ⟨.error g, s, [], gs, rfl, hs, fun f hf => ?_, hpath⟩
      rw [List.append_nil]
      exact postAll_fails hpack hposts hf
    | ok =>
      obtain ⟨⟨taken, s'⟩, ts, us, rfl, htakes, hpath⟩ := Program.Path.of_bind hpath
      obtain ⟨hkeep, hfault⟩ := takeAll_keeps htake _ hs ts _ htakes
      refine ⟨taken, s', ts, us, rfl, hkeep, fun f hf => ?_, hpath⟩
      exact (hfault f hf).imp_right fun hin => answered_append.mpr (.inr hin)
  obtain ⟨taken, s', ts, us, rfl, hkeep, hfault, hpath⟩ := hmiddle
  obtain ⟨outcome, ws, vs, rfl, hwaits, hpath⟩ := hpath.of_bind
  obtain ⟨rfl, he⟩ := hpath.of_done
  cases he
  refine ⟨hkeep, fun f hf => ?_⟩
  rw [List.append_nil, ← List.append_assoc, answered_append]
  rcases waitAll_fails hwaits hf with hbefore | hwaited
  · exact (hfault f hbefore).imp_right .inl
  · exact .inr (.inr hwaited)

end Faults

end Exchange

end HaloIndex
