import HaloIndex.Proofs.Transport.Interleaving
import HaloIndex.Transport.Exchange

namespace HaloIndex

variable {α β σ : Type}

/-- The message that came in, if one did. -/
def Event.payload? : Event → Option (List UInt8)
  | ⟨.receive _ _, .ok payload⟩ => some payload
  | _ => none

def payloads (es : List Event) : List (List UInt8) := es.filterMap Event.payload?

@[simp]
theorem payloads_append (es fs : List Event) :
    payloads (es ++ fs) = payloads es ++ payloads fs :=
  List.filterMap_append

theorem Program.Path.cases_talk_bind {x : Talk α} {f : α → Talk β} {es : List Event}
    {outcome : Except Fault β} (h : (x >>= f).run.Path es (.done outcome)) :
    (∃ g, outcome = .error g ∧ x.run.Path es (.done (.error g))) ∨ ∃ a fs gs, es = fs ++ gs ∧
      x.run.Path fs (.done (.ok a)) ∧ (f a).run.Path gs (.done outcome) := by
  obtain ⟨first, fs, gs, rfl, hfirst, hlast⟩ := Program.Path.of_bind (p := x.run) h
  cases first with
  | ok a => exact .inr ⟨a, fs, gs, rfl, hfirst, hlast⟩
  | error g =>
    obtain ⟨rfl, he⟩ := hlast.of_done
    cases he
    rw [List.append_nil]
    exact .inl ⟨g, rfl, hfirst⟩

theorem Program.Path.of_talk_bind {x : Talk α} {f : α → Talk β} {es : List Event} {b : β}
    (h : (x >>= f).run.Path es (.done (.ok b))) : ∃ a fs gs, es = fs ++ gs ∧
      x.run.Path fs (.done (.ok a)) ∧ (f a).run.Path gs (.done (.ok b)) := by
  obtain ⟨g, he, -⟩ | hboth := h.cases_talk_bind
  · cases he
  · exact hboth

theorem Program.Path.of_ofExcept {result : Except Fault α} {es : List Event} {a : α}
    (h : (Talk.ofExcept result).run.Path es (.done (.ok a))) : es = [] ∧ result = .ok a := by
  obtain ⟨rfl, he⟩ := h.of_done
  exact ⟨rfl, (Program.done.inj he).symm⟩

theorem Program.Path.of_lift {p : Program α} {es : List Event} {a : α}
    (h : (ExceptT.lift p : Talk α).run.Path es (.done (.ok a))) : p.Path es (.done a) := by
  obtain ⟨b, fs, gs, rfl, hfirst, hlast⟩ := Program.Path.of_bind
    (f := fun b => (pure (Except.ok b) : Program (Except Fault α))) h
  obtain ⟨rfl, he⟩ := hlast.of_done
  cases he
  rwa [List.append_nil]

theorem Program.Path.of_request {r : Request} {es : List Event} {answer : r.Answer}
    (h : (Program.request r).Path es (.done answer)) : es = [⟨r, answer⟩] := by
  obtain ⟨given, more, rfl, hmore⟩ := h.of_ask
  obtain ⟨rfl, he⟩ := hmore.of_done
  cases he
  rfl

theorem Program.Path.payloads_receive {source : Nat} {tag : Tag} {es : List Event}
    {outcome : Except Fault (List UInt8)}
    (h : (Talk.receive source tag).run.Path es (.done outcome)) :
    payloads es = outcome.toOption.toList := by
  obtain ⟨answer, fs, rfl, hlast⟩ := h.of_ask
  obtain ⟨rfl, he⟩ := hlast.of_done
  cases he
  cases outcome <;> rfl

theorem Program.Path.payloads_send {peer : Nat} {tag : Tag} {bytes : List UInt8}
    {es : List Event} {outcome : Except Fault Unit}
    (h : (Talk.send peer tag bytes).run.Path es (.done outcome)) :
    payloads es = [] := by
  obtain ⟨g, -, hpost⟩ | ⟨handle, fs, gs, rfl, hpost, hwait⟩ := h.cases_talk_bind
  · obtain ⟨answer, more, rfl, hmore⟩ := hpost.of_ask
    obtain ⟨rfl, -⟩ := hmore.of_done
    rfl
  · obtain ⟨answer, more, rfl, hmore⟩ := hpost.of_ask
    obtain ⟨rfl, -⟩ := hmore.of_done
    obtain ⟨answer, more, rfl, hmore⟩ := hwait.of_ask
    obtain ⟨rfl, -⟩ := hmore.of_done
    rfl

namespace Exchange

variable {tag : Tag} {es : List Event}

theorem payloads_postAll {outgoing : List (Nat × Except Fault (List UInt8))}
    {r : List Handle × Except Fault Unit} (h : (postAll tag outgoing).Path es (.done r)) :
    payloads es = [] := by
  induction outgoing generalizing es r with
  | nil =>
    obtain ⟨rfl, -⟩ := h.of_done
    rfl
  | cons first rest ih =>
    obtain ⟨peer, message⟩ := first
    cases message with
    | error =>
      obtain ⟨rfl, -⟩ := h.of_done
      rfl
    | ok =>
      obtain ⟨answer, more, rfl, hmore⟩ := h.of_ask
      cases answer with
      | error =>
        obtain ⟨rfl, -⟩ := hmore.of_done
        rfl
      | ok =>
        obtain ⟨posted, fs, gs, rfl, hfirst, hlast⟩ :=
          Program.Path.of_bind (p := postAll tag rest) hmore
        obtain ⟨rfl, -⟩ := hlast.of_done
        rw [List.append_nil]
        exact (ih hfirst :)

theorem payloads_waitAll {handles : List Handle} {outcome r : Except Fault Unit}
    (h : (waitAll handles outcome).Path es (.done r)) : payloads es = [] := by
  induction handles generalizing outcome es with
  | nil =>
    obtain ⟨rfl, -⟩ := h.of_done
    rfl
  | cons handle rest ih =>
    obtain ⟨waited, more, rfl, hmore⟩ := h.of_ask
    exact (ih hmore :)

theorem ok_of_waitAll {handles : List Handle} {outcome : Except Fault Unit}
    (h : (waitAll handles outcome).Path es (.done (.ok ()))) : outcome = .ok () := by
  induction handles generalizing outcome es with
  | nil =>
    obtain ⟨-, he⟩ := h.of_done
    exact (Program.done.inj he).symm
  | cons handle rest ih =>
    obtain ⟨waited, more, -, hmore⟩ := h.of_ask
    have hboth := ih hmore
    cases outcome with
    | error => cases hboth
    | ok => rfl

/-- From one state to the next, these messages were taken from these peers. -/
inductive Takes (made : Nat → List UInt8 → σ → σ → Prop) :
    List (Nat × List UInt8) → σ → σ → Prop where
  | nil (s : σ) : Takes made [] s s
  | cons {peer : Nat} {payload : List UInt8} {rest : List (Nat × List UInt8)} {s mid s' : σ}
      (h : made peer payload s mid) (hrest : Takes made rest mid s') :
    Takes made ((peer, payload) :: rest) s s'

variable {made : Nat → List UInt8 → σ → σ → Prop}
  {take : Nat → σ → Program (Except Fault Unit × σ)} {s s' : σ}

theorem takeAll_takes (htake : ∀ peer s es s', (take peer s).Path es (.done (.ok (), s')) →
      ∃ payload, payloads es = [payload] ∧ made peer payload s s') {peers : List Nat}
    (h : (takeAll take peers s).Path es (.done (.ok (), s'))) :
    Takes made (peers.zip (payloads es)) s s' := by
  induction peers generalizing es s with
  | nil =>
    obtain ⟨-, he⟩ := h.of_done
    cases he
    exact .nil _
  | cons peer peers ih =>
    obtain ⟨⟨outcome, mid⟩, fs, gs, rfl, hfirst, hlast⟩ := h.of_bind
    cases outcome with
    | error =>
      obtain ⟨-, he⟩ := hlast.of_done
      cases he
    | ok =>
      obtain ⟨payload, hpayload, hmade⟩ := htake peer s fs mid hfirst
      rw [payloads_append, hpayload, List.singleton_append, List.zip_cons_cons]
      exact .cons hmade (ih hlast)

/-- In a round that ends well, one message is taken from each peer, in the order of the peers. -/
theorem round_takes (htake : ∀ peer s es s', (take peer s).Path es (.done (.ok (), s')) →
      ∃ payload, payloads es = [payload] ∧ made peer payload s s')
    {outgoing : List (Nat × Except Fault (List UInt8))}
    (h : (round tag outgoing take s).Path es (.done (.ok (), s'))) :
    Takes made ((outgoing.map (·.1)).zip (payloads es)) s s' := by
  obtain ⟨⟨handles, posted⟩, fs, gs, rfl, hposts, h⟩ := h.of_bind
  cases posted with
  | error fault =>
    obtain ⟨outcome, ws, vs, -, hwaits, h⟩ :=
      Program.Path.of_bind (p := waitAll handles (.error fault))
      (f := fun outcome => pure (outcome, s)) h
    obtain ⟨-, he⟩ := h.of_done
    cases he
    cases ok_of_waitAll hwaits
  | ok =>
    obtain ⟨⟨taken, mid⟩, ts, us, rfl, htakes, h⟩ := Program.Path.of_bind h
    obtain ⟨outcome, ws, vs, rfl, hwaits, h⟩ := Program.Path.of_bind h
    obtain ⟨rfl, he⟩ := h.of_done
    cases he
    cases ok_of_waitAll hwaits
    rw [List.append_nil, payloads_append, payloads_append, payloads_postAll hposts,
      payloads_waitAll hwaits, List.nil_append, List.append_nil]
    exact takeAll_takes htake htakes

end Exchange

end HaloIndex
