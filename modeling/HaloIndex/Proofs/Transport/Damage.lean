import HaloIndex.Proofs.Transport.Delivery
import HaloIndex.Proofs.Transport.Receipt

namespace HaloIndex

variable {α β σ : Type}

def Fault.IsCommunication (f : Fault) : Prop := ∃ rank detail, f = .communication rank detail

def Event.sendFault? : Event → Option Fault
  | ⟨.post .., .error f⟩ => some f
  | ⟨.wait _, .error f⟩ => some f
  | _ => none

/-- Sending fails for reasons of communication only. -/
def PlainSends (es : List Event) : Prop :=
  ∀ e ∈ es, ∀ f, e.sendFault? = some f → f.IsCommunication

theorem plainSends_append {es fs : List Event} :
    PlainSends (es ++ fs) ↔ PlainSends es ∧ PlainSends fs :=
  List.forall_mem_append

def Reports (f : Fault) (outcome : Except Fault α) : Prop :=
  ∃ g, outcome = .error g ∧ (g = f ∨ g.IsCommunication)

/-- If a message came in that is bad for some reason, the outcome reports it. -/
def Noticed (bad : List UInt8 → Fault → Prop) (es : List Event)
    (outcome : Except Fault α) : Prop :=
  PlainSends es → ∀ payload ∈ payloads es, ∀ f, bad payload f → Reports f outcome

namespace Noticed

variable {bad : List UInt8 → Fault → Prop} {es fs : List Event}

theorem of_nothing (h : payloads es = []) (outcome : Except Fault α) :
    Noticed bad es outcome := by
  intro _ payload hpayload
  rw [h] at hpayload
  cases hpayload

theorem of_error {f : Fault} (h : Noticed bad es (.error f : Except Fault α)) :
    Noticed bad es (.error f : Except Fault β) := by
  intro hsends payload hpayload g hbad
  obtain ⟨_, he, hreport⟩ := h hsends payload hpayload g hbad
  cases he
  exact ⟨f, rfl, hreport⟩

theorem map {outcome : Except Fault α} (h : Noticed bad es outcome) (f : α → β) :
    Noticed bad es (outcome.map f) := by
  intro hsends payload hpayload g hbad
  obtain ⟨g', rfl, hreport⟩ := h hsends payload hpayload g hbad
  exact ⟨g', rfl, hreport⟩

theorem append {a : α} {outcome : Except Fault β} (h : Noticed bad es (.ok a : Except Fault α))
    (h' : Noticed bad fs outcome) : Noticed bad (es ++ fs) outcome := by
  intro hsends payload hpayload f hbad
  obtain ⟨hfirst, hsecond⟩ := plainSends_append.mp hsends
  rw [payloads_append] at hpayload
  rcases List.mem_append.mp hpayload with hpayload | hpayload
  · obtain ⟨_, he, -⟩ := h hfirst payload hpayload f hbad
    cases he
  · exact h' hsecond payload hpayload f hbad

end Noticed

namespace Program.Path

variable {es : List Event}

theorem isCommunication_of_send {peer : Nat} {tag : Tag} {bytes : List UInt8} {f : Fault}
    (h : (Talk.send peer tag bytes).run.Path es (.done (.error f))) (hsends : PlainSends es) :
    f.IsCommunication := by
  obtain ⟨g, he, hpost⟩ | ⟨handle, fs, gs, rfl, hpost, hwait⟩ := h.cases_talk_bind
  · cases he
    obtain ⟨answer, more, rfl, hmore⟩ := hpost.of_ask
    obtain ⟨-, he⟩ := hmore.of_done
    cases he
    exact hsends _ (List.mem_cons_self ..) f rfl
  · obtain ⟨answer, more, rfl, hmore⟩ := hwait.of_ask
    obtain ⟨-, he⟩ := hmore.of_done
    cases he
    exact hsends _ (List.mem_append_right _ (List.mem_cons_self ..)) f rfl

end Program.Path

namespace Exchange

variable {bad : List UInt8 → Fault → Prop} {take : Nat → σ → Program (Except Fault Unit × σ)}
  {es : List Event}

theorem error_of_waitAll {handles : List Handle} {f : Fault} {outcome : Except Fault Unit}
    (h : (waitAll handles (.error f)).Path es (.done outcome)) : outcome = .error f := by
  induction handles generalizing es with
  | nil =>
    obtain ⟨-, he⟩ := h.of_done
    exact (Program.done.inj he)
  | cons handle rest ih =>
    obtain ⟨waited, more, -, hmore⟩ := h.of_ask
    exact ih hmore

theorem takeAll_noticed
    (htake : ∀ peer s es r, (take peer s).Path es (.done r) → Noticed bad es r.1)
    {peers : List Nat} {s : σ} {r : Except Fault Unit × σ}
    (h : (takeAll take peers s).Path es (.done r)) :
    Noticed bad es r.1 := by
  induction peers generalizing es s with
  | nil =>
    obtain ⟨rfl, -⟩ := h.of_done
    exact .of_nothing rfl _
  | cons peer peers ih =>
    obtain ⟨⟨outcome, mid⟩, fs, gs, rfl, hfirst, hlast⟩ := h.of_bind
    have hnoticed := htake peer s fs _ hfirst
    cases outcome with
    | error f =>
      obtain ⟨rfl, he⟩ := hlast.of_done
      cases he
      rwa [List.append_nil]
    | ok => exact hnoticed.append (ih hlast)

/-- A bad message ends the taking, and what is still waited for then changes nothing. -/
theorem round_noticed
    (htake : ∀ peer s es r, (take peer s).Path es (.done r) → Noticed bad es r.1) {tag : Tag}
    {outgoing : List (Nat × Except Fault (List UInt8))} {s : σ} {r : Except Fault Unit × σ}
    (h : (round tag outgoing take s).Path es (.done r)) : Noticed bad es r.1 := by
  obtain ⟨⟨handles, posted⟩, fs, gs, rfl, hposts, h⟩ := h.of_bind
  have hnoPosts := payloads_postAll hposts
  cases posted with
  | error f =>
    obtain ⟨outcome, ws, vs, rfl, hwaits, h⟩ :=
      Program.Path.of_bind (p := waitAll handles (.error f))
      (f := fun outcome => pure (outcome, s)) h
    obtain ⟨rfl, -⟩ := h.of_done
    apply Noticed.of_nothing
    rw [List.append_nil, payloads_append, hnoPosts, payloads_waitAll hwaits, List.append_nil]
  | ok =>
    obtain ⟨⟨taken, mid⟩, ts, us, rfl, htakes, h⟩ := Program.Path.of_bind h
    obtain ⟨outcome, ws, vs, rfl, hwaits, h⟩ := Program.Path.of_bind h
    obtain ⟨rfl, he⟩ := h.of_done
    cases he
    have hnoticed := takeAll_noticed htake htakes
    have hposted : Noticed bad fs (.ok () : Except Fault Unit) := .of_nothing hnoPosts _
    rw [List.append_nil]
    refine hposted.append ?_
    cases taken with
    | error f =>
      obtain rfl := error_of_waitAll hwaits
      intro hsends payload hpayload
      rw [payloads_append, payloads_waitAll hwaits, List.append_nil] at hpayload
      exact hnoticed (plainSends_append.mp hsends).1 payload hpayload
    | ok => exact hnoticed.append (.of_nothing (payloads_waitAll hwaits) _)

end Exchange

end HaloIndex
