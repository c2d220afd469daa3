import HaloIndex.Proofs.Transport.Outcome
import HaloIndex.Proofs.Transport.Receipt

namespace HaloIndex

namespace Event

def granted? : Event → Option Handle
  | ⟨.post .., .ok handle⟩ => some handle
  | _ => none

def waited? : Event → Option Handle
  | ⟨.wait handle, _⟩ => some handle
  | _ => none

end Event

def granted (es : List Event) : List Handle := es.filterMap Event.granted?

def waitedFor (es : List Event) : List Handle := es.filterMap Event.waited?

@[simp]
theorem granted_append (es fs : List Event) : granted (es ++ fs) = granted es ++ granted fs :=
  List.filterMap_append

@[simp]
theorem waitedFor_append (es fs : List Event) :
    waitedFor (es ++ fs) = waitedFor es ++ waitedFor fs :=
  List.filterMap_append

/-- The message that came in, if one did, with its source. -/
def Event.receipt? : Event → Option (Nat × List UInt8)
  | ⟨.receive source _, .ok payload⟩ => some (source, payload)
  | _ => none

def receipts (es : List Event) : List (Nat × List UInt8) := es.filterMap Event.receipt?

theorem map_snd_receipts (es : List Event) : (receipts es).map Prod.snd = payloads es := by
  rw [receipts, List.map_filterMap, payloads]
  congr 1
  funext e
  obtain ⟨request, answer⟩ := e
  cases request with
  | receive => cases answer <;> rfl
  | _ => rfl

section Actions

variable {β : Type} {act : β → Except Fault Unit} {items : List β}

theorem forM_eq_ok_iff : forM items act = .ok () ↔ ∀ b ∈ items, act b = .ok () := by
  induction items with
  | nil => exact ⟨fun _ => nofun, fun _ => rfl⟩
  | cons item items ih =>
    rw [List.forM_cons, List.forall_mem_cons, ← ih]
    cases act item with
    | ok => exact ⟨fun h => ⟨rfl, h⟩, fun h => h.2⟩
    | error => exact ⟨nofun, fun h => nomatch h.1⟩

theorem forM_eq_error_iff {f : Fault} : forM items act = .error f ↔
    ∃ before b after, items = before ++ b :: after ∧ (∀ a ∈ before, act a = .ok ()) ∧
    act b = .error f := by
  induction items with
  | nil => simp [pure, Except.pure]
  | cons item items ih =>
    rw [List.forM_cons]
    cases hitem : act item with
    | error g =>
      constructor
      · intro h
        exact ⟨[], item, items, rfl, nofun, hitem.trans h⟩
      · rintro ⟨_ | ⟨first, before⟩, b, after, hsplit, hbefore, hb⟩
        · cases hsplit
          exact hitem.symm.trans hb
        · cases hsplit
          cases hitem.symm.trans (hbefore item (List.mem_cons_self ..))
    | ok =>
      refine ih.trans ⟨?_, ?_⟩
      · rintro ⟨before, b, after, rfl, hbefore, hb⟩
        exact ⟨item :: before, b, after, rfl, List.forall_mem_cons.mpr ⟨hitem, hbefore⟩, hb⟩
      · rintro ⟨_ | ⟨first, before⟩, b, after, hsplit, hbefore, hb⟩
        · cases hsplit
          cases hitem.symm.trans hb
        · cases hsplit
          exact ⟨before, b, after, rfl, (List.forall_mem_cons.mp hbefore).2, hb⟩

end Actions

namespace Exchange

inductive Trial where
  | send (peer : Nat)
  | take (peer : Nat)
  | wait (handle : Handle)
  deriving DecidableEq

/-- Something that is tried in a round, with the requests that were made for it. -/
structure Attempt where
  trial : Trial
  events : List Event
  outcome : Except Fault Unit

def Attempt.isWait (a : Attempt) : Prop := ∃ handle, a.trial = .wait handle

def Quiet (taken : Nat → List Event → Except Fault Unit → Prop) : Prop :=
  ∀ peer es outcome, taken peer es outcome → granted es = [] ∧ waitedFor es = []

section Attempts

/-- The peers are tried in turn, up to the first failure. -/
inductive InTurn (made : Attempt → Prop) (trial : Nat → Trial) :
    List Nat → List Attempt → Except Fault Unit → Prop where
  | nil : InTurn made trial [] [] (.ok ())
  | failed {a : Attempt} {peer : Nat} {peers : List Nat} {f : Fault} (hmade : made a)
      (htrial : a.trial = trial peer) (hfails : a.outcome = .error f) :
    InTurn made trial (peer :: peers) [a] (.error f)
  | passed {a : Attempt} {peer : Nat} {peers : List Nat} {log : List Attempt}
      {outcome : Except Fault Unit}
      (hmade : made a) (htrial : a.trial = trial peer) (hpasses : a.outcome = .ok ())
      (hrest : InTurn made trial peers log outcome) :
    InTurn made trial (peer :: peers) (a :: log) outcome

variable {own : Attempt → Prop} {trial : Nat → Trial} {peers : List Nat} {log : List Attempt}
  {outcome : Except Fault Unit}

theorem InTurn.made (h : InTurn own trial peers log outcome) : ∀ a ∈ log, own a := by
  induction h with
  | nil => exact nofun
  | failed hmade =>
    intro a ha
    exact List.mem_singleton.mp ha ▸ hmade
  | passed hmade _ _ _ ih =>
    intro a ha
    rcases List.mem_cons.mp ha with rfl | ha
    · exact hmade
    · exact ih a ha

theorem InTurn.trials (h : InTurn own trial peers log outcome) :
    log.map Attempt.trial = (peers.take log.length).map trial := by
  induction h with
  | nil => rfl
  | failed _ htrial => exact congrArg (· :: []) htrial
  | passed _ htrial _ _ ih => exact congrArg₂ List.cons htrial ih

theorem InTurn.outcome_eq (h : InTurn own trial peers log outcome) :
    outcome = forM log Attempt.outcome := by
  induction h with
  | nil => rfl
  | failed _ _ hfails =>
    rw [List.forM_cons, hfails]
    rfl
  | passed _ _ hpasses _ ih =>
    rw [List.forM_cons, hpasses]
    exact ih

theorem InTurn.length_of_ok (h : InTurn own trial peers log (.ok ())) :
    log.length = peers.length := by
  generalize houtcome : (.ok () : Except Fault Unit) = outcome at h
  induction h with
  | nil => rfl
  | failed => cases houtcome
  | passed _ _ _ _ ih => exact congrArg (· + 1) (ih houtcome)

theorem InTurn.all_ok (h : InTurn own trial peers log (.ok ())) :
    ∀ a ∈ log, a.outcome = .ok () :=
  forM_eq_ok_iff.mp h.outcome_eq.symm

theorem InTurn.stops (h : InTurn own trial peers log outcome) :
    log.Pairwise fun a _ => a.outcome = .ok () := by
  induction h with
  | nil => exact .nil
  | failed => exact List.pairwise_singleton ..
  | passed _ _ hpasses _ ih => exact .cons (fun _ _ => hpasses) ih

end Attempts

variable {σ : Type} {tag : Tag} {message : Nat → Except Fault (List UInt8)}
  {taken : Nat → List Event → Except Fault Unit → Prop}

/-- How an attempt is made: what cannot be packed is not sent, and how a message is taken depends
on what it is for. -/
inductive Made (tag : Tag) (message : Nat → Except Fault (List UInt8))
    (taken : Nat → List Event → Except Fault Unit → Prop) : Attempt → Prop where
  | unpacked {peer : Nat} {f : Fault} (h : message peer = .error f) :
    Made tag message taken ⟨.send peer, [], .error f⟩
  | sent {peer : Nat} {payload : List UInt8} (h : message peer = .ok payload)
    (answer : Except Fault Handle) :
    Made tag message taken ⟨.send peer, [⟨.post peer tag payload, answer⟩],
      answer.map fun _ => ()⟩
  | took {peer : Nat} {es : List Event} {outcome : Except Fault Unit}
    (h : taken peer es outcome) :
    Made tag message taken ⟨.take peer, es, outcome⟩
  | waited (handle : Handle) (answer : Except Fault Unit) :
    Made tag message taken ⟨.wait handle, [⟨.wait handle, answer⟩], answer⟩

/-- The account of a round: what was tried, one thing after the other, with the peers in
ascending order. -/
structure Drains (tag : Tag) (message : Nat → Except Fault (List UInt8))
    (taken : Nat → List Event → Except Fault Unit → Prop) (peers : List Nat) (es : List Event)
    (outcome : Except Fault Unit) (log : List Attempt) : Prop where
  ascending : peers.Pairwise (· < ·)
  events : es = log.flatMap Attempt.events
  made : ∀ a ∈ log, Made tag message taken a
  inOrder : ∃ sends takes, log.map Attempt.trial =
    (peers.take sends).map .send ++ ((peers.take takes).map .take ++ (granted es).map .wait) ∧
      (outcome = .ok () → sends = peers.length ∧ takes = peers.length)
  stops : log.Pairwise fun a b => a.outcome = .ok () ∨ b.isWait
  drained : waitedFor es = granted es
  succeeds : outcome = .ok () ↔ ∀ a ∈ log, a.outcome = .ok ()
  fails : ∀ f, outcome = .error f ↔ ∃ before a after, log = before ++ a :: after ∧
    (∀ b ∈ before, b.outcome = .ok ()) ∧ a.outcome = .error f

theorem postAll_inTurn (taken : Nat → List Event → Except Fault Unit → Prop) {peers : List Nat}
    {es : List Event} {r : List Handle × Except Fault Unit}
    (h : (postAll tag (peers.map fun peer => (peer, message peer))).Path es (.done r)) :
    ∃ log, InTurn (Made tag message taken) .send peers log r.2 ∧
      es = log.flatMap Attempt.events ∧
      granted es = r.1 ∧ waitedFor es = [] := by
  induction peers generalizing es r with
  | nil =>
    obtain ⟨rfl, he⟩ := h.of_done
    cases he
    exact ⟨[], .nil, rfl, rfl, rfl⟩
  | cons peer peers ih =>
    rw [List.map_cons] at h
    cases hmessage : message peer with
    | error f =>
      rw [hmessage] at h
      obtain ⟨rfl, he⟩ := h.of_done
      cases he
      exact ⟨_, .failed (.unpacked hmessage) rfl rfl, rfl, rfl, rfl⟩
    | ok payload =>
      rw [hmessage] at h
      obtain ⟨answer, more, rfl, hmore⟩ := h.of_ask
      cases answer with
      | error f =>
        obtain ⟨rfl, he⟩ := hmore.of_done
        cases he
        exact ⟨_, .failed (.sent hmessage (.error f)) rfl rfl, rfl, rfl, rfl⟩
      | ok handle =>
        obtain ⟨posted, fs, gs, rfl, hfirst, hlast⟩ := Program.Path.of_bind
          (p := postAll tag (peers.map fun peer => (peer, message peer))) hmore
        obtain ⟨rfl, he⟩ := hlast.of_done
        cases he
        obtain ⟨log, hlog, rfl, hgranted, hwaited⟩ := ih hfirst
        rw [List.append_nil]
        refine ⟨_, .passed (.sent hmessage (.ok handle)) rfl rfl hlog, rfl, ?_, hwaited⟩
        exact congrArg (handle :: ·) hgranted

theorem takeAll_inTurn (tag : Tag) (message : Nat → Except Fault (List UInt8)) {inv : σ → Prop}
    {take : Nat → σ → Program (Except Fault Unit × σ)}
    (hquiet : Quiet taken) (htake : ∀ peer s es r, inv s → (take peer s).Path es (.done r) →
      taken peer es r.1 ∧ inv r.2) {peers : List Nat} {s : σ} (hs : inv s) {es : List Event}
    {r : Except Fault Unit × σ} (h : (takeAll take peers s).Path es (.done r)) :
    inv r.2 ∧ ∃ log, InTurn (Made tag message taken) .take peers log r.1 ∧
      es = log.flatMap Attempt.events ∧
      granted es = [] ∧ waitedFor es = [] := by
  induction peers generalizing es s with
  | nil =>
    obtain ⟨rfl, he⟩ := h.of_done
    cases he
    exact ⟨hs, [], .nil, rfl, rfl, rfl⟩
  | cons peer peers ih =>
    obtain ⟨⟨outcome, mid⟩, fs, gs, rfl, hfirst, hlast⟩ := h.of_bind
    obtain ⟨htaken, hmid⟩ := htake peer s fs _ hs hfirst
    obtain ⟨hgranted, hwaited⟩ := hquiet peer fs outcome htaken
    cases outcome with
    | error f =>
      obtain ⟨rfl, he⟩ := hlast.of_done
      cases he
      rw [List.append_nil]
      exact ⟨hmid, _, .failed (.took htaken) rfl rfl, (List.append_nil fs).symm,
        hgranted, hwaited⟩
    | ok =>
      obtain ⟨hend, log, hlog, rfl, hnone, hlater⟩ := ih hmid hlast
      refine ⟨hend, _, .passed (.took htaken) rfl rfl hlog, rfl, ?_, ?_⟩
      · rw [granted_append, hgranted, hnone]
        rfl
      · rw [waitedFor_append, hwaited, hlater]
        rfl

/-- Each handle is waited for, also when something failed before. -/
theorem waitAll_waits (tag : Tag) (message : Nat → Except Fault (List UInt8))
    (taken : Nat → List Event → Except Fault Unit → Prop) {handles : List Handle}
    {before outcome : Except Fault Unit} {es : List Event}
    (h : (waitAll handles before).Path es (.done outcome)) :
    ∃ log : List Attempt, (∀ a ∈ log, Made tag message taken a) ∧
      log.map Attempt.trial = handles.map .wait ∧
      es = log.flatMap Attempt.events ∧ granted es = [] ∧ waitedFor es = handles ∧
      outcome = before.bind fun _ => forM log Attempt.outcome := by
  induction handles generalizing before es with
  | nil =>
    obtain ⟨rfl, he⟩ := h.of_done
    cases he
    refine ⟨[], nofun, rfl, rfl, rfl, rfl, ?_⟩
    cases outcome <;> rfl
  | cons handle handles ih =>
    obtain ⟨answer, more, rfl, hmore⟩ := h.of_ask
    obtain ⟨log, hmade, htrials, rfl, hgranted, hwaited, rfl⟩ := ih hmore
    refine ⟨⟨.wait handle, [⟨.wait handle, answer⟩], answer⟩ :: log, ?_, ?_, rfl,
      hgranted, ?_, ?_⟩
    · intro a ha
      rcases List.mem_cons.mp ha with rfl | ha
      · exact .waited handle answer
      · exact hmade a ha
    · rw [List.map_cons, List.map_cons, htrials]
    · exact congrArg (handle :: ·) hwaited
    · cases before with
      | error f => rfl
      | ok =>
        rw [List.forM_cons]
        rfl

/-- After the sends: messages are taken from all peers, or from none if a send failed. -/
inductive Middle (own : Attempt → Prop) (peers : List Nat) (posted : Except Fault Unit) :
    List Attempt → Except Fault Unit → Prop where
  | stopped {f : Fault} (h : posted = .error f) : Middle own peers posted [] (.error f)
  | went {takes : List Attempt} {result : Except Fault Unit} (h : posted = .ok ())
      (htakes : InTurn own .take peers takes result) : Middle own peers posted takes result

theorem Middle.result_eq {own : Attempt → Prop} {peers : List Nat}
    {posted result : Except Fault Unit} {takes : List Attempt}
    (h : Middle own peers posted takes result) :
    result = posted.bind fun _ => forM takes Attempt.outcome := by
  cases h with
  | stopped h =>
    rw [h]
    rfl
  | went h htakes =>
    rw [h]
    exact htakes.outcome_eq

theorem drains_of_parts {peers : List Nat} (hpeers : peers.Pairwise (· < ·)) {es : List Event}
    {sends takes waits : List Attempt} {posted result : Except Fault Unit}
    (hsends : InTurn (Made tag message taken) .send peers sends posted)
    (htakes : Middle (Made tag message taken) peers posted takes result)
    (hwaits : ∀ a ∈ waits, Made tag message taken a)
    (htrials : waits.map Attempt.trial = (granted es).map .wait)
    (hes : es = (sends ++ (takes ++ waits)).flatMap Attempt.events)
    (hdrained : waitedFor es = granted es) :
    Drains tag message taken peers es (result.bind fun _ => forM waits Attempt.outcome)
      (sends ++ (takes ++ waits)) := by
  have hall : ∀ a ∈ waits, a.isWait := by
    intro a ha
    have htrial : a.trial ∈ (granted es).map Trial.wait := htrials ▸ List.mem_map_of_mem ha
    obtain ⟨handle, -, hhandle⟩ := List.mem_map.mp htrial
    exact ⟨handle, hhandle.symm⟩
  have hfirst : (result.bind fun _ => forM waits Attempt.outcome) =
      forM (sends ++ (takes ++ waits)) Attempt.outcome := by
    rw [List.forM_append, List.forM_append, ← hsends.outcome_eq, htakes.result_eq]
    cases posted <;> rfl
  constructor
  case ascending => exact hpeers
  case events => exact hes
  case made =>
    intro a ha
    rcases List.mem_append.mp ha with ha | ha
    · exact hsends.made a ha
    rcases List.mem_append.mp ha with ha | ha
    · cases htakes with
      | stopped => cases ha
      | went _ htakes => exact htakes.made a ha
    · exact hwaits a ha
  case inOrder =>
    refine ⟨sends.length, takes.length, ?_, fun hok => ?_⟩
    · rw [List.map_append, List.map_append, hsends.trials, htrials]
      cases htakes with
      | stopped => rfl
      | went _ htakes => rw [htakes.trials]
    · cases htakes with
      | stopped => cases hok
      | went hposted htakes =>
        subst hposted
        cases result with
        | error => cases hok
        | ok => exact ⟨hsends.length_of_ok, htakes.length_of_ok⟩
  case stops =>
    apply List.pairwise_append.mpr
    refine ⟨hsends.stops.imp .inl, List.pairwise_append.mpr ⟨?_, ?_, ?_⟩, ?_⟩
    · cases htakes with
      | stopped => exact .nil
      | went _ htakes => exact htakes.stops.imp .inl
    · exact List.pairwise_of_forall_mem_list fun _ _ b hb => .inr (hall b hb)
    · exact fun _ _ b hb => .inr (hall b hb)
    · intro a ha b hb
      rcases List.mem_append.mp hb with hb | hb
      · cases htakes with
        | stopped => cases hb
        | went hposted =>
          subst hposted
          exact .inl (hsends.all_ok a ha)
      · exact .inr (hall b hb)
  case drained => exact hdrained
  case succeeds => rw [hfirst, forM_eq_ok_iff]
  case fails =>
    intro f
    rw [hfirst, forM_eq_error_iff]

/-- However the requests are answered, a round posts, takes and waits in this order, and it ends
with the first failure. -/
theorem round_drains {inv : σ → Prop} {take : Nat → σ → Program (Except Fault Unit × σ)}
    (hquiet : Quiet taken) (htake : ∀ peer s es r, inv s → (take peer s).Path es (.done r) →
      taken peer es r.1 ∧
      inv r.2) {peers : List Nat} (hpeers : peers.Pairwise (· < ·)) {s : σ} (hs : inv s)
    {es : List Event} {r : Except Fault Unit × σ}
    (h : (round tag (peers.map fun peer => (peer, message peer)) take s).Path es (.done r)) :
    inv r.2 ∧ ∃ log, Drains tag message taken peers es r.1 log := by
  obtain ⟨⟨handles, posted⟩, fs, gs, rfl, hposts, h⟩ := h.of_bind
  obtain ⟨sends, hsends, hfs, hgranted, hwaited⟩ := postAll_inTurn taken hposts
  have hmiddle : ∃ takes result state ts us, gs = ts ++ us ∧ inv state ∧
      Middle (Made tag message taken) peers posted takes result ∧
        ts = takes.flatMap Attempt.events ∧
      granted ts = [] ∧ waitedFor ts = [] ∧
      (waitAll handles result >>= fun outcome => pure (outcome, state)).Path us (.done r) := by
    cases posted with
    | error f => exact ⟨[], .error f, s, [], gs, rfl, hs, .stopped rfl, rfl, rfl, rfl, h⟩
    | ok =>
      obtain ⟨⟨result, state⟩, ts, us, rfl, htakes, h⟩ := Program.Path.of_bind h
      rw [List.map_map, show Prod.fst ∘ (fun peer => (peer, message peer)) = id from rfl,
        List.map_id] at htakes
      obtain ⟨hstate, takes, hlog, hts, hnone, hlater⟩ :=
        takeAll_inTurn tag message hquiet htake hs htakes
      exact ⟨takes, result, state, ts, us, rfl, hstate, .went rfl hlog, hts, hnone, hlater, h⟩
  obtain ⟨takes, result, state, ts, us, rfl, hstate, htakes, hts, hnone, hlater, h⟩ := hmiddle
  obtain ⟨outcome, ws, vs, rfl, hwaits, h⟩ := h.of_bind
  obtain ⟨rfl, he⟩ := h.of_done
  cases he
  obtain ⟨waits, hmade, htrials, hws, hquietWaits, hdrained, rfl⟩ :=
    waitAll_waits tag message taken hwaits
  have hhandles : granted (fs ++ (ts ++ (ws ++ []))) = handles := by
    simp only [List.append_nil, granted_append, hgranted, hnone, hquietWaits]
  refine ⟨hstate, sends ++ (takes ++ waits),
    drains_of_parts hpeers hsends htakes hmade (hhandles ▸ htrials) ?_ ?_⟩
  · rw [List.flatMap_append, List.flatMap_append, ← hfs, ← hts, ← hws, List.append_nil]
  · rw [hhandles]
    simp only [List.append_nil, waitedFor_append, hwaited, hlater, hdrained, List.nil_append]

def Trial.sources : Trial → List Nat
  | .take peer => [peer]
  | .send _ | .wait _ => []

variable {peers : List Nat} {es : List Event}

theorem Made.sources {a : Attempt} (h : Made tag message taken a) (hok : a.outcome = .ok ())
    (htaken : ∀ peer es, taken peer es (.ok ()) → (receipts es).map Prod.fst = [peer]) :
    (receipts a.events).map Prod.fst = a.trial.sources := by
  cases h with
  | unpacked => rfl
  | sent => rfl
  | took h => exact htaken _ _ (hok ▸ h)
  | waited => rfl

theorem Drains.sources {log : List Attempt} (h : Drains tag message taken peers es (.ok ()) log)
    (htaken : ∀ peer es, taken peer es (.ok ()) → (receipts es).map Prod.fst = [peer]) :
    (receipts es).map Prod.fst = peers := by
  obtain ⟨sends, takes, htrials, hall⟩ := h.inOrder
  obtain ⟨-, rfl⟩ := hall rfl
  have hsources : (receipts es).map Prod.fst =
      (log.map Attempt.trial).flatMap Trial.sources := by
    rw [h.events, receipts, List.filterMap_flatMap, List.map_flatMap, List.flatMap_map]
    apply List.flatMap_congr
    intro a ha
    exact (h.made a ha).sources (h.succeeds.mp rfl a ha) htaken
  have hsends : ((peers.take sends).map Trial.send).flatMap Trial.sources = [] := by
    rw [List.flatMap_map, List.flatMap_eq_nil_iff]
    exact fun _ _ => rfl
  have hwaits : ((granted es).map Trial.wait).flatMap Trial.sources = [] := by
    rw [List.flatMap_map, List.flatMap_eq_nil_iff]
    exact fun _ _ => rfl
  have htakes : (peers.map Trial.take).flatMap Trial.sources = peers := by
    rw [List.flatMap_map]
    exact List.flatMap_singleton' peers
  rw [hsources, htrials, List.take_length, List.flatMap_append, List.flatMap_append, hsends,
    htakes, hwaits, List.append_nil, List.nil_append]

end Exchange

end HaloIndex
