import HaloIndex.Proofs.Rebuild.Reference
import HaloIndex.Proofs.Transport.Receipt

namespace HaloIndex

variable {G A : Type} [LT G] [DecidableEq G] [DecidableEq A] [DecidableLT G]

theorem Link.localKey_mem_of_mem_joins {ownKeys : Bool} {remote here : List (Key G A)}
    {l : Link G A} (h : l ∈ joins ownKeys remote here) : l.localKey ∈ here := by
  induction remote generalizing here with
  | nil => cases h
  | cons r remote ih =>
    rcases List.mem_append.mp h with h | h
    · obtain ⟨k, hk, rfl⟩ := List.mem_map.mp h
      have hsame := (List.mem_filter.mp hk).1
      have hglobal := List.mem_takeWhile_imp hsame
      rw [decide_eq_true_eq] at hglobal
      rw [localKey, ← hglobal]
      exact List.mem_of_mem_drop ((List.takeWhile_sublist _).mem hsame)
    · exact List.mem_of_mem_drop (ih h)

variable [LT A] [DecidableLT A]

theorem Link.localKey_mem_of_mem_matched {ownKeys : Bool} {remote here : List (Key G A)}
    {l : Link G A} (h : l ∈ matched ownKeys remote here) : l.localKey ∈ here := by
  rw [matched, mem_eraseReps, sorted, List.mem_mergeSort] at h
  exact localKey_mem_of_mem_joins h

namespace Publication

theorem isShared_linksWith (own other : Publication G A) (ownKeys : Bool) :
    (own.linksWith other ownKeys).isShared = !(own.dest.isSome || other.dest.isSome) := by
  unfold linksWith
  split
  next h => rw [h]; rfl
  next h => rw [Bool.eq_false_iff.mpr h]; rfl

theorem localKey_mem_linksWith (own other : Publication G A) (ownKeys : Bool) :
    (∀ l ∈ (own.linksWith other ownKeys).send, l.localKey ∈ own.source) ∧
      ∀ l ∈ (own.linksWith other ownKeys).receive, l.localKey ∈ own.destKeys := by
  unfold linksWith
  split
  next =>
    exact ⟨fun _ hl => Link.localKey_mem_of_mem_matched hl,
      fun _ hl => Link.localKey_mem_of_mem_matched hl⟩
  next h =>
    rw [Bool.or_eq_true, not_or, Option.not_isSome_iff_eq_none] at h
    rw [destKeys, h.1, Option.getD_none]
    exact ⟨fun _ hl => Link.localKey_mem_of_mem_matched hl,
      fun _ hl => Link.localKey_mem_of_mem_matched hl⟩

end Publication

variable [Scalar G] [Role A]

theorem Station.payloads_passOn {s : Station} {tag : Tag} {outgoing incoming : List UInt8}
    {es : List Event} (h : (s.passOn tag outgoing).run.Path es (.done (.ok incoming))) :
    payloads es = [incoming] := by
  unfold passOn at h
  split at h
  next =>
    obtain ⟨_, fs, gs, rfl, hsend, hreceive⟩ := h.of_talk_bind
    rw [payloads_append, hsend.payloads_send, hreceive.payloads_receive]
    rfl
  next =>
    obtain ⟨payload, fs, gs, rfl, hreceive, hrest⟩ := h.of_talk_bind
    obtain ⟨_, hs, us, rfl, hsend, hlast⟩ := hrest.of_talk_bind
    obtain ⟨rfl, he⟩ := hlast.of_done
    cases he
    rw [payloads_append, payloads_append, hreceive.payloads_receive, hsend.payloads_send]
    rfl

namespace Publication

def Enters (own : Publication G A) (registry : Registry) (rank : Nat) (payload : List UInt8)
    (links links' : NatMap (Links G A)) : Prop :=
  ∃ found, own.linksFrom registry payload false = .ok found ∧ links' = enter links rank found

theorem exists_of_linksFrom {own : Publication G A} {registry : Registry} {buffer : List UInt8}
    {ownKeys : Bool} {links : Links G A}
    (h : own.linksFrom registry buffer ownKeys = .ok (some links)) :
    ∃ other, decode registry buffer = .ok other ∧ links = own.linksWith other ownKeys := by
  obtain ⟨other, hother, hlinks⟩ := ok_of_bind h
  refine ⟨other, hother, ?_⟩
  dsimp only at hlinks
  split at hlinks
  next => cases hlinks
  next =>
    cases hlinks
    rfl

variable {own : Publication G A} {s : Station} {tag : Tag} {es : List Event}
  {links links' : NatMap (Links G A)}

theorem mem_of_takes {heard : List (Nat × List UInt8)} {registry : Registry}
    (h : Exchange.Takes (own.Enters registry) heard links links') {e : Nat × Links G A}
    (he : e ∈ links'.entries) : e ∈ links.entries ∨
      ∃ payload, (e.1, payload) ∈ heard ∧
      own.linksFrom registry payload false = .ok (some e.2) := by
  induction h with
  | nil => exact .inl he
  | @cons rank payload rest links mid links' hmade hrest ih =>
    obtain ⟨found, hfound, rfl⟩ := hmade
    rcases ih he with hmid | ⟨payload', hheard, hlinks⟩
    · rw [← NatMap.get?_eq_some_iff, get?_enter] at hmid
      split at hmid
      next hrank =>
        cases found with
        | none => exact .inl (NatMap.get?_eq_some_iff.mp hmid)
        | some found =>
          cases hmid
          exact .inr ⟨payload, hrank ▸ List.mem_cons_self .., hfound⟩
      next => exact .inl (NatMap.get?_eq_some_iff.mp hmid)
    · exact .inr ⟨payload', List.mem_cons_of_mem _ hheard, hlinks⟩

theorem circulate_takes {origins : List Nat} {outgoing : List UInt8}
    (h : (circulate s tag own origins outgoing links).run.Path es (.done (.ok links'))) :
    Exchange.Takes (own.Enters s.registry) (origins.zip (payloads es)) links links' := by
  induction origins generalizing outgoing links es with
  | nil =>
    obtain ⟨-, he⟩ := h.of_done
    cases he
    exact .nil _
  | cons origin origins ih =>
    obtain ⟨incoming, fs, gs, rfl, hpass, hround⟩ := h.of_talk_bind
    obtain ⟨found, ts, us, rfl, hfound, hrest⟩ := hround.of_talk_bind
    obtain ⟨rfl, hlinks⟩ := hfound.of_ofExcept
    rw [payloads_append, Station.payloads_passOn hpass, List.singleton_append, List.nil_append,
      List.zip_cons_cons]
    exact .cons ⟨found, hlinks, rfl⟩ (ih hrest)

/-- How the publication of a peer is taken: its length is asked for, the message is received, has
the right length and is read. -/
inductive TakenFrom (own : Publication G A) (registry : Registry) (tag : Tag) (peer : Nat) :
    List Event → Except Fault (Option (Links G A)) → Prop where
  | unprobed (f : Fault) :
    TakenFrom own registry tag peer [⟨.probe (.rank peer) tag, .error f⟩] (.error f)
  | unreceived (envelope : Envelope) (f : Fault) : TakenFrom own registry tag peer
      [⟨.probe (.rank peer) tag, .ok envelope⟩, ⟨.receive peer tag, .error f⟩] (.error f)
  | misfit {envelope : Envelope} {payload : List UInt8} (h : payload.length ≠ envelope.length) :
    TakenFrom own registry tag peer
      [⟨.probe (.rank peer) tag, .ok envelope⟩, ⟨.receive peer tag, .ok payload⟩]
      (.error (.communication peer
        s!"probed {envelope.length} bytes but received {payload.length}"))
  | read {envelope : Envelope} {payload : List UInt8}
      {outcome : Except Fault (Option (Links G A))}
      (h : payload.length = envelope.length)
      (hread : own.linksFrom registry payload false = outcome) :
    TakenFrom own registry tag peer
      [⟨.probe (.rank peer) tag, .ok envelope⟩, ⟨.receive peer tag, .ok payload⟩] outcome

theorem takenFrom_of_path {peer : Nat} {outcome : Except Fault (Option (Links G A))}
    (h : (takeFrom s tag own peer).run.Path es (.done outcome)) :
    own.TakenFrom s.registry tag peer es outcome := by
  obtain ⟨f, rfl, hprobe⟩ | ⟨envelope, fs, gs, rfl, hprobe, htake⟩ := h.cases_talk_bind
  · cases hprobe.of_request
    exact .unprobed f
  cases hprobe.of_request
  obtain ⟨f, rfl, hreceive⟩ | ⟨payload, ts, us, rfl, hreceive, hread⟩ := htake.cases_talk_bind
  · cases hreceive.of_request
    exact .unreceived envelope f
  cases hreceive.of_request
  by_cases hlength : payload.length ≠ envelope.length
  · simp only [if_pos hlength] at hread
    obtain ⟨rfl, he⟩ := hread.of_done
    cases he
    exact .misfit hlength
  · simp only [if_neg hlength] at hread
    obtain ⟨rfl, he⟩ := hread.of_done
    exact .read (not_not.mp hlength) (Program.done.inj he).symm

theorem payloads_takeFrom {neighbour : Nat} {found : Option (Links G A)}
    (h : (takeFrom s tag own neighbour).run.Path es (.done (.ok found))) : ∃ payload,
      payloads es = [payload] ∧ own.linksFrom s.registry payload false = .ok found := by
  cases takenFrom_of_path h with
  | @read _ payload _ _ hread => exact ⟨payload, rfl, hread⟩

theorem path_of_hearFrom {peer : Nat} {r : Except Fault Unit × NatMap (Links G A)}
    (h : (hearFrom s tag own peer links).Path es (.done r)) : ∃ outcome,
      (takeFrom s tag own peer).run.Path es (.done outcome) ∧ r.1 = outcome.map (fun _ => ()) ∧
        ∀ found, outcome = .ok found → r.2 = enter links peer found := by
  obtain ⟨outcome, fs, gs, rfl, htaken, hlast⟩ := h.of_bind
  refine ⟨outcome, ?_⟩
  cases outcome with
  | error f =>
    obtain ⟨rfl, he⟩ := hlast.of_done
    cases he
    exact ⟨(List.append_nil fs).symm ▸ htaken, rfl, nofun⟩
  | ok found =>
    obtain ⟨rfl, he⟩ := hlast.of_done
    cases he
    refine ⟨(List.append_nil fs).symm ▸ htaken, rfl, ?_⟩
    rintro _ ⟨⟩
    rfl

theorem round_of_swap {neighbours : List Nat} {message : List UInt8}
    {outcome : Except Fault (NatMap (Links G A))}
    (h : (swap s tag own neighbours message links).run.Path es (.done outcome)) : ∃ result final,
      (Exchange.round tag (neighbours.map fun n => (n, .ok message))
        (hearFrom s tag own) links).Path es
        (.done (result, final)) ∧ outcome = result.map fun _ => final := by
  obtain ⟨g, rfl, hround⟩ | ⟨⟨result, final⟩, fs, gs, rfl, hround, hlast⟩ := h.cases_talk_bind
  · obtain ⟨b, ts, us, rfl, -, hend⟩ := Program.Path.of_bind hround
    obtain ⟨-, he⟩ := hend.of_done
    cases he
  refine ⟨result, final, ?_⟩
  obtain ⟨g, rfl, hresult⟩ | ⟨_, ts, us, rfl, hresult, hend⟩ := hlast.cases_talk_bind
  · obtain ⟨rfl, he⟩ := hresult.of_done
    cases he
    rw [List.append_nil]
    exact ⟨hround.of_lift, rfl⟩
  · obtain ⟨rfl, rfl⟩ := hresult.of_ofExcept
    obtain ⟨rfl, he⟩ := hend.of_done
    cases he
    rw [List.append_nil, List.append_nil]
    exact ⟨hround.of_lift, rfl⟩

theorem swap_takes {neighbours : List Nat} {message : List UInt8}
    (h : (swap s tag own neighbours message links).run.Path es (.done (.ok links'))) :
    Exchange.Takes (own.Enters s.registry) (neighbours.zip (payloads es)) links links' := by
  have htake : ∀ peer links es links',
      (hearFrom s tag own peer links).Path es (.done (.ok (), links')) →
      ∃ payload, payloads es = [payload] ∧ own.Enters s.registry peer payload links links' := by
    intro peer links es links' hpath
    obtain ⟨outcome, htaken, hok, hentered⟩ := path_of_hearFrom hpath
    cases outcome with
    | error => cases hok
    | ok found =>
      obtain ⟨payload, hpayload, hfound⟩ := payloads_takeFrom htaken
      exact ⟨payload, hpayload, found, hfound, hentered found rfl⟩
  obtain ⟨result, final, hround, he⟩ := round_of_swap h
  cases result with
  | error => cases he
  | ok =>
    cases he
    have htakes := Exchange.round_takes htake hround
    rw [List.map_map] at htakes
    exact List.map_id neighbours ▸ htakes

end Publication

namespace Rebuild

variable {b : Rebuild G A} {s : Station} {es : List Event}

/-- The messages that came in, each with the rank that it is about. -/
def heard (b : Rebuild G A) (s : Station) (route : Route) (es : List Event) :
    List (Nat × List UInt8) :=
  (route.sources s.size s.rank (b.neighbours s.rank)).zip (payloads es)

/-- How a rank may come to have these links to another, if it has heard these messages. -/
inductive Origin (b : Rebuild G A) (s : Station) (heard : List (Nat × List UInt8)) :
    Nat × Links G A → Prop where
  | heard {rank : Nat} {payload : List UInt8} {links : Links G A} (h : (rank, payload) ∈ heard)
      (hlinks : b.published.linksFrom s.registry payload false = .ok (some links)) :
    Origin b s heard (rank, links)
  | own {message : List UInt8} {links : Links G A}
      (hpack : b.published.encode s.registry = .ok message)
      (hlinks : b.published.linksFrom s.registry message b.table.settings.includeSelf =
        .ok (some links)) :
    Origin b s heard (s.rank, links)

theorem Origin.exists_linksWith {heard : List (Nat × List UInt8)} {e : Nat × Links G A}
    (h : b.Origin s heard e) : ∃ other ownKeys, e.2 = b.published.linksWith other ownKeys := by
  cases h with
  | heard _ hlinks =>
    obtain ⟨other, -, rfl⟩ := Publication.exists_of_linksFrom hlinks
    exact ⟨other, _, rfl⟩
  | own _ hlinks =>
    obtain ⟨other, -, rfl⟩ := Publication.exists_of_linksFrom hlinks
    exact ⟨other, _, rfl⟩

/-- Whatever was heard, a link is about a key that the rank makes known in the set of its
direction. -/
theorem Origin.publishes {heard : List (Nat × List UInt8)} {e : Nat × Links G A}
    (h : b.Origin s heard e) :
    (∀ l ∈ e.2.send, b.ends.source.Publishes b.ignorePublic l.localKey) ∧
      ∀ l ∈ e.2.receive, b.ends.dest.Publishes b.ignorePublic l.localKey := by
  obtain ⟨other, ownKeys, he⟩ := h.exists_linksWith
  obtain ⟨hsend, hreceive⟩ := b.published.localKey_mem_linksWith other ownKeys
  rw [he]
  exact ⟨fun l hl => mem_source_published.mp (hsend l hl),
    fun l hl => mem_destKeys_published.mp (hreceive l hl)⟩

def exchangeFrom (b : Rebuild G A) (s : Station) (route : Route) (message : List UInt8)
    (start : NatMap (Links G A)) : Talk (NatMap (Links G A)) :=
  match route with
  | .ring => b.published.circulate s b.table.settings.rebuildTag s.origins message start
  | .neighbours =>
    b.published.swap s b.table.settings.rebuildTag (b.neighbours s.rank).keys message start

theorem cases_collect {route : Route} {outcome : Except Fault (NatMap (Links G A))}
    (h : (LinkTable.collect s b.ends b.ignorePublic b.table.settings
      (b.neighbours s.rank) route).run.Path es
      (.done outcome)) :
    (es = [] ∧ ∀ links, outcome = .ok links → links = .empty) ∨
      ∃ message loopBack, b.published.encode s.registry = .ok message ∧
        (∀ found, loopBack = some found →
          b.published.linksFrom s.registry message b.table.settings.includeSelf =
          .ok (some found)) ∧
        (b.exchangeFrom s route message (Publication.enter .empty s.rank loopBack)).run.Path es
          (.done outcome) := by
  unfold LinkTable.collect at h
  by_cases hquits : (decide (s.size = 1) &&
    !(!b.ends.isOne || b.table.settings.includeSelf)) = true
  · simp only [if_pos hquits] at h
    obtain ⟨rfl, he⟩ := h.of_done
    cases he
    exact .inl ⟨rfl, fun links he => (Except.ok.inj he).symm⟩
  simp only [if_neg hquits] at h
  obtain ⟨g, rfl, hencode⟩ | ⟨message, fs, gs, rfl, hencode, hmore⟩ := h.cases_talk_bind
  · obtain ⟨rfl, -⟩ := hencode.of_done
    exact .inl ⟨rfl, nofun⟩
  obtain ⟨rfl, hpack⟩ := hencode.of_ofExcept
  by_cases hwants : (!b.ends.isOne || b.table.settings.includeSelf) = true
  · simp only [if_pos hwants] at hmore
    obtain ⟨g, rfl, hown⟩ | ⟨loopBack, ts, us, rfl, hown, hexchange⟩ := hmore.cases_talk_bind
    · obtain ⟨rfl, -⟩ := hown.of_done
      exact .inl ⟨rfl, nofun⟩
    · obtain ⟨rfl, hloop⟩ := hown.of_ofExcept
      refine .inr ⟨message, loopBack, hpack, ?_, hexchange⟩
      rintro found rfl
      exact hloop
  · simp only [if_neg hwants] at hmore
    exact .inr ⟨message, none, hpack, nofun, hmore⟩

theorem takes_of_exchange {route : Route} {message : List UInt8}
    {start links : NatMap (Links G A)}
    (h : (b.exchangeFrom s route message start).run.Path es (.done (.ok links))) :
    Exchange.Takes (b.published.Enters s.registry) (b.heard s route es) start links := by
  cases route with
  | ring => exact Publication.circulate_takes h
  | neighbours => exact Publication.swap_takes h

theorem origin_of_collect {route : Route} {links : NatMap (Links G A)}
    (h : (LinkTable.collect s b.ends b.ignorePublic b.table.settings
      (b.neighbours s.rank) route).run.Path es
      (.done (.ok links))) {e : Nat × Links G A} (he : e ∈ links.entries) :
    b.Origin s (b.heard s route es) e := by
  obtain ⟨rfl, hempty⟩ | ⟨message, loopBack, hpack, hloop, hexchange⟩ := cases_collect h
  · rw [hempty links rfl] at he
    cases he
  · rcases Publication.mem_of_takes (takes_of_exchange hexchange) he with hself | ⟨payload,
      hheard, hlinks⟩
    · cases loopBack with
      | none => cases hself
      | some found =>
        obtain rfl : e = (s.rank, found) := List.mem_singleton.mp hself
        exact .own hpack (hloop found rfl)
    · exact .heard hheard hlinks

/-- How a rebuild may end: it is refused before anyone is told of it, or it fails and the table
has no links, or it succeeds. -/
inductive Ends (b : Rebuild G A) (s : Station) (es : List Event) :
    Except Fault Unit × LinkTable G A → Prop where
  | refused (f : Fault) (neighbours : RankSet) :
    Ends b s es (.error f, { b.table with neighbours })
  | failed (f : Fault) : Ends b s es (b.settle s.rank (.error f))
  | rebuilt {route : Route} {links : NatMap (Links G A)}
      (hsource : b.ends.source.phase = .ground)
      (hdest : b.ends.dest.phase = .ground)
      (hroute : { b.table with neighbours := b.neighbours s.rank }.route s.size = .ok route)
      (horigin : ∀ e ∈ links.entries, b.Origin s (b.heard s route es) e) :
    Ends b s es (b.settle s.rank (.ok links))

theorem ends_of_path {r : Except Fault Unit × LinkTable G A}
    (h : (b.program s).Path es (.done r)) :
    b.Ends s es r := by
  by_cases hground : b.ends.source.phase = .ground ∧ b.ends.dest.phase = .ground
  · obtain ⟨hsource, hdest⟩ := hground
    cases hroute : { b.table with neighbours := b.neighbours s.rank }.route s.size with
    | error f =>
      rw [neighbours] at hroute
      simp only [program, LinkTable.rebuild, IndexSet.require, hsource, hdest,
        if_true, hroute] at h
      obtain ⟨-, he⟩ := h.of_done
      cases he
      exact .refused f _
    | ok route =>
      rw [program_eq b s hsource hdest hroute] at h
      obtain ⟨outcome, fs, gs, rfl, hcollect, hlast⟩ := h.of_bind
      obtain ⟨rfl, he⟩ := hlast.of_done
      cases he
      rw [List.append_nil]
      cases outcome with
      | error f => exact .failed f
      | ok links => exact .rebuilt hsource hdest hroute fun e he => origin_of_collect hcollect he
  · obtain ⟨f, hf⟩ : ∃ f, (do
        b.ends.source.require "rebuild" .ground
        b.ends.dest.require "rebuild" .ground : Except Fault Unit) = .error f := by
      by_cases hsource : b.ends.source.phase = .ground
      · have hdest : b.ends.dest.phase ≠ .ground := fun h => hground ⟨hsource, h⟩
        rw [IndexSet.require, if_pos hsource, IndexSet.require, if_neg hdest]
        exact ⟨_, rfl⟩
      · rw [IndexSet.require, if_neg hsource]
        exact ⟨_, rfl⟩
    rw [program, LinkTable.rebuild, hf] at h
    obtain ⟨-, he⟩ := h.of_done
    cases he
    exact .refused f _

end Rebuild

end HaloIndex
