import HaloIndex.Proofs.Rebuild.Provenance
import HaloIndex.Proofs.Transport.Damage
import HaloIndex.Proofs.Wire.Exact

namespace HaloIndex

variable {G A : Type} [Scalar G] [Role A]

theorem Station.isCommunication_of_passOn {s : Station} {tag : Tag} {outgoing : List UInt8}
    {es : List Event} {f : Fault} (h : (s.passOn tag outgoing).run.Path es (.done (.error f)))
    (hsends : PlainSends es) {payload : List UInt8} (hpayload : payload ∈ payloads es) :
    f.IsCommunication := by
  unfold passOn at h
  split at h
  next =>
    obtain ⟨g, he, hsend⟩ | ⟨_, fs, gs, rfl, hsend, hreceive⟩ := h.cases_talk_bind
    · rw [hsend.payloads_send] at hpayload
      cases hpayload
    · rw [payloads_append, hsend.payloads_send, hreceive.payloads_receive] at hpayload
      cases hpayload
  next =>
    obtain ⟨g, he, hreceive⟩ | ⟨incoming, fs, gs, rfl, hreceive, hrest⟩ := h.cases_talk_bind
    · rw [hreceive.payloads_receive] at hpayload
      cases hpayload
    · obtain ⟨g, he, hsend⟩ | ⟨_, ts, us, rfl, hsend, hlast⟩ := hrest.cases_talk_bind
      · cases he
        exact hsend.isCommunication_of_send (plainSends_append.mp hsends).2
      · obtain ⟨-, he⟩ := hlast.of_done
        cases he

namespace Publication

variable [LT G] [LT A] [DecidableEq G] [DecidableLT G] [DecidableLT A]

theorem inherited_unpack {registry : Registry} {P : ∀ {α : Type}, Unpack α → Prop}
    (h : Unpack.Inherited registry P) : P (unpack registry : Unpack (Publication G A)) := by
  have hkey : P (unpackKey registry : Unpack (Key G A)) :=
    h.bind (h.scalar G) fun _ => h.bind (h.role A) fun _ => h.pure _
  apply h.bind (h.scalar Bool)
  intro two
  apply h.bind h.count
  intro sourceCount
  apply h.bind h.count
  intro destCount
  apply h.bind (h.times hkey sourceCount)
  intro source
  cases two with
  | false => exact h.pure _
  | true => exact h.bind (h.times hkey destCount) fun _ => h.bind (h.pure _) fun _ => h.pure _

theorem tight_decode [LawfulScalar G] [LawfulRole A] {registry r : Registry}
    (h : registry.SpeaksFully G) {p : Publication G A} {message : List UInt8}
    (hpack : p.encode r = .ok message) :
    Tight (decode registry : List UInt8 → Except Fault (Publication G A)) message :=
  (reads_message h hpack).tight (inherited_unpack (Unpack.inherited_stable registry))

omit [Scalar G] [Role A] in
theorem Ordered.heard_eq {p : Publication G A} (h : p.Ordered) : p.heard = p := by
  have hsorted {keys : List (Key G A)} (hkeys : InOrder keys) : sortedKeys keys = keys :=
    List.mergeSort_of_pairwise (hkeys.imp fun {a b} hab => by simpa using hab)
  obtain ⟨source, dest⟩ := p
  rw [heard, hsorted h.source]
  cases dest with
  | none => rfl
  | some keys => rw [Option.map_some, hsorted (h.dest keys rfl)]

variable [DecidableEq A]

def Damaged (own : Publication G A) (registry : Registry) (payload : List UInt8)
    (f : Fault) : Prop :=
  own.linksFrom registry payload false = .error f

variable {own : Publication G A} {s : Station} {tag : Tag} {es : List Event}
  {links : NatMap (Links G A)}

theorem noticed_linksFrom {registry : Registry} {payload : List UInt8}
    (h : payloads es = [payload]) :
    Noticed (own.Damaged registry) es (own.linksFrom registry payload false) := by
  intro _ payload' hpayload f hbad
  rw [h] at hpayload
  obtain rfl := List.mem_singleton.mp hpayload
  exact ⟨f, hbad, .inl rfl⟩

/-- In the ring a message is read before anything else comes in. -/
theorem noticed_circulate {origins : List Nat} {outgoing : List UInt8}
    {outcome : Except Fault (NatMap (Links G A))}
    (h : (circulate s tag own origins outgoing links).run.Path es (.done outcome)) :
    Noticed (own.Damaged s.registry) es outcome := by
  induction origins generalizing outgoing links es with
  | nil =>
    obtain ⟨rfl, -⟩ := h.of_done
    exact .of_nothing rfl _
  | cons origin origins ih =>
    obtain ⟨g, rfl, hpass⟩ | ⟨incoming, fs, gs, rfl, hpass, hround⟩ := h.cases_talk_bind
    · intro hsends payload hpayload f _
      exact ⟨g, rfl, .inr (Station.isCommunication_of_passOn hpass hsends hpayload)⟩
    · have hnoticed : Noticed (own.Damaged s.registry) fs
          (own.linksFrom s.registry incoming false) :=
        noticed_linksFrom (Station.payloads_passOn hpass)
      obtain ⟨g, rfl, hread⟩ | ⟨found, ts, us, rfl, hread, hrest⟩ := hround.cases_talk_bind
      · obtain ⟨rfl, he⟩ := hread.of_done
        rw [← Program.done.inj he] at hnoticed
        rw [List.append_nil]
        exact hnoticed.of_error
      · obtain ⟨rfl, hfound⟩ := hread.of_ofExcept
        rw [hfound] at hnoticed
        exact hnoticed.append (ih hrest)

theorem noticed_takeFrom {neighbour : Nat} {outcome : Except Fault (Option (Links G A))}
    (h : (takeFrom s tag own neighbour).run.Path es (.done outcome)) :
    Noticed (own.Damaged s.registry) es outcome := by
  cases takenFrom_of_path h with
  | unprobed | unreceived => exact .of_nothing rfl _
  | misfit =>
    intro _ _ _ _ _
    exact ⟨_, rfl, .inr ⟨_, _, rfl⟩⟩
  | read _ hread =>
    rw [← hread]
    exact noticed_linksFrom rfl

theorem noticed_swap {neighbours : List Nat} {message : List UInt8}
    {outcome : Except Fault (NatMap (Links G A))}
    (h : (swap s tag own neighbours message links).run.Path es (.done outcome)) :
    Noticed (own.Damaged s.registry) es outcome := by
  have htake : ∀ peer links es r, (hearFrom s tag own peer links).Path es (.done r) →
      Noticed (own.Damaged s.registry) es r.1 := by
    intro peer links es r hpath
    obtain ⟨found, htaken, houtcome, -⟩ := path_of_hearFrom hpath
    rw [houtcome]
    exact (noticed_takeFrom htaken).map _
  obtain ⟨result, final, hround, rfl⟩ := round_of_swap h
  exact (Exchange.round_noticed htake hround).map _

end Publication

namespace Rebuild

variable [LT G] [LT A] [DecidableEq G] [DecidableEq A] [DecidableLT G] [DecidableLT A]
  {b : Rebuild G A} {s : Station} {es : List Event}

/-- Links that may stand in the table of a rank. -/
structure Sound (b : Rebuild G A) (links : Links G A) : Prop where
  sendAscends : Ascending links.send
  receiveAscends : Ascending links.receive
  send : ∀ l ∈ links.send, b.ends.source.Publishes b.ignorePublic l.localKey
  receive : ∀ l ∈ links.receive, b.ends.dest.Publishes b.ignorePublic l.localKey

/-- Bytes that a rank reads as a message, and whether they are its own. -/
inductive Handles (b : Rebuild G A) (s : Station) (es : List Event) :
    List UInt8 → Bool → Prop where
  | heard {payload : List UInt8} (h : payload ∈ payloads es) : Handles b s es payload false
  | own {message : List UInt8} {route : Route} (hwants : b.wantsSelf = true)
      (hroute : { b.table with neighbours := b.neighbours s.rank }.route s.size = .ok route)
      (hpack : b.published.encode s.registry = .ok message) :
    Handles b s es message b.table.settings.includeSelf

theorem noticed_exchange {route : Route} {message : List UInt8} {start : NatMap (Links G A)}
    {outcome : Except Fault (NatMap (Links G A))}
    (h : (b.exchangeFrom s route message start).run.Path es (.done outcome)) :
    Noticed (b.published.Damaged s.registry) es outcome := by
  cases route with
  | ring => exact Publication.noticed_circulate h
  | neighbours => exact Publication.noticed_swap h

theorem noticed_collect {route : Route} {outcome : Except Fault (NatMap (Links G A))}
    (h : (LinkTable.collect s b.ends b.ignorePublic b.table.settings
      (b.neighbours s.rank) route).run.Path es
      (.done outcome)) : Noticed (b.published.Damaged s.registry) es outcome := by
  obtain ⟨rfl, -⟩ | ⟨message, loopBack, -, -, hexchange⟩ := cases_collect h
  · exact .of_nothing rfl _
  · exact noticed_exchange hexchange

theorem collect_own_damaged {route : Route} {message : List UInt8} {f : Fault}
    (hwants : b.wantsSelf = true) (hpack : b.published.encode s.registry = .ok message)
    (hbad : b.published.linksFrom s.registry message b.table.settings.includeSelf = .error f) :
    (LinkTable.collect s b.ends b.ignorePublic b.table.settings
      (b.neighbours s.rank) route).run =
      .done (.error f) := by
  rw [published] at hpack hbad
  rw [wantsSelf] at hwants
  simp only [LinkTable.collect, hwants, Bool.not_true, Bool.and_false, Bool.false_eq_true,
    if_false, hpack, Talk.ofExcept_bind, if_true, hbad]
  rfl

/-- A rebuild in which a message was handled that cannot be read ends with an empty table. -/
theorem ends_of_damaged (hsource : b.ends.source.phase = .ground)
    (hdest : b.ends.dest.phase = .ground) {r : Except Fault Unit × LinkTable G A}
    (h : (b.program s).Path es (.done r)) (hsends : PlainSends es) {buffer : List UInt8}
    {ownKeys : Bool} (hhandles : b.Handles s es buffer ownKeys) {f : Fault}
    (hbad : b.published.linksFrom s.registry buffer ownKeys = .error f) :
    ∃ g, r = b.settle s.rank (.error g) ∧ (g = f ∨ g.IsCommunication) := by
  cases hroute : { b.table with neighbours := b.neighbours s.rank }.route s.size with
  | error g =>
    cases hhandles with
    | own hwants hroute' hpack =>
      rw [hroute] at hroute'
      cases hroute'
    | heard hpayload =>
      rw [neighbours] at hroute
      simp only [program, LinkTable.rebuild, IndexSet.require, hsource, hdest,
        if_true, hroute] at h
      obtain ⟨rfl, -⟩ := h.of_done
      cases hpayload
  | ok route =>
    rw [program_eq b s hsource hdest hroute] at h
    obtain ⟨outcome, fs, gs, rfl, hcollect, hlast⟩ := h.of_bind
    obtain ⟨rfl, he⟩ := hlast.of_done
    cases he
    rw [List.append_nil] at hsends hhandles
    cases hhandles with
    | heard hpayload =>
      obtain ⟨g, rfl, hreport⟩ := noticed_collect hcollect hsends buffer hpayload f hbad
      exact ⟨g, rfl, hreport⟩
    | own hwants hroute' hpack =>
      rw [collect_own_damaged hwants hpack hbad] at hcollect
      obtain ⟨-, he⟩ := hcollect.of_done
      cases he
      exact ⟨f, rfl, .inl rfl⟩

variable [IsStrictTotalOrder G (· < ·)] [IsStrictTotalOrder A (· < ·)]

omit [Scalar G] [Role A] in
theorem sound_linksWith (b : Rebuild G A) (other : Publication G A) (ownKeys : Bool) :
    b.Sound (b.published.linksWith other ownKeys) := by
  obtain ⟨hsendAscends, hreceiveAscends⟩ :=
    Publication.ascending_linksWith b.published other ownKeys
  obtain ⟨hsend, hreceive⟩ := b.published.localKey_mem_linksWith other ownKeys
  exact ⟨hsendAscends, hreceiveAscends, fun l hl => mem_source_published.mp (hsend l hl),
    fun l hl => mem_destKeys_published.mp (hreceive l hl)⟩

theorem damage_contained [LawfulScalar G] [LawfulRole A] (hsource : b.ends.source.AtRest)
    (hdest : b.ends.dest.AtRest) (s : Station) :
    (∀ buffer ownKeys found, b.published.linksFrom s.registry buffer ownKeys = .ok found →
      (∃ other d, (Publication.unpack s.registry : Unpack (Publication G A)) (.start buffer) =
        (.ok other, d) ∧
        d.rest = []) ∧ ∀ links, found = some links → b.Sound links) ∧
    (s.registry.SpeaksFully G →
      (b.published.source.length ≤ Registry.maxCount →
        (b.published.dest.getD []).length ≤ Registry.maxCount →
        ∃ message, b.published.encode s.registry = .ok message) ∧
      ∀ message, b.published.encode s.registry = .ok message →
        Publication.decode s.registry message = .ok b.published ∧
          ∀ (own : Publication G A) ownKeys,
            Tight (fun buffer => own.linksFrom s.registry buffer ownKeys) message) ∧
    ∀ es r, (b.program s).Path es (.done r) → PlainSends es → ∀ buffer ownKeys,
      b.Handles s es buffer ownKeys →
      ∀ f, b.published.linksFrom s.registry buffer ownKeys = .error f →
        Reports f r.1 ∧ r.2.links = .empty ∧ ∀ source dest,
        r.2.isSynced source dest = false := by
  refine ⟨fun buffer ownKeys found hread => ⟨?_, ?_⟩,
    fun hspeaks => ⟨?_, fun message hpack => ⟨?_, ?_⟩⟩, ?_⟩
  · obtain ⟨other, hdecode, -⟩ := ok_of_bind hread
    obtain ⟨d, hunpack, hend⟩ := Unpack.exists_of_whole hdecode
    exact ⟨other, d, hunpack, hend⟩
  · rintro links rfl
    obtain ⟨other, -, rfl⟩ := Publication.exists_of_linksFrom hread
    exact b.sound_linksWith other ownKeys
  · exact Publication.encode_ok hspeaks _
  · rw [Publication.decode_encode hspeaks hpack]
    exact congrArg _ (ordered_published hsource.ascending hdest.ascending).heard_eq
  · intro own ownKeys
    exact (Publication.tight_decode hspeaks hpack).bind _
  · intro es r hpath hsends buffer ownKeys hhandles f hbad
    obtain ⟨g, rfl, hreport⟩ :=
      ends_of_damaged hsource.phase hdest.phase hpath hsends hhandles hbad
    exact ⟨⟨g, rfl, hreport⟩, rfl, fun _ _ => rfl⟩

def secondMessage : List UInt8 :=
  [1, 1, 0, 0, 0, 1, 0, 0, 0, 1, 0, 0, 0, 0, 0, 0, 0, 3, 2, 0, 0, 0, 0, 0, 0, 0, 3]

/-- The second rank takes a message that was cut off, and passes its own on. -/
def cutOff : List Event :=
  [⟨.receive 0 .rebuild, .ok [1, 0, 0]⟩, ⟨.post 2 .rebuild secondMessage, .ok ⟨2⟩⟩,
    ⟨.wait ⟨2⟩, .ok ()⟩]

theorem damage_contained_cutOff :
    (threeRanks 1).ends.source.AtRest ∧ (threeRanks 1).ends.dest.AtRest ∧
      (threeRanks 1).published.encode .basic = .ok secondMessage ∧
      Publication.decode .basic secondMessage = .ok (threeRanks 1).published ∧
      (∃ detail, (threeRanks 0).published.linksFrom .basic secondMessage.dropLast false =
        .error (.undecodable detail)) ∧
      ∃ r f, ((threeRanks 1).program ⟨1, 3, .basic⟩).Path cutOff (.done r) ∧ PlainSends cutOff ∧
        [1, 0, 0] ∈ payloads cutOff ∧ (threeRanks 1).published.linksFrom .basic
        [1, 0, 0] false = .error f ∧
        Reports f r.1 ∧ r.2.links = .empty := by
  obtain ⟨hsource, hdest⟩ := atRest_threeRanks 1
  obtain ⟨-, hmessage, hdamage⟩ := damage_contained hsource hdest ⟨1, 3, .basic⟩
  have hpack : (threeRanks 1).published.encode .basic = .ok secondMessage := rfl
  obtain ⟨hdecode, htight⟩ := (hmessage ⟨⟨rfl, rfl, rfl⟩, rfl⟩).2 secondMessage hpack
  have hcut :=
    (htight (threeRanks 0).published false).cut secondMessage.dropLast (List.dropLast_prefix _)
    (by decide)
  have hpath : ∃ r, ((threeRanks 1).program ⟨1, 3, .basic⟩).Path cutOff (.done r) :=
    ⟨_, .ask (.ask (.ask (.refl _)))⟩
  have hsends : PlainSends cutOff := by simp [PlainSends, cutOff, Event.sendFault?]
  have hheard : [1, 0, 0] ∈ payloads cutOff := List.mem_singleton.mpr rfl
  have hbad : ∃ f, (threeRanks 1).published.linksFrom .basic [1, 0, 0] false =
      .error f := ⟨_, rfl⟩
  obtain ⟨r, hpath⟩ := hpath
  obtain ⟨f, hbad⟩ := hbad
  obtain ⟨hreports, hlinks, -⟩ :=
    hdamage cutOff r hpath hsends [1, 0, 0] false (.heard hheard) f hbad
  exact ⟨hsource, hdest, hpack, hdecode, hcut, r, f, hpath, hsends, hheard, hbad,
    hreports, hlinks⟩

end Rebuild

end HaloIndex
