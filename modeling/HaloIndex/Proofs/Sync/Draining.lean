import HaloIndex.Proofs.Sync.Atomic
import HaloIndex.Proofs.Transport.Drain

namespace HaloIndex

theorem NatMap.pairwise_keys {β : Type} (m : NatMap β) : m.keys.Pairwise (· < ·) :=
  List.pairwise_map.mpr m.ascending

namespace Sync

variable {G A : Type} [Scalar G] [Role A] {s : Station} {tag : Tag} {es : List Event}

inductive Taken (G A : Type) [Scalar G] [Role A] (registry : Registry) (tag : Tag) (peer : Nat) :
    List Event → Except Fault Unit → Prop where
  | unreceived (f : Fault) :
    Taken G A registry tag peer [⟨.receive peer tag, .error f⟩] (.error f)
  | read (payload : List UInt8) : Taken G A registry tag peer [⟨.receive peer tag, .ok payload⟩]
      ((Announcement.decode registry payload : Except Fault (List (Announcement G A))).map
        fun _ => ())

theorem quiet_taken (registry : Registry) (tag : Tag) :
    Exchange.Quiet (Taken G A registry tag) := by
  intro peer es outcome h
  cases h <;> exact ⟨rfl, rfl⟩

variable [LT G] [LT A] [DecidableEq G] [DecidableEq A] [DecidableLT G] [DecidableLT A]

/-- How a sync goes: it is refused before anything is said, or it is a round with the ranks that
are linked to. -/
inductive Goes (b : Sync G A) (s : Station) (settings : SyncSettings) (es : List Event)
    (outcome : Except Fault Unit) : Prop where
  | refused {f : Fault} (h : b.table.checkSyncable b.set = .error f) (hes : es = [])
    (hout : outcome = .error f)
  | exchanged {log : List Exchange.Attempt} (h : b.table.checkSyncable b.set = .ok ())
      (hlog : Exchange.Drains settings.tag
        (fun peer => Announcement.encode s.registry (b.told peer))
        (Taken G A s.registry settings.tag) (b.peers s.rank) es outcome log)

variable [IsStrictTotalOrder G (· < ·)] [IsStrictTotalOrder A (· < ·)]

theorem taken_of_path {numbering : Numbering G} {peer : Nat} {d : Discovery G A}
    (hd : d.set.phase = .resize) {r : Except Fault Unit × Discovery G A}
    (h : (LinkTable.takeAnnouncements s tag numbering peer d).Path es (.done r)) :
    Taken G A s.registry tag peer es r.1 ∧ r.2.set.phase = .resize := by
  obtain ⟨f, rfl, rfl⟩ | ⟨payload, rfl, hread⟩ := cases_takeAnnouncements h
  · exact ⟨.unreceived f, hd⟩
  have htaken : Taken G A s.registry tag peer [⟨.receive peer tag, .ok payload⟩]
      ((Announcement.decode s.registry payload : Except Fault (List (Announcement G A))).map
        fun _ => ()) :=
    .read payload
  obtain ⟨f, hdecode, rfl⟩ | ⟨as, hdecode, rfl⟩ := hread
  · rw [hdecode] at htaken
    exact ⟨htaken, hd⟩
  · obtain ⟨hok, hphase⟩ := (Discovery.adoptAll_adopts s.rank peer numbering as).ok d hd
    rw [hdecode] at htaken
    rw [hok]
    exact ⟨htaken, hphase⟩

theorem goes_of_path {b : Sync G A} {settings : SyncSettings} {r : SyncResult G A}
    (h : (b.program s settings).Path es (.done r)) : b.Goes s settings es r.outcome := by
  cases hcheck : b.table.checkSyncable b.set with
  | error f =>
    have hrefused := atomic_of_refused hcheck h
    obtain ⟨hout, -, hes, -⟩ := hrefused.refused f hcheck
    exact .refused hcheck hes hout
  | ok =>
    rw [program_eq hcheck] at h
    obtain ⟨⟨outcome, d⟩, fs, gs, rfl, hround, hlast⟩ := h.of_bind
    obtain ⟨rfl, he⟩ := hlast.of_done
    cases he
    rw [List.append_nil]
    have htake : ∀ peer d es r, d.set.phase = .resize →
        (LinkTable.takeAnnouncements s settings.tag b.numbering peer d).Path es (.done r) →
        Taken G A s.registry settings.tag peer es r.1 ∧ r.2.set.phase = .resize :=
      fun _ _ _ _ hd hpath => taken_of_path hd hpath
    obtain ⟨hopen, log, hlog⟩ :=
      Exchange.round_drains (quiet_taken s.registry settings.tag) htake
      (b.known.erase s.rank).pairwise_keys rfl hround
    have houtcome : (b.settle outcome d).outcome = outcome := by
      cases outcome with
      | error => rfl
      | ok => rw [settle_ok (IndexSet.commit_eq hopen)]
    rw [houtcome]
    exact .exchanged hcheck hlog

end Sync

end HaloIndex
