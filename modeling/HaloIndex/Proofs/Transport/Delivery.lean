import HaloIndex.Proofs.Transport.Interleaving

namespace HaloIndex

namespace Network

/-- The ranks make these calls one after the other. A rank that would have to wait may give up,
which changes nothing. -/
inductive Carries : Network → List (Nat × Event) → Network → Prop where
  | refl (n : Network) : Carries n [] n
  | answer {n n' m : Network} {rank : Nat} {r : Request} {a : r.Answer}
      {log : List (Nat × Event)}
      (hrank : rank < n.size) (h : n.perform rank r = some (a, n')) (rest : Carries n' log m) :
    Carries n ((rank, ⟨r, a⟩) :: log) m
  | giveUp {n m : Network} {rank : Nat} {r : Request} {log : List (Nat × Event)}
      (hrank : rank < n.size)
      (waited : Nat) (h : n.perform rank r = none) (rest : Carries n log m) :
    Carries n ((rank, ⟨r, .error (.timedOut waited)⟩) :: log) m

section Calls

variable {n n' : Network} {rank : Nat}

theorem moves_or_same {r : Request} {a : r.Answer} (hrank : rank < n.size)
    (h : n.perform rank r = some (a, n')) :
    (n.traffic.reply rank r = some a ∧ n'.traffic = n.traffic.after rank r) ∨
      n' = n ∧ ∀ c : Channel, c.dest < n.size →
        Event.posted c ⟨r, a⟩ = none ∧ Event.taken c ⟨r, a⟩ = none := by
  cases r with
  | post peer tag payload =>
    by_cases hpeer : peer < n.size
    · rw [perform, if_pos hpeer] at h
      cases h
      exact .inl ⟨if_pos hpeer, traffic_deliver n rank peer tag payload hpeer⟩
    · rw [perform, if_neg hpeer] at h
      cases h
      refine .inr ⟨rfl, fun c hdest => ⟨if_neg ?_, rfl⟩⟩
      rintro ⟨rfl, -⟩
      exact hpeer hdest
  | receive source tag =>
    obtain ⟨m, hm, -⟩ := Option.map_eq_some_iff.mp h
    have hready : (n.traffic.reply rank (.receive source tag)).isSome := by
      simpa [Traffic.reply, traffic] using channel_ne_nil_of_find? hm
    obtain ⟨b, hb⟩ := Option.isSome_iff_exists.mp hready
    obtain ⟨n'', hperform, htraffic⟩ := perform_of_reply hrank hb
    cases h.symm.trans hperform
    exact .inl ⟨hb, htraffic⟩
  | wait | queued =>
    cases h
    exact .inr ⟨rfl, fun _ _ => ⟨rfl, rfl⟩⟩
  | probe source tag =>
    obtain ⟨m, -, he⟩ := Option.map_eq_some_iff.mp h
    cases he
    exact .inr ⟨rfl, fun _ _ => ⟨rfl, rfl⟩⟩

theorem size_perform {r : Request} {a : r.Answer} (hrank : rank < n.size)
    (h : n.perform rank r = some (a, n')) : n'.size = n.size := by
  rcases moves_or_same hrank h with ⟨-, htraffic⟩ | ⟨rfl, -⟩
  · exact (congrArg Traffic.size htraffic).trans (Traffic.size_after ..)
  · rfl

/-- What a probe reports is the oldest message of a channel, and it stays there. -/
theorem oldest_of_probe {source : Source} {tag : Tag} {a : (Request.probe source tag).Answer}
    (h : n.perform rank (.probe source tag) = some (a, n')) : n' = n ∧ ∃ sender payload rest,
      a = .ok ⟨sender, payload.length⟩ ∧ source.admits sender = true ∧
        n.channel sender rank tag = payload :: rest := by
  obtain ⟨m, hm, he⟩ := Option.map_eq_some_iff.mp h
  cases he
  obtain ⟨hfits, before, after, hmailbox, hbefore⟩ := List.find?_eq_some_iff_append.mp hm
  rw [Bool.and_eq_true, beq_iff_eq] at hfits
  obtain ⟨rfl, hadmits⟩ := hfits
  -- An older message of the same sender would have been reported instead.
  have hnone : before.filter
      (fun other => other.source == m.source && other.tag == m.tag) = [] := by
    rw [List.filter_eq_nil_iff]
    intro other hother hsame
    rw [Bool.and_eq_true, beq_iff_eq, beq_iff_eq] at hsame
    have hno := hbefore other hother
    simp [hsame, hadmits] at hno
  have hchannel : n.channel m.source rank m.tag = m.payload ::
      (after.filter fun other => other.source == m.source && other.tag == m.tag).map
        (·.payload) := by
    rw [channel, hmailbox, List.filter_append, hnone, List.nil_append,
      List.filter_cons_of_pos (by simp), List.map_cons]
  exact ⟨rfl, m.source, m.payload, _, rfl, hadmits, hchannel⟩

theorem lt_size_of_channel {sender : Nat} {tag : Tag} {payload : List UInt8}
    {rest : List (List UInt8)} (h : n.channel sender rank tag = payload :: rest) :
    rank < n.size := by
  by_contra hrank
  rw [channel, mailbox, List.getElem?_eq_none (Nat.not_lt.mp hrank)] at h
  cases h

theorem receive_of_channel {sender : Nat} {tag : Tag} {payload : List UInt8}
    {rest : List (List UInt8)} (h : n.channel sender rank tag = payload :: rest) :
    ∃ n', n.perform rank (.receive sender tag) = some (.ok payload, n') := by
  have hfind : (n.mailbox rank).find? (fun m => m.tag == tag && m.source == sender) =
      some ⟨sender, tag, payload⟩ := find?_eq_some_of_channel (by rw [h, List.head?_cons])
  exact ⟨_, by rw [perform, hfind, Option.map_some]⟩

theorem perform_post_outside {size peer : Nat} (hsize : n.size = size)
    (hpeer : size ≤ peer) (tag : Tag) (payload : List UInt8) :
    n.perform rank (.post peer tag payload) =
      some (.error (.communication peer s!"rank out of range for a universe of {size}"), n) := by
  subst hsize
  rw [perform, if_neg (Nat.not_lt.mpr hpeer)]

end Calls

namespace Carries

variable {n m : Network} {log : List (Nat × Event)}

theorem size_eq (h : n.Carries log m) : m.size = n.size := by
  induction h with
  | refl => rfl
  | answer hrank hperform _ ih => rw [ih, size_perform hrank hperform]
  | giveUp _ _ _ _ ih => exact ih

theorem conserve (h : n.Carries log m) {c : Channel} (hdest : c.dest < n.size) :
    n.traffic.queue c ++ posted c (eventsOf c.source log) =
      taken c (eventsOf c.dest log) ++ m.traffic.queue c := by
  induction h with
  | refl => simp
  | @answer n n' m rank r a log hrank hperform _ ih =>
    have hlater := ih (by rwa [size_perform hrank hperform])
    rw [posted_eventsOf_cons, taken_eventsOf_cons, List.append_assoc, ← hlater,
      ← List.append_assoc, ← List.append_assoc]
    congr 1
    rcases moves_or_same hrank hperform with ⟨hreply, htraffic⟩ | ⟨rfl, hnone⟩
    · rw [htraffic]
      exact Traffic.conserve_step (e := ⟨r, a⟩) hreply c
    · obtain ⟨hposted, htaken⟩ := hnone c hdest
      simp [hposted, htaken]
  | @giveUp n m rank r log hrank waited hwaits _ ih =>
    have hposted : Event.posted c ⟨r, .error (.timedOut waited)⟩ = none := by
      cases r with
      | post peer tag payload =>
        rw [perform] at hwaits
        split at hwaits <;> cases hwaits
      | wait | probe | receive | queued => rfl
    have htaken : Event.taken c ⟨r, .error (.timedOut waited)⟩ = none := by
      cases r <;> rfl
    rw [posted_eventsOf_cons, taken_eventsOf_cons, hposted, htaken]
    simpa using ih hdest

theorem channel_kept (h : n.Carries log m) {c : Channel} (hdest : c.dest < n.size)
    (hnone : taken c (eventsOf c.dest log) = []) {payload : List UInt8}
    {rest : List (List UInt8)} (hchannel : n.channel c.source c.dest c.tag = payload :: rest) :
    ∃ rest', m.channel c.source c.dest c.tag = payload :: rest' := by
  have hqueue := h.conserve hdest
  rw [hnone, List.nil_append] at hqueue
  exact ⟨_, hqueue.symm.trans (congrArg (· ++ _) hchannel)⟩

end Carries

end Network

theorem Pool.Run.carries {α : Type} {n : Network} {f : Nat → Program α}
    {log : List (Nat × Event)} {q : Pool α} (h : Run (ofRanks n f) log q) :
    n.Carries log q.network := by
  generalize hp : ofRanks n f = p at h
  induction h generalizing n f with
  | refl =>
    subst hp
    exact .refl n
  | step hd _ ih =>
    subst hp
    obtain ⟨rank, hrank, r, next, a, n', hf, hperform, rfl, hq⟩ := hd.of_ofRanks
    exact .answer hrank hperform (ih (hq (Network.size_perform hrank hperform)).symm)

namespace Network

/-- Whatever the ranks call and in whatever order they are served: what was sent along a channel
is what was taken from it and what is still queued, in the order of sending. A probe removes
nothing, and until its rank takes it the message that was reported is the one that a receive
gets. A message to a rank that does not exist is refused and goes into no mailbox. -/
theorem carries_faithfully {size : Nat} {log : List (Nat × Event)} {n : Network}
    (h : (quiet size).Carries log n) :
    (∀ c : Channel, c.dest < size → posted c (eventsOf c.source log) =
      taken c (eventsOf c.dest log) ++ n.channel c.source c.dest c.tag) ∧
    (∀ rank source tag a n', n.perform rank (.probe source tag) = some (a, n') → n' = n ∧
      ∃ sender payload, a = .ok ⟨sender, payload.length⟩ ∧ source.admits sender = true ∧
        ∀ more m, n.Carries more m → taken ⟨sender, rank, tag⟩ (eventsOf rank more) = [] →
          ∃ m', m.perform rank (.receive sender tag) = some (.ok payload, m')) ∧
    ∀ rank peer tag payload, size ≤ peer → n.perform rank (.post peer tag payload) =
      some (.error (.communication peer s!"rank out of range for a universe of {size}"), n) := by
  refine ⟨fun c hdest => ?_, fun rank source tag a n' hprobe => ?_,
    fun rank peer tag payload hpeer => ?_⟩
  · have hqueue := h.conserve (c := c) (by rwa [size_quiet])
    rw [traffic_quiet, List.nil_append] at hqueue
    exact hqueue
  · obtain ⟨hsame, sender, payload, rest, ha, hadmits, hchannel⟩ := oldest_of_probe hprobe
    refine ⟨hsame, sender, payload, ha, hadmits, fun more m hmore hnone => ?_⟩
    have hrank : rank < n.size := lt_size_of_channel hchannel
    obtain ⟨rest', hkept⟩ := hmore.channel_kept (c := ⟨sender, rank, tag⟩) hrank hnone hchannel
    exact receive_of_channel hkept
  · exact perform_post_outside (h.size_eq.trans (size_quiet size)) hpeer tag payload

/-- The middle rank of three is sent messages by both others. It takes one out of the middle of
its mailbox and gives up waiting for another. -/
def crossTalk : List (Nat × Event) :=
  [(0, .sent 1 8 [9]), (2, .sent 1 7 [5, 5]), (0, .sent 1 7 [1]), (0, .sent 1 7 [2]),
    (0, ⟨.post 4 7 [3], .error (.communication 4 "rank out of range for a universe of 3")⟩),
    (1, .received 0 7 [1]), (1, ⟨.receive 2 8, .error (.timedOut 0)⟩)]

theorem carries_faithfully_crossTalk : ∃ n, (quiet 3).Carries crossTalk n ∧
    posted ⟨0, 1, 7⟩ (eventsOf 0 crossTalk) = [[1], [2]] ∧
    taken ⟨0, 1, 7⟩ (eventsOf 1 crossTalk) = [[1]] ∧ n.channel 0 1 7 = [[2]] ∧
    n.perform 1 (.probe .anyone 7) = some (.ok ⟨2, 2⟩, n) ∧
    ∀ more m, n.Carries more m → taken ⟨2, 1, 7⟩ (eventsOf 1 more) = [] →
      ∃ m', m.perform 1 (.receive 2 7) = some (.ok [5, 5], m') := by
  have hcarries : (quiet 3).Carries crossTalk
      ⟨[[], [⟨0, 8, [9]⟩, ⟨2, 7, [5, 5]⟩, ⟨0, 7, [2]⟩], []]⟩ :=
    .answer (by decide) rfl
      (.answer (by decide) rfl (.answer (by decide) rfl (.answer (by decide) rfl
      (.answer (by decide) rfl
        (.answer (by decide) rfl (.giveUp (by decide) 0 rfl (.refl _)))))))
  obtain ⟨hchannels, hprobes, -⟩ := carries_faithfully hcarries
  have hposted : posted ⟨0, 1, 7⟩ (eventsOf 0 crossTalk) = [[1], [2]] := by decide
  have htaken : taken ⟨0, 1, 7⟩ (eventsOf 1 crossTalk) = [[1]] := by decide
  have hqueue := hchannels ⟨0, 1, 7⟩ (by decide)
  rw [hposted, htaken, List.singleton_append, List.cons.injEq] at hqueue
  obtain ⟨-, sender, payload, ha, -, hnext⟩ := hprobes 1 .anyone 7 _ _ rfl
  obtain ⟨rfl, -⟩ := Envelope.mk.inj (Except.ok.inj ha)
  -- To see which message was meant, take it at once.
  obtain ⟨m', htake⟩ := hnext [] _ (.refl _) rfl
  cases htake
  exact ⟨_, hcarries, hposted, htaken, hqueue.2.symm, rfl, hnext⟩

end Network

end HaloIndex
