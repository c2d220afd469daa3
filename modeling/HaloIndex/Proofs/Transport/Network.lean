import HaloIndex.Proofs.Transport.Traffic

namespace HaloIndex

namespace Network

def traffic (n : Network) : Traffic := ⟨n.size, fun c => n.channel c.source c.dest c.tag⟩

@[simp]
theorem size_quiet (size : Nat) : (quiet size).size = size := List.length_replicate

theorem traffic_quiet (size : Nat) : (quiet size).traffic = ⟨size, fun _ => []⟩ := by
  refine Traffic.ext (size_quiet size) (funext fun c => ?_)
  change (quiet size).channel c.source c.dest c.tag = []
  have hmailbox : (quiet size).mailbox c.dest = [] := by
    rw [mailbox, quiet, List.getElem?_replicate]
    split <;> rfl
  rw [channel, hmailbox]
  rfl

theorem eq_quiet_of_traffic {n : Network} {size : Nat} (h : n.traffic = (quiet size).traffic) :
    n = .quiet size := by
  rw [traffic_quiet] at h
  have hsize : n.mailboxes.length = size := congrArg Traffic.size h
  suffices hempty : ∀ messages ∈ n.mailboxes, messages = [] by
    have hall := List.eq_replicate_iff.mpr ⟨hsize, hempty⟩
    obtain ⟨mailboxes⟩ := n
    exact congrArg mk hall
  intro messages hmessages
  obtain ⟨rank, hrank, rfl⟩ := List.mem_iff_getElem.mp hmessages
  apply List.eq_nil_iff_forall_not_mem.mpr
  intro m hm
  have hqueue : n.channel m.source rank m.tag = [] :=
    congrFun (congrArg Traffic.queue h) ⟨m.source, rank, m.tag⟩
  rw [channel, mailbox, List.getElem?_eq_getElem hrank, Option.getD_some, List.map_eq_nil_iff,
    List.filter_eq_nil_iff] at hqueue
  exact hqueue m hm (by simp)

theorem mailbox_deliver (n : Network) (rank dest : Nat) (m : Message)
    (h : rank < n.mailboxes.length) : (n.deliver rank m).mailbox dest =
      if dest = rank then n.mailbox dest ++ [m] else n.mailbox dest := by
  unfold mailbox deliver
  rw [List.getElem?_modify]
  split
  next heq =>
    subst heq
    simp [List.getElem?_eq_getElem h]
  next hne =>
    rw [if_neg (Ne.symm hne)]
    simp

theorem mailbox_withMailbox (n : Network) (rank dest : Nat) (ms : List Message)
    (h : rank < n.mailboxes.length) :
    (n.withMailbox rank ms).mailbox dest = if dest = rank then ms else n.mailbox dest := by
  unfold mailbox withMailbox
  rw [List.getElem?_set]
  split
  next heq => rw [if_pos heq.symm, Option.getD_some]
  next hne => rw [if_neg (Ne.symm hne)]

theorem traffic_deliver (n : Network) (rank peer : Nat) (tag : Tag) (payload : List UInt8)
    (h : peer < n.size) : (n.deliver peer ⟨rank, tag, payload⟩).traffic =
      n.traffic.push ⟨rank, peer, tag⟩ payload := by
  refine Traffic.ext (by simp [traffic, deliver, size, Traffic.push]) (funext fun c => ?_)
  obtain ⟨source, dest, tag'⟩ := c
  simp only [traffic, channel, Traffic.push, mailbox_deliver n peer dest _ h,
    Function.update_apply]
  grind

theorem eraseP_filter_map (ms : List Message) (p : Message → Bool) :
    ((ms.eraseP p).filter p).map (·.payload) = ((ms.filter p).map (·.payload)).tail := by
  induction ms with
  | nil => rfl
  | cons m ms ih => by_cases h : p m <;> simp [h, ih]

theorem filter_eraseP_of_disjoint (ms : List Message) {p q : Message → Bool}
    (h : ∀ m, p m = true → q m = false) : (ms.eraseP p).filter q = ms.filter q := by
  induction ms with
  | nil => rfl
  | cons m ms ih =>
    by_cases hp : p m
    · simp [hp, h m hp]
    · simp [hp, List.filter_cons, ih]

theorem traffic_take (n : Network) (rank source : Nat) (tag : Tag) (h : rank < n.size) :
    (n.withMailbox rank
      ((n.mailbox rank).eraseP fun m => m.tag == tag && m.source == source)).traffic =
      n.traffic.pop ⟨source, rank, tag⟩ := by
  refine Traffic.ext (by simp [traffic, withMailbox, size, Traffic.pop]) (funext fun c => ?_)
  obtain ⟨source', dest, tag'⟩ := c
  simp only [traffic, channel, Traffic.pop, mailbox_withMailbox n rank dest _ h]
  by_cases hc : (⟨source', dest, tag'⟩ : Channel) = ⟨source, rank, tag⟩
  · cases hc
    have hfun : (fun m : Message => m.source == source && m.tag == tag) =
        fun m => m.tag == tag && m.source == source := by
      funext m
      rw [Bool.and_comm]
    simp only [if_true, Function.update_self, hfun, eraseP_filter_map]
  · rw [Function.update_of_ne hc]
    split
    next hd =>
      subst hd
      rw [filter_eraseP_of_disjoint]
      grind
    next => rfl

theorem find?_eq_some_of_channel {n : Network} {source rank : Nat} {tag : Tag}
    {payload : List UInt8} (h : (n.channel source rank tag).head? = some payload) :
    (n.mailbox rank).find? (fun m => m.tag == tag && m.source == source) =
      some ⟨source, tag, payload⟩ := by
  unfold channel at h
  rw [List.head?_map, List.head?_filter] at h
  obtain ⟨m, hm, rfl⟩ := Option.map_eq_some_iff.mp h
  have hfun : (fun m : Message => m.tag == tag && m.source == source) =
      fun m => m.source == source && m.tag == tag := by
    funext m
    rw [Bool.and_comm]
  have hboth := List.find?_some hm
  rw [Bool.and_eq_true, beq_iff_eq, beq_iff_eq] at hboth
  obtain ⟨source', tag', payload⟩ := m
  obtain ⟨rfl, rfl⟩ := hboth
  rw [hfun, hm]

theorem perform_of_reply {n : Network} {rank : Nat} (hrank : rank < n.size) {r : Request}
    {a : r.Answer} (h : n.traffic.reply rank r = some a) :
    ∃ n', n.perform rank r = some (a, n') ∧ n'.traffic = n.traffic.after rank r := by
  cases r with
  | post peer tag payload =>
    by_cases hpeer : peer < n.size
    · rw [Traffic.reply, traffic, if_pos hpeer] at h
      cases h
      exact ⟨_, by rw [perform, if_pos hpeer], traffic_deliver n rank peer tag payload hpeer⟩
    · rw [Traffic.reply, traffic, if_neg hpeer] at h
      cases h
  | wait handle =>
    cases h
    exact ⟨n, rfl, rfl⟩
  | probe source tag =>
    cases source with
    | anyone => cases h
    | rank source =>
      obtain ⟨m, hm, rfl⟩ := Option.map_eq_some_iff.mp h
      refine ⟨n, ?_, rfl⟩
      have hfun : (fun m : Message => m.tag == tag && (Source.rank source).admits m.source) =
          fun m => m.tag == tag && m.source == source := by
        funext m
        simp only [Source.admits, Bool.beq_comm]
      simp only [perform, hfun, find?_eq_some_of_channel hm]
      rfl
  | receive source tag =>
    obtain ⟨m, hm, rfl⟩ := Option.map_eq_some_iff.mp h
    refine ⟨_, ?_, traffic_take n rank source tag hrank⟩
    simp only [perform, find?_eq_some_of_channel hm]
    rfl
  | queued => cases h

theorem channel_ne_nil_of_find? {n : Network} {source rank : Nat} {tag : Tag} {m : Message}
    (h : (n.mailbox rank).find? (fun m => m.tag == tag && m.source == source) = some m) :
    n.channel source rank tag ≠ [] := by
  have hboth := List.find?_some h
  have hmem := List.mem_of_find?_eq_some h
  rw [Bool.and_comm] at hboth
  unfold channel
  exact List.ne_nil_of_mem (List.mem_map_of_mem (List.mem_filter.mpr ⟨hmem, hboth⟩))

/-- If a request can be answered at some time without looking across channels, then whenever the
network answers it, the traffic does too. -/
theorem reply_isSome_of_perform {n n' : Network} {rank : Nat} {r : Request} {a : r.Answer}
    (h : n.perform rank r = some (a, n')) {t : Traffic} (ht : t.size = n.size)
    (hlater : (t.reply rank r).isSome) : (n.traffic.reply rank r).isSome := by
  cases r with
  | post peer tag payload =>
    unfold Traffic.reply at hlater ⊢
    rwa [ht] at hlater
  | wait handle => rfl
  | probe source tag =>
    cases source with
    | anyone => cases hlater
    | rank source =>
      obtain ⟨m, hm, _⟩ := Option.map_eq_some_iff.mp h
      have hfun : (fun m : Message => m.tag == tag && (Source.rank source).admits m.source) =
          fun m => m.tag == tag && m.source == source := by
        funext m
        simp only [Source.admits, Bool.beq_comm]
      rw [hfun] at hm
      simpa [Traffic.reply, traffic] using channel_ne_nil_of_find? hm
  | receive source tag =>
    obtain ⟨m, hm, _⟩ := Option.map_eq_some_iff.mp h
    simpa [Traffic.reply, traffic] using channel_ne_nil_of_find? hm
  | queued => cases hlater

end Network

end HaloIndex
