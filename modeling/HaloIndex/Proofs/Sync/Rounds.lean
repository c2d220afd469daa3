import HaloIndex.Proofs.Sync.Closure
import HaloIndex.Proofs.Transport.Prefix
import Mathlib.Data.Fintype.Powerset
import Mathlib.Order.OrderIsoNat

namespace HaloIndex

variable {G A : Type}

namespace Sync

section Rounds

variable [Scalar G] [Role A] [LT G] [LT A] [DecidableEq G] [DecidableEq A] [DecidableLT G]
  [DecidableLT A]

/-- What the ranks have after a number of syncs. -/
def after (numbering : Nat → Nat → Numbering G) (b : Nat → Sync G A) : Nat → Nat → Sync G A
  | 0 => b
  | k + 1 => again (ending (after numbering b k)) (numbering k)

def history (numbering : Nat → Nat → Numbering G) (b : Nat → Sync G A) (k rank : Nat) :
    List (SyncResult G A) × Sync G A :=
  ((List.range k).map fun i => ending (after numbering b i) rank, after numbering b k rank)

/-- Sync a number of times, and each time go on from where the last one ended. -/
def keepOn (s : Station) (settings : SyncSettings) (numbering : Nat → Numbering G) :
    Nat → List (SyncResult G A) × Sync G A → Program (List (SyncResult G A) × Sync G A)
  | 0, course => return course
  | k + 1, (results, b) => do
    let r ← b.program s settings
    keepOn s settings numbering k (results ++ [r], ⟨r.table, r.set, numbering results.length⟩)

def repeated (n : Network) (registry : Nat → Registry) (settings : SyncSettings)
    (numbering : Nat → Nat → Numbering G) (b : Nat → Sync G A) (k : Nat) :
    Pool (List (SyncResult G A) × Sync G A) :=
  .ofRanks n fun rank =>
    keepOn ⟨rank, n.size, registry rank⟩ settings (fun i => numbering i rank) k
    ([], b rank)

theorem keepOn_add (s : Station) (settings : SyncSettings)
    (numbering : Nat → Numbering G) (j k : Nat) (course : List (SyncResult G A) × Sync G A) :
    keepOn s settings numbering (j + k) course =
      keepOn s settings numbering j course >>= keepOn s settings numbering k := by
  induction j generalizing course with
  | zero => rw [Nat.zero_add, keepOn, pure_bind]
  | succ j ih =>
    rw [Nat.succ_add, keepOn, keepOn, bind_assoc]
    simp only [ih]

theorem keepOn_keeps (s : Station) (settings : SyncSettings)
    (numbering : Nat → Numbering G) (k : Nat) (course : List (SyncResult G A) × Sync G A)
    {r : SyncResult G A} (hr : r ∈ course.1) :
    (keepOn s settings numbering k course).Always fun course => r ∈ course.1 := by
  induction k generalizing course with
  | zero => exact hr
  | succ k ih =>
    apply (Program.always_of_forall (P := fun _ => True) (fun _ => trivial) _).bind
    exact fun _ _ => ih _ (List.mem_append_left _ hr)

theorem keepOn_stops {s : Station} {settings : SyncSettings} {b : Sync G A}
    (h : (b.program s settings).Always fun r => r.outcome ≠ .ok ())
    (numbering : Nat → Numbering G) (k : Nat) (results : List (SyncResult G A)) :
    (keepOn s settings numbering (k + 1) (results, b)).Always
      fun course => ∃ r ∈ course.1, r.outcome ≠ .ok () := by
  apply h.bind
  intro r hr
  have hkept := keepOn_keeps s settings numbering k
    (results ++ [r], ⟨r.table, r.set, numbering results.length⟩) (List.mem_concat_self ..)
  exact hkept.mono fun _ hmem => ⟨r, hmem, hr⟩

end Rounds

variable [Scalar G] [Role A] [LT G] [LT A] [DecidableEq G] [DecidableEq A] [DecidableLT G]
  [DecidableLT A] [IsStrictTotalOrder G (· < ·)] [IsStrictTotalOrder A (· < ·)]
  {numbering : Nat → Nat → Numbering G}

theorem Ready.exact {size : Nat} {b : Nat → Sync G A} (h : Ready size b) :
    ∀ rank < size, Exact b rank (ending b rank) :=
  fun _ hrank => exact_settle h.syncs h.tidy hrank

theorem Ready.after {size : Nat} {b : Nat → Sync G A} (h : Ready size b)
    (numbering : Nat → Nat → Numbering G) (k : Nat) : Ready size (after numbering b k) := by
  induction k with
  | zero => exact h
  | succ k ih => exact ih.again ih.exact (numbering k)

section Runs

variable [LawfulScalar G] [LawfulRole A] {n : Network} {registry : Nat → Registry}
  {settings : SyncSettings} {b : Nat → Sync G A}

theorem keepOn_concludes (h : Ready n.size b)
    (hclear : ∀ source < n.size, ∀ dest < n.size, n.channel source dest settings.tag = [])
    (hspeaks : ∀ rank < n.size, (registry rank).Speaks G)
    (numbering : Nat → Nat → Numbering G) (j k : Nat)
    (hpack : ∀ i < j + k, Packs n.size registry (after numbering b i)) :
    ∃ es, Concludes n.traffic (fun rank => keepOn ⟨rank, n.size, registry rank⟩ settings
      (fun i => numbering i rank) k (history numbering b j rank)) es (history numbering b
      (j + k)) := by
  induction k generalizing j with
  | zero => exact ⟨_, .of_done fun _ _ => rfl⟩
  | succ k ih =>
    obtain ⟨es, hfirst⟩ :=
      sync_concludes (t := n.traffic) settings (h.after numbering j).syncs hclear
      hspeaks (hpack j (by omega))
    obtain ⟨fs, hrest⟩ := ih (j + 1) fun i hi => hpack i (by omega)
    have hnext : ∀ rank, history numbering b (j + 1) rank =
        ((history numbering b j rank).1 ++ [ending (after numbering b j) rank],
          ⟨(ending (after numbering b j) rank).table, (ending (after numbering b j) rank).set,
            numbering (history numbering b j rank).1.length rank⟩) := by
      intro rank
      simp [history, List.range_succ, after, again]
    simp only [hnext, Nat.add_assoc, Nat.add_comm 1 k] at hrest
    exact ⟨_, hfirst.bind hrest⟩

theorem inevitable_repeated (h : Ready n.size b)
    (hclear : ∀ source < n.size, ∀ dest < n.size, n.channel source dest settings.tag = [])
    (hspeaks : ∀ rank < n.size, (registry rank).Speaks G) {k : Nat}
    (hpack : ∀ i < k, Packs n.size registry (after numbering b i)) :
    (repeated n registry settings numbering b k).Inevitable fun q =>
      q.results = (List.range n.size).map (history numbering b k) ∧
      q.network.traffic = n.traffic := by
  obtain ⟨es, hconcludes⟩ := keepOn_concludes h hclear hspeaks numbering 0 k
    (by simpa using hpack)
  rw [Nat.zero_add] at hconcludes
  exact hconcludes.inevitable.mono fun q hq => ⟨hq.1, hq.2.2⟩

/-- If all syncs of all ranks ended well, every message could be packed. -/
theorem packs_of_repeated (h : Ready n.size b)
    (hclear : ∀ source < n.size, ∀ dest < n.size, n.channel source dest settings.tag = [])
    (hspeaks : ∀ rank < n.size, (registry rank).Speaks G) {k : Nat}
    {q : Pool (List (SyncResult G A) × Sync G A)}
    (hq : Relation.ReflTransGen Pool.Step (repeated n registry settings numbering b k) q)
    (hdone : ∀ task ∈ q.tasks, ∃ course, task.program = .done course ∧
      ∀ r ∈ course.1, r.outcome = .ok ()) :
    ∀ j < k, Packs n.size registry (after numbering b j) := by
  intro j hj
  induction j using Nat.strongRecOn with
  | ind j ih =>
    intro rank hrank peer hpeer
    cases hencode :
        Announcement.encode (registry rank) ((after numbering b j rank).told peer) with
    | ok bytes => exact ⟨bytes, rfl⟩
    | error f =>
      -- The earlier syncs end as they should, so this one meets the message that is too large.
      obtain ⟨es, hconcludes⟩ := keepOn_concludes h hclear hspeaks numbering 0 j
        fun i hi => ih i (by omega) (by omega)
      rw [Nat.zero_add] at hconcludes
      have hstops := program_stops (h.after numbering j).syncs hrank
        (s := ⟨rank, n.size, registry rank⟩) rfl settings hpeer hencode
      have hfails := keepOn_stops hstops (fun i => numbering i rank) (k - j - 1)
        (history numbering b j rank).1
      obtain ⟨m, rfl⟩ : ∃ m, k = j + (m + 1) := ⟨k - j - 1, by omega⟩
      rw [show j + (m + 1) - j - 1 = m by omega] at hfails
      simp only [repeated, keepOn_add] at hq
      obtain ⟨course, ⟨r, hr, hbad⟩, hall⟩ := hconcludes.exists_ended hrank hfails hq hdone
      exact absurd (hall r hr) hbad

/-- However the ranks are interleaved while they sync this many times, if all syncs end well they
end as in these rounds; and all do end well unless a message is too large to be packed. -/
structure Performs (n : Network) (registry : Nat → Registry) (settings : SyncSettings)
    (numbering : Nat → Nat → Numbering G) (b : Nat → Sync G A) (k : Nat) : Prop where
  ok : ∀ rank < n.size, ∀ r ∈ (history numbering b k rank).1, r.outcome = .ok ()
  ofDone : ∀ q, Relation.ReflTransGen Pool.Step (repeated n registry settings numbering b k) q →
    (∀ task ∈ q.tasks, ∃ course, task.program = .done course ∧
      ∀ r ∈ course.1, r.outcome = .ok ()) →
    q.results = (List.range n.size).map (history numbering b k) ∧ q.network.traffic = n.traffic
  inevitable : (∀ i < k, Packs n.size registry (after numbering b i)) →
    (repeated n registry settings numbering b k).Inevitable fun q =>
      q.results = (List.range n.size).map (history numbering b k) ∧ q.network.traffic = n.traffic

theorem performs (h : Ready n.size b)
    (hclear : ∀ source < n.size, ∀ dest < n.size, n.channel source dest settings.tag = [])
    (hspeaks : ∀ rank < n.size, (registry rank).Speaks G)
    (numbering : Nat → Nat → Numbering G) (k : Nat) :
    Performs n registry settings numbering b k := by
  constructor
  case ok =>
    intro rank hrank r hr
    obtain ⟨i, -, rfl⟩ := List.mem_map.mp hr
    exact ((h.after numbering i).exact rank hrank).ok
  case ofDone =>
    intro q hq hdone
    have hpack := packs_of_repeated h hclear hspeaks hq hdone
    refine ((inevitable_repeated h hclear hspeaks hpack).stops q hq).resolve_left ?_
    exact Pool.not_step_of_done fun task htask => (hdone task htask).imp fun _ h => h.1
  case inevitable => exact fun hpack => inevitable_repeated h hclear hspeaks hpack

end Runs

section Limit

variable {size : Nat} {b : Nat → Sync G A} {p q : Nat} {l : Link G A}

theorem implied_after_iff (h : Ready size b) (numbering : Nat → Nat → Numbering G) (k : Nat) :
    Implied size (after numbering b k) p q l ↔ Implied size b p q l := by
  induction k with
  | zero => rfl
  | succ k ih =>
    exact (implied_again_iff (h.after numbering k) (h.after numbering k).exact _).trans ih

theorem mem_after_succ (h : Ready size b) (hp : p < size) {k : Nat}
    (hl : l ∈ (after numbering b k p).table.sendTo q) :
    l ∈ (after numbering b (k + 1) p).table.sendTo q :=
  (((h.after numbering k).exact p hp).links q l).mpr (.inl hl)

/-- From some round on no rank learns of another link. -/
theorem exists_settled (h : Ready size b) (numbering : Nat → Nat → Numbering G) :
    ∃ N, ∀ k ≥ N, ∀ p < size,
    ∀ q, ∀ l ∈ (after numbering b (k + 1) p).table.sendTo q,
    l ∈ (after numbering b k p).table.sendTo q := by
  have hbound : Finite {e : Nat × Nat × Link G A | Implied size b e.1 e.2.1 e.2.2} :=
    (finite_implied h.syncs.inRange).to_subtype
  have hgrows : Monotone fun k =>
      {e : {e : Nat × Nat × Link G A | Implied size b e.1 e.2.1 e.2.2} |
      e.1.1 < size ∧ e.1.2.2 ∈ (after numbering b k e.1.1).table.sendTo e.1.2.1} :=
    monotone_nat_of_le_succ fun k e he => ⟨he.1, mem_after_succ h he.1 he.2⟩
  obtain ⟨N, hN⟩ := WellFoundedGT.monotone_chain_condition ⟨_, hgrows⟩
  refine ⟨N, fun k hk p hp q l hl => ?_⟩
  have himplied := (implied_after_iff h numbering (k + 1)).mp (.known hp hl)
  have hsame := (hN (k + 1) (by omega)).symm.trans (hN k hk)
  have hmem := hsame.subset (show ⟨(p, q, l), himplied⟩ ∈ _ from ⟨hp, hl⟩)
  exact hmem.2

theorem mem_keys_after (h : Ready size b) (hp : p < size) (k : Nat) {key : Key G A} :
    key ∈ (after numbering b k p).set.keys ↔ key ∈ (b p).set.keys ∨
      ∃ q, ∃ l ∈ (after numbering b k p).table.sendTo q, l.localKey = key := by
  induction k with
  | zero =>
    refine (or_iff_left_of_imp fun ⟨q, l, hl, hkey⟩ => ?_).symm
    exact hkey ▸ localKey_mem_of_checked h.syncs h.tidy hp hl
  | succ k ih =>
    have hnext :=
      Exact.mem_keys_iff (h.after numbering k) hp ((h.after numbering k).exact p hp) (k := key)
    refine hnext.trans ?_
    rw [ih, or_assoc]
    refine or_congr_right (or_iff_right_of_imp fun ⟨q, l, hl, hkey⟩ => ?_)
    exact ⟨q, l, mem_after_succ h hp hl, hkey⟩

/-- The ranks have all links that follow from what was known in the beginning, and the keys of
these links, and nothing else. -/
structure Closed (size : Nat) (b c : Nat → Sync G A) : Prop where
  links : ∀ p < size, ∀ q l, l ∈ (c p).table.sendTo q ↔ Implied size b p q l
  keys : ∀ p < size, ∀ key, key ∈ (c p).set.keys ↔ key ∈ (b p).set.keys ∨
    ∃ q l, Implied size b p q l ∧ l.localKey = key

theorem closed_of_unchanged (h : Ready size b) {k : Nat}
    (hsame : ∀ rank < size,
      Unchanged (after numbering b k rank) (after numbering b (k + 1) rank)) :
    Closed size b (after numbering b k) := by
  have hk := h.after numbering k
  have hlinks : ∀ p < size, ∀ q l, l ∈ (after numbering b k p).table.sendTo q ↔
      Implied size b p q l := by
    intro p hp q l
    constructor
    · exact fun hl => (implied_after_iff h numbering k).mp (.known hp hl)
    · intro hl
      have hkept : ∀ p < size, ∀ q, ∀ l ∈ (ending (after numbering b k) p).table.sendTo q,
          l ∈ (after numbering b k p).table.sendTo q := by
        intro p hp q l hl
        rw [← (hsame p hp).sendTo q]
        exact hl
      exact (Exact.mem_of_implied hk hk.exact hkept
        ((implied_after_iff h numbering k).mpr hl)).2.2
  refine ⟨hlinks, fun p hp key => ?_⟩
  rw [mem_keys_after h hp k]
  simp only [hlinks p hp]

variable [LawfulScalar G] [LawfulRole A]

/-- If all ranks sync again and again, then from some round on nothing changes any more, and in
any round that changes nothing, the ranks have exactly what follows from what they knew in the
beginning, however they have been interleaved. -/
theorem sync_converges {n : Network} (registry : Nat → Registry) (settings : SyncSettings)
    {b : Nat → Sync G A} (hready : Syncs n.size b) (htidy : ∀ rank < n.size, (b rank).Tidy)
    (hself : Outward n.size b)
    (hclear : ∀ source < n.size, ∀ dest < n.size, n.channel source dest settings.tag = [])
    (hspeaks : ∀ rank < n.size, (registry rank).Speaks G) (numbering : Nat → Nat → Numbering G) :
    (∃ N, ∀ k ≥ N, ∀ rank < n.size,
      Unchanged (after numbering b k rank) (after numbering b (k + 1) rank)) ∧
    (∀ k,
      (∀ rank < n.size, Unchanged (after numbering b k rank) (after numbering b (k + 1) rank)) →
      Closed n.size b (after numbering b k)) ∧
    ∀ k, Performs n registry settings numbering b k := by
  have h : Ready n.size b := ⟨hready, htidy, hself⟩
  refine ⟨?_, fun k hsame => closed_of_unchanged h hsame, performs h hclear hspeaks numbering⟩
  obtain ⟨N, hN⟩ := exists_settled h numbering
  refine ⟨N, fun k hk rank hrank => ?_⟩
  have hexact := (h.after numbering k).exact rank hrank
  exact Exact.unchanged (h.after numbering k) hrank hexact (hN k hk rank hrank) _

end Limit

theorem sync_converges_thirdHolder :
    (∃ k, Closed 3 thirdHolder (after (fun _ _ => freshSlots) thirdHolder k)) ∧
      (repeated (.quiet 3) (fun _ => .basic) {} (fun _ _ => freshSlots) thirdHolder 1).Inevitable
        fun q => q.results = (List.range 3).map (history (fun _ _ => freshSlots) thirdHolder 1) ∧
          q.network.traffic = (Network.quiet 3).traffic := by
  have hself : ∀ rank < 3, (thirdHolder rank).table.linksTo rank = none := by decide +kernel
  obtain ⟨⟨N, hsame⟩, hclosed, hperforms⟩ := sync_converges (n := .quiet 3) (fun _ => .basic) {}
    syncs_thirdHolder tidy_thirdHolder hself (by decide) (fun _ _ => ⟨rfl, rfl, rfl⟩)
    fun _ _ => freshSlots
  refine ⟨⟨N, hclosed N (hsame N (Nat.le_refl N))⟩, (hperforms 1).inevitable fun i hi => ?_⟩
  obtain rfl := Nat.lt_one_iff.mp hi
  exact packs_thirdHolder

end Sync

end HaloIndex
