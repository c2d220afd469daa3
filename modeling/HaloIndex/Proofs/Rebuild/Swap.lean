import HaloIndex.Proofs.Rebuild.Ring
import HaloIndex.Proofs.Transport.Round

namespace HaloIndex

variable {G A : Type} [Scalar G] [Role A] [LawfulScalar G] [LawfulRole A] [LT G] [LT A]
  [DecidableEq G] [DecidableEq A] [DecidableLT G] [DecidableLT A]

variable {t : Traffic} {registry : Nat → Registry} {tag : Tag}
  {published : Nat → Publication G A} {message : Nat → List UInt8}

namespace Publication

open Station

omit [LawfulScalar G] [LawfulRole A] in
theorem path_takeFrom (s : Station) (tag : Tag) (own : Publication G A) (peer : Nat)
    (bytes : List UInt8) :
    (takeFrom s tag own peer).run.Path (Exchange.taking true tag peer bytes)
      (.done (own.linksFrom s.registry bytes false)) := by
  have hlast : ((do
      if bytes.length ≠ bytes.length then
        throw (.communication peer s!"probed {bytes.length} bytes but received {bytes.length}")
      Talk.ofExcept (own.linksFrom s.registry bytes false)) : Talk (Option (Links G A))).run =
      .done (own.linksFrom s.registry bytes false) := by
    rw [if_neg (fun h => h rfl)]
    rfl
  exact .ask (.ask (hlast ▸ .refl _))

def hearFrom (s : Station) (tag : Tag) (own : Publication G A) (peer : Nat)
    (links : NatMap (Links G A)) :
    Program (Except Fault Unit × NatMap (Links G A)) := do
  match ← (takeFrom s tag own peer).run with
  | .ok found => return (.ok (), enter links peer found)
  | .error f => return (.error f, links)

theorem swap_concludes (hclear : t.Clear tag)
    (hspeaks : ∀ rank < t.size, (registry rank).SpeaksFully G)
    (hpack : ∀ rank < t.size, (published rank).encode (registry rank) = .ok (message rank))
    {peers : Nat → List Nat} (hpeers : Neighbourly t.size peers)
    (links : Nat → NatMap (Links G A)) :
    ∃ es, Concludes t (fun rank =>
      (swap (among t.size registry rank) tag (published rank) (peers rank)
        (message rank) (links rank)).run) es
      fun rank => .ok ((published rank).hear published (peers rank) (links rank)) := by
  have htake : ∀ rank < t.size, ∀ peer ∈ peers rank, ∀ links, True → True ∧
      (hearFrom (among t.size registry rank) tag (published rank) peer links).Path
        (Exchange.taking true tag peer (message peer))
        (.done (.ok (), enter links peer ((published rank).found (published peer) false))) := by
    intro rank hrank peer hpeer links _
    refine ⟨trivial, ?_⟩
    have hpath :=
      path_takeFrom (among t.size registry rank) tag (published rank) peer (message peer)
    rw [linksFrom_encode (hspeaks rank hrank) (hpack peer (hpeers.lt rank hrank peer hpeer))]
      at hpath
    rw [← List.append_nil (Exchange.taking ..)]
    exact hpath.andThen (.refl _)
  have hround := Exchange.round_concludes hpeers hclear htake links fun _ _ => trivial
  exact ⟨_, hround.lift.andThen (.of_done fun _ _ => rfl)⟩

end Publication

end HaloIndex
