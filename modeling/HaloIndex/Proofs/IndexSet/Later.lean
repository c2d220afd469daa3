import HaloIndex.Proofs.IndexSet.Refinement

namespace HaloIndex

namespace IndexSet

variable {G A : Type}

theorem keys_abortResize (s : IndexSet G A) : s.abortResize.keys = s.keys := by
  unfold abortResize
  split
  · simp [keys, Function.comp_def]
  · rfl

theorem revision_abortResize (s : IndexSet G A) : s.abortResize.revision = s.revision := by
  unfold abortResize
  split <;> rfl

variable [LT G] [LT A] [DecidableEq G] [DecidableEq A] [DecidableLT G] [DecidableLT A] [Scalar G]
  [Role A]

/-- A call, or the end of a resize that comes to nothing. -/
inductive Change (s : IndexSet G A) : IndexSet G A → Prop where
  | answer {call : Call G A} {outcome : Except Fault (Option Nat)} {s' : IndexSet G A}
      (h : s.answer call = (outcome, s')) : Change s s'
  | abort : Change s s.abortResize

def Later : IndexSet G A → IndexSet G A → Prop := Relation.ReflTransGen Change

variable {s s' : IndexSet G A} {outcome : Except Fault (Option Nat)}

theorem map_answer {β : Type} {f : Holding G A → β} (hf : ∀ h, f (h.withState .deleted) = f h)
    {call : Call G A} (hcommit : call ≠ .commit) (hrenumber : call ≠ .renumber)
    (h : s.answer call = (outcome, s')) : s'.holdings.map f = s.holdings.map f := by
  rcases effect_or_refused h with ⟨-, heffect⟩ | ⟨-, rfl⟩
  · cases heffect with
    | opens | adds => rfl
    | flagsOne _ hsplit | flagsAll _ hsplit =>
      rw [hsplit]
      simp [Function.comp_def, hf]
    | commits => exact absurd rfl hcommit
    | renumbers => exact absurd rfl hrenumber
  · rfl

theorem keys_answer {call : Call G A} (hcall : call ≠ .commit)
    (h : s.answer call = (outcome, s')) :
    s'.keys = s.keys := by
  by_cases hrenumber : call = .renumber
  · subst hrenumber
    rcases effect_or_refused h with ⟨-, ⟨⟩⟩ | ⟨-, rfl⟩
    · exact List.ext_getElem (by simp [keys]) fun i _ _ => by simp [keys]
    · rfl
  · exact map_answer (fun _ => rfl) hcall hrenumber h

/-- A change raises the revision, or else it leaves the keys as they are. -/
theorem Change.keys_or (h : Change s s') : s.revision < s'.revision ∨
    s'.revision = s.revision ∧ s'.keys = s.keys := by
  cases h with
  | @answer call outcome s' h =>
    by_cases hcall : call = .commit
    · subst hcall
      rcases effect_or_refused h with ⟨-, ⟨⟩⟩ | ⟨-, rfl⟩
      · exact .inl (Nat.lt_succ_self _)
      · exact .inr ⟨rfl, rfl⟩
    · exact .inr ⟨revision_answer hcall h, keys_answer hcall h⟩
  | abort => exact .inr ⟨revision_abortResize s, keys_abortResize s⟩

theorem Later.keys_or (h : s.Later s') : s.revision < s'.revision ∨
    s'.revision = s.revision ∧ s'.keys = s.keys := by
  induction h with
  | refl => exact .inr ⟨rfl, rfl⟩
  | tail _ hstep ih =>
    rcases ih with hlt | ⟨hrevision, hkeys⟩
    · rcases hstep.keys_or with hlt' | ⟨hsame, -⟩
      · exact .inl (hlt.trans hlt')
      · exact .inl (hsame ▸ hlt)
    · rw [← hrevision, ← hkeys]
      exact hstep.keys_or

theorem Later.keys (h : s.Later s') (hrevision : s'.revision = s.revision) :
    s'.keys = s.keys := by
  rcases h.keys_or with hlt | ⟨-, hkeys⟩
  · exact absurd hrevision hlt.ne'
  · exact hkeys

variable [IsStrictTotalOrder G (· < ·)] [IsStrictTotalOrder A (· < ·)]

theorem Later.wellFormed (h : s.Later s') (hs : s.WellFormed) : s'.WellFormed := by
  induction h with
  | refl => exact hs
  | tail _ hstep ih =>
    cases hstep with
    | answer hcall => exact ih.answer hcall
    | abort => exact ih.abortResize

end IndexSet

end HaloIndex
