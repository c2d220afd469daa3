import HaloIndex.Bisection
import HaloIndex.Link.Basic
import Mathlib.Data.List.Nodup
import Mathlib.Data.List.TakeWhile
import Mathlib.Data.Prod.Basic
import Mathlib.Order.RelClasses
import Mathlib.Order.RelIso.Basic

namespace HaloIndex

section Orders

variable {α : Type} [LT α]

theorem strictTotalOrder_of_injective {β : Type} [LT β]
    [IsStrictTotalOrder β (· < ·)] (f : α → β) (hinj : Function.Injective f)
    (hlt : ∀ a b, f a < f b ↔ a < b) :
    IsStrictTotalOrder α (· < ·) :=
  RelEmbedding.isStrictTotalOrder (s := (· < ·)) ⟨⟨f, hinj⟩, fun {a b} => hlt a b⟩

instance strictTotalOrderUInt8 : IsStrictTotalOrder UInt8 (· < ·) :=
  strictTotalOrder_of_injective UInt8.toNat (fun _ _ => UInt8.toNat.inj) fun _ _ => Iff.rfl

instance strictTotalOrderUInt32 : IsStrictTotalOrder UInt32 (· < ·) :=
  strictTotalOrder_of_injective UInt32.toNat (fun _ _ => UInt32.toNat.inj) fun _ _ => Iff.rfl

instance strictTotalOrderUInt64 : IsStrictTotalOrder UInt64 (· < ·) :=
  strictTotalOrder_of_injective UInt64.toNat (fun _ _ => UInt64.toNat.inj) fun _ _ => Iff.rfl

instance strictTotalOrderMeshRole : IsStrictTotalOrder MeshRole (· < ·) :=
  strictTotalOrder_of_injective MeshRole.code
    (fun a b h => Option.some.inj (by rw [← MeshRole.ofCode?_code a, h, MeshRole.ofCode?_code]))
    fun _ _ => Iff.rfl

end Orders

section Pairs

variable {G A : Type} [LT G] [LT A] [IsStrictTotalOrder G (· < ·)] [IsStrictTotalOrder A (· < ·)]

theorem strictTotalOrder_lex {α β : Type} {r : α → α → Prop} {s : β → β → Prop}
    [IsStrictTotalOrder α r] [IsStrictTotalOrder β s] :
    IsStrictTotalOrder (α × β) (Prod.Lex r s) :=
  { }

instance strictTotalOrderKey : IsStrictTotalOrder (Key G A) (· < ·) :=
  have := strictTotalOrder_lex (r := fun a b : G => a < b) (s := fun a b : A => a < b)
  RelEmbedding.isStrictTotalOrder
    (s := Prod.Lex (fun a b : G => a < b) (fun a b : A => a < b))
    ⟨⟨fun k => (k.globalId, k.role), fun a b h => by cases a; cases b; cases h; rfl⟩,
      fun {_ _} => Prod.lex_def⟩

instance strictTotalOrderLink : IsStrictTotalOrder (Link G A) (· < ·) :=
  have := strictTotalOrder_lex (r := fun a b : Key G A => a < b) (s := fun a b : A => a < b)
  RelEmbedding.isStrictTotalOrder
    (s := Prod.Lex (fun a b : Key G A => a < b) (fun a b : A => a < b))
    ⟨⟨fun l => (l.localKey, l.remoteRole), fun a b h => by cases a; cases b; cases h; rfl⟩,
      fun {_ _} => Prod.lex_def⟩

end Pairs

section Splits

variable {β : Type} {p : β → Bool} {xs : List β}

theorem insertIdx_length_append (low high : List β) (x : β) :
    (low ++ high).insertIdx low.length x = low ++ x :: high := by
  induction low with
  | nil => rfl
  | cons y low ih => exact congrArg (y :: ·) ih

theorem takeWhile_eq_filter (h : xs.Pairwise fun a b => p b = true → p a = true) :
    xs.takeWhile p = xs.filter p := by
  induction xs with
  | nil => rfl
  | cons x xs ih =>
    obtain ⟨hx, hxs⟩ := List.pairwise_cons.mp h
    rw [List.takeWhile_cons, List.filter_cons]
    split
    · rw [ih hxs]
    next hpx =>
      refine (List.filter_eq_nil_iff.mpr fun y hy hpy => ?_).symm
      exact hpx (hx y hy hpy)

theorem dropWhile_eq_filter (h : xs.Pairwise fun a b => p b = true → p a = true) :
    xs.dropWhile p = xs.filter fun x => !p x := by
  induction xs with
  | nil => rfl
  | cons x xs ih =>
    obtain ⟨hx, hxs⟩ := List.pairwise_cons.mp h
    rw [List.dropWhile_cons, List.filter_cons]
    by_cases hpx : p x = true
    · simp only [hpx, if_pos, Bool.not_true, Bool.false_eq_true, if_false]
      exact ih hxs
    · have hall : ∀ y ∈ xs, (!p y) = true := by
        intro y hy
        simpa using fun hpy => hpx (hx y hy hpy)
      simp only [hpx, Bool.not_false, if_true, List.filter_eq_self.mpr hall]
      simp

theorem partitionPoint_eq (h : xs.Pairwise fun a b => p b = true → p a = true) :
    Bisection.partitionPoint p xs = (xs.takeWhile p).length := by
  have hlow : ∀ x ∈ xs.takeWhile p, p x = true := fun x hx => List.mem_takeWhile_imp hx
  have hhigh : ∀ x ∈ xs.dropWhile p, p x = false := by
    intro x hx
    rw [dropWhile_eq_filter h, List.mem_filter] at hx
    simpa using hx.2
  have hpoint := Bisection.partitionPoint_append hlow hhigh
  rwa [List.takeWhile_append_dropWhile] at hpoint

theorem drop_partitionPoint (h : xs.Pairwise fun a b => p b = true → p a = true) :
    xs.drop (Bisection.partitionPoint p xs) = xs.dropWhile p := by
  have hdrop : (xs.takeWhile p ++ xs.dropWhile p).drop (xs.takeWhile p).length =
      xs.dropWhile p :=
    List.drop_left
  rwa [List.takeWhile_append_dropWhile, ← partitionPoint_eq h] at hdrop

theorem take_partitionPoint (h : xs.Pairwise fun a b => p b = true → p a = true) :
    xs.take (Bisection.partitionPoint p xs) = xs.takeWhile p := by
  have htake : (xs.takeWhile p ++ xs.dropWhile p).take (xs.takeWhile p).length =
      xs.takeWhile p :=
    List.take_left
  rwa [List.takeWhile_append_dropWhile, ← partitionPoint_eq h] at htake

end Splits

/-- Every element is below all that follow it. -/
abbrev Ascending {α : Type} [LT α] (xs : List α) : Prop := xs.Pairwise (· < ·)

/-- No element is above one that follows it. -/
abbrev InOrder {α : Type} [LT α] (xs : List α) : Prop := xs.Pairwise fun a b => ¬b < a

namespace Ascending

variable {α : Type} [LT α] [IsStrictTotalOrder α (· < ·)] {xs ys : List α}

theorem inOrder (h : Ascending xs) : InOrder xs := h.imp fun {_ _} hab => asymm hab

theorem nodup (h : Ascending xs) : xs.Nodup := by
  refine List.Pairwise.imp (fun {a b} hab => ?_) h
  rintro rfl
  exact irrefl a hab

theorem ext (hx : Ascending xs) (hy : Ascending ys) (h : ∀ a, a ∈ xs ↔ a ∈ ys) : xs = ys := by
  have hperm : xs.Perm ys := (List.perm_ext_iff_of_nodup hx.nodup hy.nodup).mpr h
  refine hperm.eq_of_pairwise (fun a b _ _ hab hba => absurd hba (asymm hab)) hx hy

omit [IsStrictTotalOrder α (· < ·)] in
theorem between {a : α} (h : Ascending (xs ++ ys)) (hxs : ∀ x ∈ xs, x < a)
    (hys : ∀ y ∈ ys, a < y) :
    Ascending (xs ++ a :: ys) := by
  obtain ⟨hlow, hhigh, hcross⟩ := List.pairwise_append.mp h
  refine List.pairwise_append.mpr
    ⟨hlow, List.pairwise_cons.mpr ⟨hys, hhigh⟩, fun x hx y hy => ?_⟩
  rcases List.mem_cons.mp hy with rfl | hy
  · exact hxs x hx
  · exact hcross x hx y hy

theorem of_weakly (h : InOrder xs) (hnodup : xs.Nodup) : Ascending xs := by
  apply (h.and hnodup).imp
  intro a b hab
  obtain ⟨hle, hne⟩ := hab
  by_contra hlt
  exact hne (Std.Trichotomous.trichotomous a b hlt hle)

theorem head?_eq_some_iff {β : Type} {f : β → α} {zs : List β}
    (h : Ascending (zs.map f)) {z : β} :
    zs.head? = some z ↔ z ∈ zs ∧ ∀ y ∈ zs, ¬f y < f z := by
  cases zs with
  | nil => simp
  | cons x rest =>
    obtain ⟨hx, -⟩ := List.pairwise_cons.mp (List.pairwise_map.mp h)
    rw [List.head?_cons, Option.some.injEq]
    constructor
    · rintro rfl
      refine ⟨List.mem_cons_self .., fun y hy => ?_⟩
      rcases List.mem_cons.mp hy with rfl | hy
      · exact irrefl _
      · exact asymm (hx y hy)
    · rintro ⟨hz, hleast⟩
      rcases List.mem_cons.mp hz with rfl | hz
      · rfl
      · exact absurd (hx z hz) (hleast x (List.mem_cons_self ..))

theorem getLast?_eq_some_iff {β : Type} {f : β → α} {zs : List β}
    (h : Ascending (zs.map f)) {z : β} :
    zs.getLast? = some z ↔ z ∈ zs ∧ ∀ y ∈ zs, ¬f z < f y := by
  rcases zs.eq_nil_or_concat' with rfl | ⟨rest, x, rfl⟩
  · simp
  · obtain ⟨-, -, hx⟩ := List.pairwise_append.mp (List.pairwise_map.mp h)
    have hx : ∀ y ∈ rest, f y < f x := fun y hy => hx y hy x (List.mem_singleton_self x)
    rw [List.getLast?_concat, Option.some.injEq]
    constructor
    · rintro rfl
      refine ⟨List.mem_append_right _ (List.mem_singleton_self _), fun y hy => ?_⟩
      rcases List.mem_append.mp hy with hy | hy
      · exact asymm (hx y hy)
      · exact List.mem_singleton.mp hy ▸ irrefl _
    · rintro ⟨hz, hgreatest⟩
      rcases List.mem_append.mp hz with hz | hz
      · exact absurd (hx z hz)
          (hgreatest x (List.mem_append_right _ (List.mem_singleton_self _)))
      · exact (List.mem_singleton.mp hz).symm

end Ascending

section Sorting

variable {α β : Type} [LT α] [DecidableLT α] [IsStrictTotalOrder α (· < ·)]

theorem not_lt_trans {a b c : α} (h : ¬b < a) (h' : ¬c < b) : ¬c < a := by
  intro hca
  by_cases hab : a < b
  · exact h' (IsTrans.trans _ _ _ hca hab)
  · exact h' (Std.Trichotomous.trichotomous a b hab h ▸ hca)

theorem decide_not_lt_trans (f : β → α) (a b c : β) (hab : (!decide (f b < f a)) = true)
    (hbc : (!decide (f c < f b)) = true) : (!decide (f c < f a)) = true := by
  simpa using not_lt_trans (by simpa using hab) (by simpa using hbc)

theorem decide_not_lt_total (f : β → α) (a b : β) :
    (!decide (f b < f a) || !decide (f a < f b)) = true := by
  simpa [or_iff_not_imp_left] using asymm (r := fun a b : α => a < b)

theorem pairwise_mergeSort_key (f : β → α) (xs : List β) :
    (xs.mergeSort fun a b => !decide (f b < f a)).Pairwise fun a b => ¬f b < f a := by
  have h := List.pairwise_mergeSort (decide_not_lt_trans f) (decide_not_lt_total f) xs
  simpa using h

theorem Ascending.countP_lt_getElem {xs : List α} (h : Ascending xs) {i : Nat}
    (hi : i < xs.length) : xs.countP (· < xs[i]) = i := by
  induction xs generalizing i with
  | nil => cases hi
  | cons x xs ih =>
    obtain ⟨hx, hxs⟩ := List.pairwise_cons.mp h
    cases i with
    | zero =>
      rw [List.getElem_cons_zero, List.countP_eq_zero]
      intro y hy
      rcases List.mem_cons.mp hy with rfl | hy
      · simpa using irrefl (r := fun a b : α => a < b) y
      · simpa using asymm (hx y hy)
    | succ i =>
      have hi' := Nat.lt_of_succ_lt_succ hi
      rw [List.getElem_cons_succ, List.countP_cons_of_pos, ih hxs hi']
      simpa using hx _ (List.getElem_mem hi')

end Sorting

section Repetitions

theorem eraseRepsBy_loop {α : Type} (r : α → α → Bool) (a : α) (xs acc : List α) :
    List.eraseRepsBy.loop r a xs acc = acc.reverse ++ List.eraseRepsBy.loop r a xs [] := by
  induction xs generalizing a acc with
  | nil => simp [List.eraseRepsBy.loop]
  | cons b xs ih =>
    unfold List.eraseRepsBy.loop
    split
    · exact ih a acc
    · rw [ih b (a :: acc), ih b [a]]
      simp

variable {α : Type} [DecidableEq α]

theorem eraseReps_cons_cons (a b : α) (xs : List α) :
    (a :: b :: xs).eraseReps =
      if a = b then (a :: xs).eraseReps else a :: (b :: xs).eraseReps := by
  simp only [List.eraseReps, List.eraseRepsBy, List.eraseRepsBy.loop]
  by_cases h : a = b
  · simp [h]
  · simp only [beq_eq_false_iff_ne.mpr h, if_neg h]
    rw [eraseRepsBy_loop]
    rfl

theorem mem_eraseReps_cons {x a : α} {xs : List α} :
    x ∈ (a :: xs).eraseReps ↔ x ∈ a :: xs := by
  induction xs generalizing a with
  | nil => rfl
  | cons b xs ih =>
    rw [eraseReps_cons_cons]
    split
    next h => simp [ih, h]
    next => rw [List.mem_cons, ih, List.mem_cons (a := x) (b := a)]

theorem mem_eraseReps {x : α} {xs : List α} : x ∈ xs.eraseReps ↔ x ∈ xs := by
  cases xs with
  | nil => rfl
  | cons a xs => exact mem_eraseReps_cons

variable [LT α] [DecidableLT α] [IsStrictTotalOrder α (· < ·)]

theorem ascending_eraseReps_cons {a : α} {xs : List α}
    (h : InOrder (a :: xs)) : Ascending (a :: xs).eraseReps := by
  induction xs generalizing a with
  | nil => exact List.pairwise_singleton _ a
  | cons b xs ih =>
    obtain ⟨ha, hb⟩ := List.pairwise_cons.mp h
    rw [eraseReps_cons_cons]
    split
    next hab => exact hab ▸ ih hb
    next hab =>
      have hlt : a < b := by
        by_contra hnot
        exact hab (Std.Trichotomous.trichotomous a b hnot (ha b (List.mem_cons_self ..)))
      refine List.pairwise_cons.mpr ⟨fun y hy => ?_, ih hb⟩
      rcases List.mem_cons.mp (mem_eraseReps_cons.mp hy) with rfl | hy
      · exact hlt
      · by_contra hnot
        exact not_lt_trans ((List.pairwise_cons.mp hb).1 y hy) hnot hlt

theorem ascending_eraseReps {xs : List α} (h : InOrder xs) :
    Ascending xs.eraseReps := by
  cases xs with
  | nil => exact .nil
  | cons a xs => exact ascending_eraseReps_cons h

end Repetitions

section Bisecting

open Bisection

variable {α β : Type} [LT α] [DecidableLT α]

theorem compared_eq_lt {a b : α} (h : a < b) : compared a b = .lt := if_pos h

variable [IsStrictTotalOrder α (· < ·)]

theorem compared_eq_gt {a b : α} (h : b < a) : compared a b = .gt := by
  rw [compared, if_neg (asymm h), if_pos h]

theorem compared_self (a : α) : compared a a = .eq := by
  rw [compared, if_neg (irrefl a), if_neg (irrefl a)]

/-- How a search ends in a list that ascends by `f`. -/
inductive Located (f : β → α) (sought : α) (xs : List β) : Location → Prop where
  | found (low : List β) (x : β) (high : List β) (hxs : xs = low ++ x :: high)
    (hx : f x = sought) :
    Located f sought xs (.found low.length)
  | absent (low high : List β) (hxs : xs = low ++ high) (hlow : ∀ y ∈ low, f y < sought)
    (hhigh : ∀ y ∈ high, sought < f y) : Located f sought xs (.absent low.length)

theorem exists_split (f : β → α) (sought : α) {xs : List β} (h : Ascending (xs.map f)) :
    ∃ low high, xs = low ++ high ∧ (∀ y ∈ low, f y < sought) ∧ ∀ y ∈ high, ¬f y < sought := by
  have hsplit : xs.Pairwise fun a b =>
      decide (f b < sought) = true → decide (f a < sought) = true := by
    apply (List.pairwise_map.mp h).imp
    intro a b hab hb
    exact decide_eq_true (IsTrans.trans _ _ _ hab (of_decide_eq_true hb))
  refine ⟨xs.takeWhile fun x => decide (f x < sought),
    xs.dropWhile fun x => decide (f x < sought),
    List.takeWhile_append_dropWhile.symm, fun y hy => ?_, fun y hy => ?_⟩
  · simpa using List.mem_takeWhile_imp hy
  · rw [dropWhile_eq_filter hsplit, List.mem_filter] at hy
    simpa using hy.2

theorem located (f : β → α) (sought : α) {xs : List β} (h : Ascending (xs.map f)) :
    Located f sought xs (locate (fun x => compared (f x) sought) xs) := by
  obtain ⟨low, high, rfl, hlow, hhigh⟩ := exists_split f sought h
  have hlow' : ∀ y ∈ low, compared (f y) sought = .lt := fun y hy => compared_eq_lt (hlow y hy)
  cases high with
  | nil =>
    rw [locate_gap hlow' (List.forall_mem_nil _)]
    exact .absent low [] rfl hlow (List.forall_mem_nil _)
  | cons x high =>
    have hx : ∀ y ∈ high, f x < f y := by
      have happend := List.pairwise_append.mp (List.pairwise_map.mp h)
      exact (List.pairwise_cons.mp happend.2.1).1
    by_cases hgt : sought < f x
    · have habove : ∀ y ∈ x :: high, sought < f y := by
        intro y hy
        rcases List.mem_cons.mp hy with rfl | hy
        · exact hgt
        · exact IsTrans.trans _ _ _ hgt (hx y hy)
      rw [locate_gap hlow' fun y hy => compared_eq_gt (habove y hy)]
      exact .absent low (x :: high) rfl hlow habove
    · have heq : f x = sought :=
        Std.Trichotomous.trichotomous _ _ (hhigh x (List.mem_cons_self ..)) hgt
      subst heq
      rw [locate_match hlow' (compared_self _) fun y hy => compared_eq_gt (hx y hy)]
      exact .found low x high rfl rfl

end Bisecting

end HaloIndex
