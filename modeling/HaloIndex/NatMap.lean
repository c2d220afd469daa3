namespace HaloIndex

/-- A finite map from natural numbers, as its entries in strictly ascending order. -/
structure NatMap (β : Type) where
  entries : List (Nat × β)
  ascending : entries.Pairwise fun a b => a.1 < b.1
  deriving DecidableEq

namespace NatMap

variable {β γ : Type}

def insertInto (key : Nat) (value : β) : List (Nat × β) → List (Nat × β)
  | [] => [(key, value)]
  | e :: rest =>
    if key < e.1 then (key, value) :: e :: rest
    else if key = e.1 then (key, value) :: rest
    else e :: insertInto key value rest

theorem mem_insertInto {key : Nat} {value : β} {entries : List (Nat × β)} {e : Nat × β}
    (h : e ∈ insertInto key value entries) : e = (key, value) ∨ e ∈ entries := by
  induction entries with
  | nil => simpa [insertInto] using h
  | cons first rest ih => grind [insertInto]

theorem pairwise_insertInto (key : Nat) (value : β) {entries : List (Nat × β)}
    (h : entries.Pairwise fun a b => a.1 < b.1) :
    (insertInto key value entries).Pairwise fun a b => a.1 < b.1 := by
  induction entries with
  | nil => simp [insertInto]
  | cons first rest ih =>
    have hrest := List.pairwise_cons.mp h
    unfold insertInto
    split
    · refine List.pairwise_cons.mpr ⟨fun e he => ?_, h⟩
      rcases List.mem_cons.mp he with rfl | he
      · assumption
      · have := hrest.1 e he
        omega
    · split
      · refine List.pairwise_cons.mpr ⟨fun e he => ?_, hrest.2⟩
        have := hrest.1 e he
        omega
      · refine List.pairwise_cons.mpr ⟨fun e he => ?_, ih hrest.2⟩
        rcases mem_insertInto he with rfl | he
        · omega
        · exact hrest.1 e he

def empty : NatMap β := ⟨[], .nil⟩

instance : Inhabited (NatMap β) := ⟨empty⟩

def insert (m : NatMap β) (key : Nat) (value : β) : NatMap β :=
  ⟨insertInto key value m.entries, pairwise_insertInto key value m.ascending⟩

/-- The map of the listed entries; of two entries for one key the later one counts. -/
def ofList (entries : List (Nat × β)) : NatMap β :=
  entries.foldl (fun m e => m.insert e.1 e.2) empty

def get? (m : NatMap β) (key : Nat) : Option β :=
  (m.entries.find? fun e => e.1 == key).map (·.2)

def keys (m : NatMap β) : List Nat := m.entries.map (·.1)

def size (m : NatMap β) : Nat := m.entries.length

def isEmpty (m : NatMap β) : Bool := m.entries.isEmpty

def map (f : β → γ) (m : NatMap β) : NatMap γ :=
  ⟨m.entries.map fun e => (e.1, f e.2), List.pairwise_map.mpr m.ascending⟩

def filter (p : Nat → β → Bool) (m : NatMap β) : NatMap β :=
  ⟨m.entries.filter fun e => p e.1 e.2, m.ascending.filter _⟩

def erase (m : NatMap β) (key : Nat) : NatMap β := m.filter fun k _ => k != key

def modify (m : NatMap β) (key : Nat) (fallback : β) (f : β → β) : NatMap β :=
  m.insert key (f ((m.get? key).getD fallback))

def adjust (m : NatMap β) (key : Nat) (f : β → β) : NatMap β :=
  ⟨m.entries.map fun e => (e.1, if e.1 = key then f e.2 else e.2),
    List.pairwise_map.mpr m.ascending⟩

@[simp]
theorem entries_empty : (empty : NatMap β).entries = [] := rfl

@[simp]
theorem entries_map (f : β → γ) (m : NatMap β) :
    (m.map f).entries = m.entries.map fun e => (e.1, f e.2) := rfl

@[simp]
theorem entries_filter (p : Nat → β → Bool) (m : NatMap β) :
    (m.filter p).entries = m.entries.filter fun e => p e.1 e.2 := rfl

@[simp]
theorem entries_adjust (m : NatMap β) (key : Nat) (f : β → β) : (m.adjust key f).entries =
    m.entries.map fun e => (e.1, if e.1 = key then f e.2 else e.2) := rfl

@[simp]
theorem keys_map (f : β → γ) (m : NatMap β) : (m.map f).keys = m.keys := by
  simp [keys]

@[simp]
theorem get?_empty (key : Nat) : (empty : NatMap β).get? key = none := rfl

theorem find?_insertInto (key k : Nat) (value : β) (entries : List (Nat × β)) :
    (insertInto key value entries).find? (fun e => e.1 == k) =
      if k = key then some (key, value) else entries.find? fun e => e.1 == k := by
  induction entries with
  | nil => grind [insertInto]
  | cons first rest ih =>
    unfold insertInto
    split
    · grind
    · split
      · grind
      · simp only [List.find?_cons, ih]
        grind

theorem get?_insert (m : NatMap β) (key k : Nat) (value : β) :
    (m.insert key value).get? k = if k = key then some value else m.get? k := by
  simp only [get?, insert, find?_insertInto]
  split <;> rfl

theorem get?_modify (m : NatMap β) (key k : Nat) (fallback : β) (f : β → β) :
    (m.modify key fallback f).get? k =
      if k = key then some (f ((m.get? key).getD fallback)) else m.get? k := by
  rw [modify, get?_insert]

@[simp]
theorem get?_map (f : β → γ) (m : NatMap β) (key : Nat) :
    (m.map f).get? key = (m.get? key).map f := by
  simp only [get?, entries_map, List.find?_map, Option.map_map]
  rfl

theorem get?_eq_some_iff {m : NatMap β} {key : Nat} {value : β} :
    m.get? key = some value ↔ (key, value) ∈ m.entries := by
  obtain ⟨entries, ascending⟩ := m
  induction entries with
  | nil => simp [get?]
  | cons first rest ih =>
    obtain ⟨hfirst, hrest⟩ := List.pairwise_cons.mp ascending
    have ih := ih hrest
    simp only [get?] at ih ⊢
    by_cases h : first.1 = key
    · subst h
      have hmem : (first.1, value) ∉ rest :=
        fun hin => Nat.lt_irrefl first.1 (hfirst (first.1, value) hin)
      simp only [List.find?_cons, beq_self_eq_true, Option.map_some, List.mem_cons,
        hmem, or_false]
      grind
    · grind

theorem mem_keys {m : NatMap β} {key : Nat} : key ∈ m.keys ↔ (m.get? key).isSome := by
  simp only [Option.isSome_iff_exists, get?_eq_some_iff, keys, List.mem_map]
  constructor
  · rintro ⟨⟨_, value⟩, he, rfl⟩
    exact ⟨value, he⟩
  · rintro ⟨value, he⟩
    exact ⟨(key, value), he, rfl⟩

theorem nodup_keys (m : NatMap β) : m.keys.Nodup :=
  List.pairwise_map.mpr (m.ascending.imp fun {_ _} => Nat.ne_of_lt)

theorem get?_filter (p : Nat → β → Bool) (m : NatMap β) (key : Nat) :
    (m.filter p).get? key = (m.get? key).filter (p key) := by
  refine Option.ext fun value => ?_
  simp only [Option.filter_eq_some_iff, get?_eq_some_iff, entries_filter, List.mem_filter]

theorem get?_filter_keys (p : Nat → Bool) (m : NatMap β) (key : Nat) :
    (m.filter fun k _ => p k).get? key = if p key then m.get? key else none := by
  rw [get?_filter]
  cases m.get? key <;> cases p key <;> rfl

theorem get?_erase (m : NatMap β) (key k : Nat) :
    (m.erase key).get? k = if k = key then none else m.get? k := by
  rw [erase, get?_filter_keys]
  by_cases h : k = key <;> simp [h]

theorem get?_foldl_insert (m : NatMap β) (entries : List (Nat × β)) (key : Nat) :
    (entries.foldl (fun m e => m.insert e.1 e.2) m).get? key =
      ((entries.filter fun e => e.1 == key).getLast?.map (·.2)).or (m.get? key) := by
  induction entries generalizing m with
  | nil => rfl
  | cons e rest ih =>
    rw [List.foldl_cons, ih, get?_insert, List.filter_cons]
    by_cases hkey : e.1 = key
    · rw [if_pos hkey.symm, if_pos (beq_iff_eq.mpr hkey), List.getLast?_cons]
      cases (rest.filter fun e => e.1 == key).getLast? <;> rfl
    · rw [if_neg (Ne.symm hkey), if_neg (by simpa using hkey)]

theorem get?_ofList (entries : List (Nat × β)) (key : Nat) :
    (ofList entries).get? key = (entries.filter fun e => e.1 == key).getLast?.map (·.2) := by
  rw [ofList, get?_foldl_insert, get?_empty, Option.or_none]

theorem entries_unique {xs ys : List (Nat × β)} (hx : xs.Pairwise fun a b => a.1 < b.1)
    (hy : ys.Pairwise fun a b => a.1 < b.1) (h : ∀ e, e ∈ xs ↔ e ∈ ys) : xs = ys := by
  induction xs generalizing ys with
  | nil =>
    exact (List.eq_nil_iff_forall_not_mem.mpr fun e he => by simpa using (h e).mpr he).symm
  | cons x xs ih =>
    cases ys with
    | nil => simpa using (h x).mp (by simp)
    | cons y ys =>
      obtain ⟨hx, hxs⟩ := List.pairwise_cons.mp hx
      obtain ⟨hy, hys⟩ := List.pairwise_cons.mp hy
      have hxy : x = y := by
        rcases List.mem_cons.mp ((h x).mp (by simp)) with rfl | hin
        · rfl
        · rcases List.mem_cons.mp ((h y).mpr (by simp)) with rfl | hin'
          · rfl
          · have := hx _ hin'
            have := hy _ hin
            omega
      subst hxy
      refine congrArg _ (ih hxs hys fun e => ?_)
      have he := h e
      by_cases hex : e = x
      · subst hex
        exact ⟨fun hin => absurd (hx _ hin) (Nat.lt_irrefl _),
          fun hin => absurd (hy _ hin) (Nat.lt_irrefl _)⟩
      · simpa [hex] using he

theorem ext_get? {m n : NatMap β} (h : ∀ key, m.get? key = n.get? key) : m = n := by
  obtain ⟨xs, hx⟩ := m
  obtain ⟨ys, hy⟩ := n
  have : xs = ys := entries_unique hx hy fun e => by
    rw [← get?_eq_some_iff (m := ⟨xs, hx⟩), ← get?_eq_some_iff (m := ⟨ys, hy⟩), h]
  subst this
  rfl

theorem insertInto_of_lt (key : Nat) (value : β) {entries : List (Nat × β)}
    (h : ∀ e ∈ entries, e.1 < key) :
    insertInto key value entries = entries ++ [(key, value)] := by
  induction entries with
  | nil => rfl
  | cons first rest ih =>
    have hfirst := h first (List.mem_cons_self ..)
    rw [insertInto, if_neg (Nat.lt_asymm hfirst), if_neg (Nat.ne_of_gt hfirst),
      ih fun e he => h e (List.mem_cons_of_mem _ he)]
    rfl

theorem entries_foldl_insert (m : NatMap β) (entries : List (Nat × β))
    (h : (m.entries ++ entries).Pairwise fun a b => a.1 < b.1) :
    (entries.foldl (fun m e => m.insert e.1 e.2) m).entries = m.entries ++ entries := by
  induction entries generalizing m with
  | nil => exact (List.append_nil _).symm
  | cons first rest ih =>
    have hinsert : (m.insert first.1 first.2).entries = m.entries ++ [first] :=
      insertInto_of_lt _ _ fun e he =>
        (List.pairwise_append.mp h).2.2 e he first (List.mem_cons_self ..)
    rw [List.append_cons] at h
    rw [List.foldl_cons, ih _ (hinsert ▸ h), hinsert, List.append_assoc]
    rfl

@[simp]
theorem ofList_entries (m : NatMap β) : ofList m.entries = m := by
  have h := entries_foldl_insert empty m.entries m.ascending
  obtain ⟨entries, ascending⟩ := m
  unfold ofList
  generalize List.foldl _ _ _ = n at h ⊢
  obtain ⟨entries', ascending'⟩ := n
  cases h
  rfl

end NatMap

abbrev RankSet := NatMap Unit

def RankSet.ofRanks (ranks : List Nat) : RankSet := .ofList (ranks.map fun r => (r, ()))

end HaloIndex
