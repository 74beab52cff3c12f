import Orbit.Runtime.Cache
import Mathlib.Logic.Function.Basic

/-!
# The cache as a map

A run of the cache is one of a map exactly when each pair that it takes fits into the fields of an
item (`isMap_iff`): a pair that fits updates the map (`get_set`), and of one that does not another
value, or none, is read back (`fits_of_get_set`).
-/

namespace Runtime.Cache

open Http (Text)

/-! ## Items -/

theorem lookup_overwrite {key val : Text} {items items' : List OrbitCacheItem}
    (h : overwrite key val items = some items') (k : Text) :
    lookup k items' = if k = key then snprintf valSize val else lookup k items := by
  induction items generalizing items' with
  | nil => cases h
  | cons item items ih =>
    rw [overwrite_cons] at h
    split at h
    · next hkey =>
      cases h
      by_cases hk : k = key
      · simp [lookup_cons, OrbitCacheItem.write, hk, hkey]
      · have hne : item.key ≠ k := fun heq => hk (heq.symm.trans hkey)
        simp [lookup_cons, OrbitCacheItem.write, hk, hne]
    · next hkey =>
      obtain ⟨rest, hrest, rfl⟩ := Option.map_eq_some_iff.mp h
      by_cases hk : k = key
      · subst hk
        simp [lookup_cons, hkey, ih hrest]
      · simp [lookup_cons, hk, ih hrest]

theorem overwrite_eq_none {key val : Text} {items : List OrbitCacheItem} :
    overwrite key val items = none ↔ ∀ item ∈ items, item.key ≠ key := by
  induction items with
  | nil => exact iff_of_true rfl (List.forall_mem_nil _)
  | cons item items ih =>
    rw [overwrite_cons]
    split
    · next hkey => simp [hkey]
    · next hkey => simp [hkey, ih]

theorem lookup_absent {key : Text} {items : List OrbitCacheItem}
    (h : ∀ item ∈ items, item.key ≠ key) : lookup key items = [] := by
  induction items with
  | nil => rfl
  | cons item items ih =>
    rw [lookup_cons, if_neg (h item List.mem_cons_self)]
    exact ih fun it hit => h it (List.mem_cons_of_mem _ hit)

theorem lookup_append_of_ne {items : List OrbitCacheItem} {item : OrbitCacheItem} {k : Text}
    (h : item.key ≠ k ∨ item.val = []) : lookup k (items ++ [item]) = lookup k items := by
  induction items with
  | nil => rcases h with h | h <;> simp [lookup_cons, lookup_nil, h]
  | cons it items ih => simp only [List.cons_append, lookup_cons, ih]

theorem lookup_append_self {items : List OrbitCacheItem} {item : OrbitCacheItem}
    (h : ∀ it ∈ items, it.key ≠ item.key) : lookup item.key (items ++ [item]) = item.val := by
  induction items with
  | nil => simp [lookup_cons]
  | cons it items ih =>
    rw [List.cons_append, lookup_cons, if_neg (h it List.mem_cons_self)]
    exact ih fun it' hit => h it' (List.mem_cons_of_mem _ hit)

/-! ## One call -/

/-- What a store can do. -/
theorem orbitCacheSet_cases (table : Table) (key val : Text) (ttl : Int) :
    (∃ items, overwrite key val table.items = some items ∧
      (orbitCacheSet table key val ttl).1 = true ∧
      (orbitCacheSet table key val ttl).2.items = items) ∨
    (overwrite key val table.items = none ∧ table.items.length < maxItems ∧
      (orbitCacheSet table key val ttl).1 = true ∧
      (orbitCacheSet table key val ttl).2.items = table.items ++ [.make key val]) ∨
    (overwrite key val table.items = none ∧ ¬ table.items.length < maxItems ∧
      orbitCacheSet table key val ttl = (false, table)) := by
  rw [orbitCacheSet]
  split
  · next items h => exact Or.inl ⟨items, h, rfl, rfl⟩
  · next h =>
    by_cases hroom : table.items.length < maxItems
    · rw [dif_pos hroom]
      exact Or.inr (Or.inl ⟨h, hroom, rfl, rfl⟩)
    · rw [dif_neg hroom]
      exact Or.inr (Or.inr ⟨h, hroom, rfl⟩)

theorem set_accepted_iff (table : Table) (key val : Text) (ttl : Int) :
    (orbitCacheSet table key val ttl).1 = true ↔ table.takes key = true := by
  simp only [Table.takes, Bool.or_eq_true, List.any_eq_true, decide_eq_true_eq]
  rcases orbitCacheSet_cases table key val ttl with
    ⟨items, h, hset, -⟩ | ⟨-, hroom, hset, -⟩ | ⟨h, hroom, hset⟩
  · refine iff_of_true hset (Or.inl ?_)
    by_contra hnone
    rw [overwrite_eq_none.mpr fun it hit hk => hnone ⟨it, hit, hk⟩] at h
    cases h
  · exact iff_of_true hset (Or.inr hroom)
  · rw [hset]
    refine iff_of_false Bool.false_ne_true ?_
    rintro (⟨it, hit, hk⟩ | hlt)
    · exact overwrite_eq_none.mp h it hit hk
    · exact hroom hlt

theorem set_refused {table : Table} {key : Text} (h : table.takes key = false) (val : Text)
    (ttl : Int) : (orbitCacheSet table key val ttl).2 = table := by
  have hnot : ¬ (orbitCacheSet table key val ttl).1 = true := by
    rw [set_accepted_iff, h]
    exact Bool.false_ne_true
  rcases orbitCacheSet_cases table key val ttl with
    ⟨items, -, hset, -⟩ | ⟨-, -, hset, -⟩ | ⟨-, -, hset⟩
  · exact absurd hset hnot
  · exact absurd hset hnot
  · rw [hset]

/-- A pair that fits updates the map. -/
theorem get_set {table : Table} {key val : Text} (ttl : Int) (htakes : table.takes key = true)
    (hfits : Fits key val) :
    orbitCacheGet (orbitCacheSet table key val ttl).2 =
      Function.update (orbitCacheGet table) key val := by
  obtain ⟨hval, hkey⟩ := hfits
  funext k
  rw [Function.update_apply, orbitCacheGet, orbitCacheGet]
  rcases orbitCacheSet_cases table key val ttl with
    ⟨items, h, -, hitems⟩ | ⟨h, -, -, hitems⟩ | ⟨-, -, hset⟩
  · rw [hitems, lookup_overwrite h, snprintf_of_fits hval]
  · rw [hitems]
    have habsent := overwrite_eq_none.mp h
    by_cases hk : k = key
    · subst hk
      rw [if_pos rfl]
      rcases hkey with hkey | rfl
      · have hmake : (OrbitCacheItem.make k val).key = k := snprintf_of_fits hkey
        have hself := @lookup_append_self table.items (.make k val) (hmake.symm ▸ habsent)
        rw [hmake] at hself
        rw [hself]
        exact snprintf_of_fits hval
      · rw [lookup_append_of_ne (Or.inr rfl), lookup_absent habsent]
    · rw [if_neg hk]
      refine lookup_append_of_ne ?_
      rcases hkey with hkey | rfl
      · left
        rw [show (OrbitCacheItem.make key val).key = key from snprintf_of_fits hkey]
        exact Ne.symm hk
      · exact Or.inr rfl
  · rw [← set_accepted_iff table key val ttl, hset] at htakes
    cases htakes

/-- What is read back is a text of an item. -/
theorem lookup_length (key : Text) (items : List OrbitCacheItem) :
    (lookup key items).length < valSize := by
  induction items with
  | nil => exact Nat.succ_pos _
  | cons item items ih =>
    rw [lookup]
    split
    · exact item.val_fits
    · exact ih

theorem lookup_long_key {key : Text} (h : ¬ key.length < keySize) (items : List OrbitCacheItem) :
    lookup key items = [] :=
  lookup_absent fun item _ hkey => h (hkey ▸ item.key_fits)

/-- A pair that is read back fits. -/
theorem fits_of_get {table : Table} {key val : Text} (h : orbitCacheGet table key = val) :
    Fits key val := by
  subst h
  refine ⟨lookup_length key table.items, ?_⟩
  by_cases hkey : key.length < keySize
  · exact Or.inl hkey
  · exact Or.inr (lookup_long_key hkey table.items)

/-! ## Runs -/

theorem run_append (pre calls : List Call) : run (pre ++ calls) = calls.foldl step (run pre) :=
  List.foldl_append

theorem run_set (pre : List Call) (key val : Text) (ttl : Int) :
    run (pre ++ [.set key val ttl]) = (orbitCacheSet (run pre) key val ttl).2 :=
  run_append pre _

/-- A call changes no key but its own. -/
theorem get_step_other {table : Table} {call : Call} {k : Text}
    (hfits : ∀ key val ttl, call = .set key val ttl → table.takes key = true → Fits key val)
    (hother : ∀ val ttl, call ≠ .set k val ttl) :
    orbitCacheGet (step table call) k = orbitCacheGet table k := by
  cases call with
  | get key => rfl
  | set key val ttl =>
    rw [step]
    cases htakes : table.takes key with
    | false => rw [set_refused htakes]
    | true =>
      rw [get_set ttl htakes (hfits key val ttl rfl htakes)]
      refine Function.update_of_ne ?_ _ _
      rintro rfl
      exact hother val ttl rfl

theorem get_run_other {pre mid : List Call} {k : Text} (hfits : AllFit (pre ++ mid))
    (hother : ∀ val ttl, .set k val ttl ∉ mid) :
    orbitCacheGet (run (pre ++ mid)) k = orbitCacheGet (run pre) k := by
  induction mid generalizing pre with
  | nil => rw [List.append_nil]
  | cons call mid ih =>
    rw [List.append_cons] at hfits ⊢
    rw [ih hfits fun val ttl hmem => hother val ttl (List.mem_cons_of_mem _ hmem), run_append]
    refine get_step_other (fun key val ttl heq => ?_) fun val ttl heq => ?_
    · exact hfits pre key val ttl mid (by simp [heq])
    · exact hother val ttl (heq ▸ List.mem_cons_self)

theorem AllFit.append_left {pre post : List Call} (h : AllFit (pre ++ post)) : AllFit pre := by
  intro pre' key val ttl post' heq
  exact h pre' key val ttl (post' ++ post) (by simp [heq])

theorem IsMap.allFit {calls : List Call} (h : IsMap calls) : AllFit calls := by
  intro pre key val ttl post heq htakes
  have hread := h.kept pre key val ttl [] post heq ((set_accepted_iff _ _ _ _).mpr htakes)
    (fun _ _ => List.not_mem_nil)
  exact fits_of_get hread

/-- **A run treats the cache as a map** exactly when every pair that is taken fits into an item. -/
theorem isMap_iff (calls : List Call) : IsMap calls ↔ AllFit calls := by
  refine ⟨IsMap.allFit, fun h => ⟨?_, ?_⟩⟩
  · intro pre key val ttl mid post heq hset hmid
    rw [set_accepted_iff] at hset
    have hall : AllFit ((pre ++ [.set key val ttl]) ++ mid) := by
      refine @AllFit.append_left _ post ?_
      rw [← List.append_cons, List.append_assoc, List.cons_append, ← heq]
      exact h
    rw [List.append_cons, get_run_other hall hmid, run_set,
      get_set ttl hset (h pre key val ttl _ heq hset), Function.update_self]
  · intro pre key val ttl post heq k hk
    rw [run_append, List.foldl_cons, List.foldl_nil]
    refine get_step_other (fun key' val' ttl' hcall htakes => ?_) fun val' ttl' hcall => ?_
    · cases hcall
      exact h pre key val ttl post heq htakes
    · cases hcall
      exact hk rfl

/-- A key of 128 bytes is taken and never found. -/
theorem isMap_long_key :
    ¬ IsMap [.set (List.replicate 128 'k') ['v'] 0, .get (List.replicate 128 'k')] := by
  intro h
  obtain ⟨-, hkey | hval⟩ := h.allFit [] (List.replicate 128 'k') ['v'] 0 _ rfl (by decide)
  · rw [List.length_replicate] at hkey
    exact absurd hkey (by decide)
  · cases hval

end Runtime.Cache
