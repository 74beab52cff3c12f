import Orbit.Runtime.Http

/-!
# The cache

`orbit_cache_get` and `orbit_cache_set` of `runtime/builtins.c`: one table of at most 64 items, each
with a key and a value in fields of a fixed size. No expiry is ever read. Allocations succeed.
-/

namespace Runtime.Cache

open Http (Text)

def keySize : Nat := 128

def valSize : Nat := 512

def maxItems : Nat := 64

/-- What `snprintf` leaves of a text in a field of `size` bytes. -/
def snprintf (size : Nat) (s : Text) : Text := s.take (size - 1)

theorem snprintf_length {size : Nat} (s : Text) (h : 0 < size) : (snprintf size s).length < size := by
  rw [snprintf, List.length_take]
  omega

theorem snprintf_of_fits {size : Nat} {s : Text} (h : s.length < size) : snprintf size s = s :=
  List.take_of_length_le (by omega)

/-- Each field has room for its NUL. -/
structure OrbitCacheItem where
  key : Text
  val : Text
  key_fits : key.length < keySize
  val_fits : val.length < valSize

def OrbitCacheItem.write (item : OrbitCacheItem) (val : Text) : OrbitCacheItem :=
  { item with val := snprintf valSize val, val_fits := snprintf_length val (by decide) }

def OrbitCacheItem.make (key val : Text) : OrbitCacheItem where
  key := snprintf keySize key
  val := snprintf valSize val
  key_fits := snprintf_length key (by decide)
  val_fits := snprintf_length val (by decide)

/-- The items up to `g_orbit_cache_count`. -/
structure Table where
  items : List OrbitCacheItem
  room : items.length ≤ maxItems

def Table.empty : Table := ⟨[], Nat.zero_le _⟩

/-- The value of the first item with a key, the empty text when there is none. -/
def lookup (key : Text) : List OrbitCacheItem → Text
  | [] => []
  | item :: items => if item.key = key then item.val else lookup key items

theorem lookup_nil (key : Text) : lookup key [] = [] := rfl

theorem lookup_cons (key : Text) (item : OrbitCacheItem) (items : List OrbitCacheItem) :
    lookup key (item :: items) = if item.key = key then item.val else lookup key items := rfl

def orbitCacheGet (table : Table) (key : Text) : Text := lookup key table.items

/-- The items with a value stored into the first that has the key. -/
def overwrite (key val : Text) : List OrbitCacheItem → Option (List OrbitCacheItem)
  | [] => none
  | item :: items =>
    if item.key = key then some (item.write val :: items)
    else (overwrite key val items).map (item :: ·)

theorem overwrite_cons (key val : Text) (item : OrbitCacheItem) (items : List OrbitCacheItem) :
    overwrite key val (item :: items) =
      if item.key = key then some (item.write val :: items)
      else (overwrite key val items).map (item :: ·) := rfl

theorem overwrite_length {key val : Text} {items items' : List OrbitCacheItem}
    (h : overwrite key val items = some items') : items'.length = items.length := by
  induction items generalizing items' with
  | nil => cases h
  | cons item items ih =>
    rw [overwrite_cons] at h
    split at h
    · cases h
      rfl
    · obtain ⟨rest, hrest, rfl⟩ := Option.map_eq_some_iff.mp h
      simp [ih hrest]

/-- The lifetime is ignored. -/
def orbitCacheSet (table : Table) (key val : Text) (_ttl : Int) : Bool × Table :=
  match h : overwrite key val table.items with
  | some items => (true, ⟨items, by rw [overwrite_length h]; exact table.room⟩)
  | none =>
    if hroom : table.items.length < maxItems then
      (true, ⟨table.items ++ [.make key val], by rw [List.length_append]; exact hroom⟩)
    else (false, table)

/-! ## Calls -/

inductive Call where
  | set (key val : Text) (ttl : Int)
  | get (key : Text)

def step (table : Table) : Call → Table
  | .set key val ttl => (orbitCacheSet table key val ttl).2
  | .get _ => table

/-- The table after some calls. -/
def run (calls : List Call) : Table := calls.foldl step Table.empty

/-- A run that treats the cache as a map: what is stored is read until its key is set again, and a
store changes no other key. -/
structure IsMap (calls : List Call) : Prop where
  kept : ∀ pre key val ttl mid post, calls = pre ++ .set key val ttl :: (mid ++ post) →
    (orbitCacheSet (run pre) key val ttl).1 = true → (∀ val' ttl', .set key val' ttl' ∉ mid) →
      orbitCacheGet (run (pre ++ .set key val ttl :: mid)) key = val
  others : ∀ pre key val ttl post, calls = pre ++ .set key val ttl :: post →
    ∀ k ≠ key, orbitCacheGet (run (pre ++ [.set key val ttl])) k = orbitCacheGet (run pre) k

/-- The table has an item for the key, or room for one. -/
def Table.takes (table : Table) (key : Text) : Bool :=
  table.items.any (·.key = key) || table.items.length < maxItems

/-- A pair that the fields of an item hold. Under a key that they do not hold the empty text is
found, which is what is read where nothing is. -/
def Fits (key val : Text) : Prop := val.length < valSize ∧ (key.length < keySize ∨ val = [])

/-- Each pair that a run takes fits. -/
def AllFit (calls : List Call) : Prop :=
  ∀ pre key val ttl post, calls = pre ++ .set key val ttl :: post →
    (run pre).takes key = true → Fits key val

end Runtime.Cache
