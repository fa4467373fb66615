/-!
# UILayout.OrderedMap

Values by key, in the order in which the keys were put in. Putting a key that is there replaces its
value and leaves it in its place.

* `get?_put`: what is read after putting.
-/

namespace UILayout

structure OrderedMap (κ α : Type) where
  entries : List (κ × α)
  deriving Repr

namespace OrderedMap

variable {κ α β : Type}

def empty : OrderedMap κ α := ⟨[]⟩

instance : Inhabited (OrderedMap κ α) := ⟨empty⟩

def isEmpty (m : OrderedMap κ α) : Bool := m.entries.isEmpty

def keys (m : OrderedMap κ α) : List κ := m.entries.map (·.1)

def values (m : OrderedMap κ α) : List α := m.entries.map (·.2)

def map (f : α → β) (m : OrderedMap κ α) : OrderedMap κ β := ⟨m.entries.map fun e => (e.1, f e.2)⟩

/-- Keeps the entries whose changed value passes; `none` drops one. -/
def filterMap (f : κ → α → Option β) (m : OrderedMap κ α) : OrderedMap κ β :=
  ⟨m.entries.filterMap fun e => (f e.1 e.2).map fun v => (e.1, v)⟩

variable [DecidableEq κ]

def get? (m : OrderedMap κ α) (key : κ) : Option α :=
  (m.entries.find? (·.1 = key)).map (·.2)

def contains (m : OrderedMap κ α) (key : κ) : Bool := m.entries.any (·.1 = key)

/-- Puts a value into the place of its key, or behind all others. -/
def putEntry (key : κ) (value : α) : List (κ × α) → List (κ × α)
  | [] => [(key, value)]
  | e :: rest => if e.1 = key then (key, value) :: rest else e :: putEntry key value rest

def put (m : OrderedMap κ α) (key : κ) (value : α) : OrderedMap κ α := ⟨putEntry key value m.entries⟩

/-- Changes what stands under a key, `none` standing for nothing; a new key comes last. -/
def alter (m : OrderedMap κ α) (key : κ) (f : Option α → α) : OrderedMap κ α :=
  m.put key (f (m.get? key))

def erase (m : OrderedMap κ α) (key : κ) : OrderedMap κ α := ⟨m.entries.filter (·.1 ≠ key)⟩

def ofList (entries : List (κ × α)) : OrderedMap κ α :=
  entries.foldl (fun m e => m.put e.1 e.2) empty

theorem get?_put (m : OrderedMap κ α) (key other : κ) (value : α) :
    (m.put key value).get? other = if other = key then some value else m.get? other := by
  obtain ⟨entries⟩ := m
  unfold put get?
  induction entries with
  | nil =>
    by_cases h : other = key
    · simp [putEntry, h]
    · simp [putEntry, h, Ne.symm h]
  | cons e rest ih =>
    obtain ⟨k, v⟩ := e
    by_cases hk : k = key
    · subst hk
      by_cases ho : other = k
      · simp [putEntry, ho]
      · simp [putEntry, ho, Ne.symm ho]
    · by_cases ho : other = k
      · subst ho
        simp [putEntry, hk]
      · simpa [putEntry, hk, ho, Ne.symm ho] using ih

end OrderedMap

abbrev NameMap := OrderedMap String

end UILayout
