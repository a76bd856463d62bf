/-!
# Keyed entries in order

An association from keys to values that keeps its entries in the order in which their keys first
came. No two keys are equal. Writing under a key that is there changes the value and keeps the key
and its place (`keys_put_of_contains`); a new key goes to the end (`entries_put_of_not_contains`).
Equality of keys is whatever `==` says and need not be lawful.
-/

namespace TagReasoner

/-- Entries under distinct keys, oldest first. -/
structure Keyed (κ α : Type) [BEq κ] where
  entries : List (κ × α)
  distinct : entries.Pairwise fun d e => (d.1 == e.1) = false

namespace Keyed

variable {κ α : Type} [BEq κ]

/-- No entries. -/
def empty : Keyed κ α := ⟨[], .nil⟩

instance : Inhabited (Keyed κ α) := ⟨empty⟩

/-- The number of entries. -/
def size (m : Keyed κ α) : Nat := m.entries.length

/-- The keys, oldest first. -/
def keys (m : Keyed κ α) : List κ := m.entries.map (·.1)

/-- The values in the order of their keys. -/
def values (m : Keyed κ α) : List α := m.entries.map (·.2)

/-- The value under a key. -/
def get? (m : Keyed κ α) (k : κ) : Option α := (m.entries.find? fun e => e.1 == k).map (·.2)

/-- Is there an entry under the key? -/
def contains (m : Keyed κ α) (k : κ) : Bool := m.entries.any fun e => e.1 == k

/-- Changes the values and keeps the keys. -/
def mapValues (m : Keyed κ α) (f : κ → α → α) : Keyed κ α :=
  ⟨m.entries.map fun e => (e.1, f e.1 e.2), by simpa [List.pairwise_map] using m.distinct⟩

/-- Changes the value under a key, if there is one. -/
def modify (m : Keyed κ α) (k : κ) (f : α → α) : Keyed κ α :=
  m.mapValues fun j a => if j == k then f a else a

/-- Appends an entry under a key that is not there. -/
def append (m : Keyed κ α) (k : κ) (a : α) (h : m.contains k = false) : Keyed κ α where
  entries := m.entries ++ [(k, a)]
  distinct := by
    rw [List.pairwise_append]
    refine ⟨m.distinct, List.pairwise_singleton .., ?_⟩
    intro e he f hf
    obtain rfl := List.mem_singleton.1 hf
    simpa using List.any_eq_false.1 h e he

/-- Writes a value under a key. -/
def put (m : Keyed κ α) (k : κ) (a : α) : Keyed κ α :=
  if h : m.contains k = false then m.append k a h else m.modify k fun _ => a

/-- Adds an entry under a key that is not there, and changes nothing otherwise. -/
def insertNew (m : Keyed κ α) (k : κ) (a : α) : Keyed κ α :=
  if h : m.contains k = false then m.append k a h else m

/-- Removes the entry under a key. -/
def erase (m : Keyed κ α) (k : κ) : Keyed κ α :=
  ⟨m.entries.filter fun e => !(e.1 == k), m.distinct.sublist List.filter_sublist⟩

/-- Writes entries from left to right. -/
def ofList (es : List (κ × α)) : Keyed κ α := es.foldl (fun m e => m.put e.1 e.2) empty

/-! ## Laws -/

theorem contains_eq_isSome (m : Keyed κ α) (k : κ) : m.contains k = (m.get? k).isSome := by
  rw [contains, get?, Option.isSome_map, Bool.eq_iff_iff, List.find?_isSome, List.any_eq_true]

theorem keys_mapValues (m : Keyed κ α) (f : κ → α → α) : (m.mapValues f).keys = m.keys := by
  simp [mapValues, keys, Function.comp_def]

theorem keys_put_of_contains {m : Keyed κ α} {k : κ} (h : m.contains k = true) (a : α) :
    (m.put k a).keys = m.keys := by
  rw [put, dif_neg (by simp [h])]
  exact keys_mapValues ..

theorem entries_put_of_not_contains {m : Keyed κ α} {k : κ} (h : m.contains k = false) (a : α) :
    (m.put k a).entries = m.entries ++ [(k, a)] := by
  rw [put, dif_pos h]
  rfl

end Keyed
end TagReasoner
