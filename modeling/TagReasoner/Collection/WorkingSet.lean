/-!
# Working sets

A finite set whose elements stand in the order in which they came in. No two elements are equal.
Adding an element equal to one that is there changes nothing, so the first spelling stays; removing
an element and adding it again puts it last. Equality is whatever `==` says.
-/

namespace TagReasoner

/-- Distinct elements, oldest first. -/
structure WorkingSet (α : Type) [BEq α] where
  items : List α
  distinct : items.Pairwise fun a b => (a == b) = false

namespace WorkingSet

variable {α : Type} [BEq α]

/-- No elements. -/
def empty : WorkingSet α := ⟨[], .nil⟩

instance : Inhabited (WorkingSet α) := ⟨empty⟩

/-- The number of elements. -/
def size (s : WorkingSet α) : Nat := s.items.length

def isEmpty (s : WorkingSet α) : Bool := s.items.isEmpty

/-- Is there an element equal to `a`? -/
def contains (s : WorkingSet α) (a : α) : Bool := s.items.any (· == a)

/-- Adds an element unless an equal one is there. -/
def insert (s : WorkingSet α) (a : α) : WorkingSet α :=
  if h : s.contains a = false then
    { items := s.items ++ [a]
      distinct := by
        rw [List.pairwise_append]
        refine ⟨s.distinct, List.pairwise_singleton .., ?_⟩
        intro x hx y hy
        obtain rfl := List.mem_singleton.1 hy
        simpa using List.any_eq_false.1 h x hx }
  else s

/-- Keeps the elements that satisfy a test. -/
def filter (s : WorkingSet α) (p : α → Bool) : WorkingSet α :=
  ⟨s.items.filter p, s.distinct.sublist List.filter_sublist⟩

/-- Removes the elements equal to `a`. -/
def erase (s : WorkingSet α) (a : α) : WorkingSet α := s.filter fun x => !(x == a)

/-- Adds elements from left to right. -/
def insertAll (s : WorkingSet α) (as : List α) : WorkingSet α := as.foldl insert s

/-- The set of the elements of a list. -/
def ofList (as : List α) : WorkingSet α := empty.insertAll as

/-- The elements of the second set are added to the first. -/
def union (s t : WorkingSet α) : WorkingSet α := s.insertAll t.items

/-- The elements of the first set that the second does not contain. -/
def diff (s t : WorkingSet α) : WorkingSet α := s.filter fun a => !t.contains a

/-! ## Laws -/

theorem items_insert (s : WorkingSet α) (a : α) :
    (s.insert a).items = if s.contains a then s.items else s.items ++ [a] := by
  unfold insert
  split
  next h => simp [h]
  next h => rw [if_pos ((Bool.not_eq_false _).mp h)]

theorem subset_insert (s : WorkingSet α) (a : α) : s.items ⊆ (s.insert a).items := by
  rw [items_insert]
  split
  · exact List.Subset.refl _
  · exact List.subset_append_left ..

theorem items_erase (s : WorkingSet α) (a : α) :
    (s.erase a).items = s.items.filter fun x => !(x == a) := rfl

end WorkingSet
end TagReasoner
