import TagReasoner.Collection.WorkingSet
import TagReasoner.Matching.Substitution
import TagReasoner.Tag.Order

/-!
# Renaming rules apart

Before two rules are put together, the variables of one are renamed away from names that the other
uses. A name in the way gets the first number appended that makes a name neither side has. Bare
marks are no names and are left alone, unless a variable of the other mark is named like them.
-/

namespace TagReasoner

/-! ## The variables of tags -/

/-- Notes the named variables of a fact; the first binder noted for a name stays. -/
def Fact.noteVariables (noted : Keyed Text Binder) (f : Fact) : Keyed Text Binder :=
  f.arguments.foldl (fun noted a =>
    match a.term with
    | .variable name binder => if a.isAnonymous then noted else noted.insertNew name binder
    | _ => noted) noted

mutual

/-- Notes the named variables of a tag. The binders inside a rule replace those noted before. -/
def Tag.noteVariables (noted : Keyed Text Binder) : Tag → Keyed Text Binder
  | .fact f => f.noteVariables noted
  | .rule i o =>
    (Tag.noteAllVariables (Tag.noteAllVariables .empty i) o).entries.foldl
      (fun noted e => noted.put e.1 e.2) noted
  | _ => noted

/-- Notes the named variables of tags from left to right. -/
def Tag.noteAllVariables (noted : Keyed Text Binder) : List Tag → Keyed Text Binder
  | [] => noted
  | t :: ts => Tag.noteAllVariables (Tag.noteVariables noted t) ts

end

/-- The named variables of a rule with their binders. -/
def Rule.namedVariables (r : Rule) : Keyed Text Binder :=
  Tag.noteAllVariables .empty (r.inputs ++ r.outputs)

/-! ## Fresh names -/

/-- The name with the first number behind it that makes it differ from all names in use. Among one
more candidates than there are names in use, one is free. -/
def freshName (used : List Text) (name : Text) : Text :=
  match (List.range (used.length + 1)).find? fun k => !used.contains (name ++ Text.ofNat (k + 1)) with
  | some k => name ++ Text.ofNat (k + 1)
  | none => name

/-- A renaming of `names`, each to a fresh one that is in use from then on. -/
def freshRenaming (own : Keyed Text Binder) : List Text → List Text → Substitution → Substitution
  | [], _, θ => θ
  | name :: names, used, θ =>
    let fresh := freshName used name
    let binder := (own.get? name).getD .single
    freshRenaming own names (fresh :: used) (θ.put name (Argument.named fresh binder []))

/-- The renaming that takes the variables of a rule away from `taken`, names in ascending order. -/
def Rule.renamingApart (r : Rule) (taken : List Text) : Substitution :=
  let own := r.namedVariables
  let clashes := (own.keys.filter taken.contains).mergeSort Text.atMost
  freshRenaming own clashes (own.keys ++ taken) .empty

/-- The rule with its variables renamed away from `taken`. -/
def Rule.renameApart (r : Rule) (taken : List Text) : Rule := r.substitute (r.renamingApart taken)

/-- Renaming, or the kind of a part that is no tag and that it would have to look into. -/
def Rule.renameApartChecked (r : Rule) (taken : List Text) : Except Fault Rule :=
  match r.toTag.substitutionRefusal? (r.renamingApart taken) with
  | some kind => .error (.notATag kind)
  | none => .ok (r.renameApart taken)

end TagReasoner
