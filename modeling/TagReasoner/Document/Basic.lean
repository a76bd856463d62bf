import TagReasoner.Binary64.Display
import TagReasoner.Calendar.Moment
import TagReasoner.Error
import TagReasoner.Tag.Basic

/-!
# Documents

A document is a value whose shape is not known in advance: what a data file in document form holds,
what a setting is given, or what stands where a tag should be. It has a kind with a name, a text,
and it is *void* when it holds nothing.

The text of a text is the text itself; inside a list or a map texts are quoted. Whole numbers have
any size, but those with too many digits are not shown, and neither is what holds them.
-/

namespace TagReasoner

/-- A value of any shape. -/
inductive Document where
  | null
  | truth (value : Bool)
  | whole (value : Int)
  | real (value : Binary64)
  | moment (value : Moment)
  | text (value : Text)
  | list (items : List Document)
  | map (entries : List (Document × Document))

namespace Document

instance : Inhabited Document := ⟨null⟩

/-- The name of a document's kind. -/
def kindName : Document → Text
  | null => "NoneType".toList
  | truth _ => "bool".toList
  | whole _ => "int".toList
  | real _ => "float".toList
  | moment (.date _) => "date".toList
  | moment (.time ..) => "datetime".toList
  | text _ => "str".toList
  | list _ => "list".toList
  | map _ => "dict".toList

/-- Is there nothing in the document? -/
def isVoid : Document → Bool
  | null => true
  | truth value => !value
  | whole value => value == 0
  | real value => value.equal (.zero false)
  | moment _ => false
  | text value => value.isEmpty
  | list items => items.isEmpty
  | map entries => entries.isEmpty

mutual

/-- The text of a document inside another one. -/
def inner : Document → Text
  | null => "None".toList
  | truth value => if value then "True".toList else "False".toList
  | whole value => Text.ofInt value
  | real value => value.exact
  | moment value => value.description
  | text value => Text.quoted value
  | list items => '[' :: Text.join [',', ' '] (innerItems items) ++ [']']
  | map entries => '{' :: Text.join [',', ' '] (innerEntries entries) ++ ['}']

/-- The texts of the items of a list. -/
def innerItems : List Document → List Text
  | [] => []
  | d :: ds => inner d :: innerItems ds

/-- The texts of the entries of a map. -/
def innerEntries : List (Document × Document) → List Text
  | [] => []
  | (k, d) :: es => (inner k ++ ':' :: ' ' :: inner d) :: innerEntries es

end

/-- The text of a document on its own. -/
def display : Document → Text
  | moment value => value.text
  | text value => value
  | d => inner d

mutual

/-- Is the document shown? -/
def isShown : Document → Bool
  | whole value => value.natAbs < Nat.pow 10 Number.digitLimit
  | list items => areShown items
  | map entries => entriesAreShown entries
  | _ => true

/-- Are all items of a list shown? -/
def areShown : List Document → Bool
  | [] => true
  | d :: ds => isShown d && areShown ds

/-- Are all entries of a map shown? -/
def entriesAreShown : List (Document × Document) → Bool
  | [] => true
  | (k, d) :: es => isShown k && isShown d && entriesAreShown es

end

/-- The text of a document that is shown. -/
def shown (d : Document) : Except Fault Text :=
  if d.isShown then .ok d.display else .error .unshowable

/-- The number that a document counts as. -/
def number? : Document → Option Binary64
  | truth value => some (.ofNat (if value then 1 else 0))
  | whole value => Binary64.ofInt? value
  | real value => some value
  | _ => none

/-- The whole number that a document counts as. -/
def wholeNumber? : Document → Option Int
  | truth value => some (if value then 1 else 0)
  | whole value => some value
  | real value => value.whole?
  | _ => none

/-- The documents are the same key of a map. Numbers and truth values are compared as numbers, and
what is not a number is the same as itself; lists and maps are no keys. -/
def sameKey : Document → Document → Bool
  | null, null => true
  | text s, text t => s == t
  | moment m, moment n => m.same n
  | real x, real y => x.equal y || (x.isNaN && y.isNaN)
  | d, e =>
    match d.wholeNumber?, e.wholeNumber? with
    | some m, some n => m == n
    | _, _ => false

/-- Writes an entry into a map; under a key that is there already the new value counts. -/
def putEntry (key value : Document) : List (Document × Document) → List (Document × Document)
  | [] => [(key, value)]
  | e :: es => if e.1.sameKey key then (e.1, value) :: es else e :: putEntry key value es

/-- The value under a key that is a text. -/
def field? (entries : List (Document × Document)) (name : Text) : Option Document :=
  (entries.find? fun e => e.1.sameKey (.text name)).map (·.2)

/-- A document in the place of a tag. -/
def asTag (d : Document) : Tag := .foreign d.kindName d.display

end Document
end TagReasoner
