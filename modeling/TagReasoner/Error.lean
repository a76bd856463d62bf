import TagReasoner.Binary64.Display
import TagReasoner.Calendar.Moment
import TagReasoner.Number.Numeral
import TagReasoner.Text.Quoted

/-!
# Errors

Each way to fail is a constructor, and the wording is in one place. A `ParseError` names what is
malformed and the text that is; an error in a data file is wrapped with the place of its record. A
`Fault` is any failure of the library, a parse error among them. Reading rules one inside another
takes room on the stack, and a text may ask for more than there is: that is no parse error
(`Fault.tooDeep`).
-/

namespace TagReasoner

/-- What a text fails to be. -/
inductive Malformed where
  | argument
  | relation
  | fact
  | recommendation
  | arrow
  | ruleSides
  | tag
  | parentheses
  | listItem
  | nestedRule
  | emptySentence
  | nestedClause
  | shortRecord
  | oddRecord
  | threshold
  | weight
  | entryKeys
  | entryOutputs
  | documentShape
  deriving DecidableEq

/-- The complaint in words. -/
def Malformed.phrase : Malformed → String
  | argument => "Malformed argument"
  | relation => "Unknown relational operator"
  | fact => "Malformed fact"
  | recommendation => "Malformed recommendation"
  | arrow => "Rule needs '=>' or '->'"
  | ruleSides => "Rule needs both inputs and outputs"
  | tag => "Unrecognised tag"
  | parentheses => "Unbalanced parentheses"
  | listItem => "Empty tag in list"
  | nestedRule => "Rules cannot be nested in a rule string"
  | emptySentence => "Empty sentence"
  | nestedClause => "Nested rule in sentence"
  | shortRecord => "Record needs a tag and a threshold"
  | oddRecord => "Record has an output without a weight"
  | threshold => "Threshold must be an integer"
  | weight => "Weight must be a number"
  | entryKeys => "YAML entry needs 'tag' and 'threshold'"
  | entryOutputs => "YAML 'outputs' must map tags to weights"
  | documentShape => "YAML data must be a list of nodes"

/-- A text that cannot be read. -/
inductive ParseError where
  /-- The text is not what it should be. -/
  | malformed (what : Malformed) (text : Text)
  /-- A record of a data file cannot be read. -/
  | inRecord (path : Text) (number : Nat) (cause : ParseError)
  deriving DecidableEq

namespace ParseError

/-- The text that is at fault; an error in a record has told it already. -/
def text : ParseError → Text
  | malformed _ t => t
  | inRecord .. => []

/-- The complaint, followed by the quoted text unless that is empty. -/
def message : ParseError → Text
  | malformed what [] => what.phrase.toList
  | malformed what t => what.phrase.toList ++ ':' :: ' ' :: Text.quoted t
  | inRecord path number cause => path ++ ':' :: Text.ofNat number ++ ':' :: ' ' :: cause.message

end ParseError

/-- Why a scalar of a document has no value. -/
inductive ScalarError where
  /-- The digits of a number in a base are missing. -/
  | noDigits (base : Nat)
  /-- A whole number has more digits than are read. -/
  | tooManyDigits (count : Nat)
  | calendar (error : CalendarError)
  /-- The number of an escape is above all code points. -/
  | noCodePoint
  deriving DecidableEq

/-- The limit on the digits of whole numbers in words. -/
def digitLimitPhrase : Text :=
  "Exceeds the limit (".toList ++ Text.ofNat Number.digitLimit ++
    " digits) for integer string conversion".toList

/-- What can be done about the limit on digits. -/
def digitLimitAdvice : Text := "; use sys.set_int_max_str_digits() to increase the limit".toList

/-- The complaint in words. -/
def ScalarError.message : ScalarError → Text
  | noDigits base =>
    "invalid literal for int() with base ".toList ++ Text.ofNat base ++ ": ''".toList
  | tooManyDigits count =>
    digitLimitPhrase ++ ": value has ".toList ++ Text.ofNat count ++ " digits".toList ++
      digitLimitAdvice
  | calendar e => e.message
  | noCodePoint => "chr() arg not in range(0x110000)".toList

/-- Why a value of a setting is refused. -/
inductive Refusal where
  | notInteger
  | fractional
  | notFinite
  | outOfRange
  | integerWanted
  | notNumber
  | numberWanted
  | textWanted
  | belowOne
  deriving DecidableEq

/-- Any failure. -/
inductive Fault where
  | parse (error : ParseError)
  /-- A confidence outside the unit interval. -/
  | confidence (got : Binary64)
  /-- A negative number of cycles. -/
  | negativeCycles (got : Int)
  /-- A truth value in place of a number of cycles. -/
  | cyclesNotCounted
  /-- Rules one inside another, more than there is room to read. -/
  | tooDeep
  /-- A value that is no tag, by the name of its kind. -/
  | notATag (kind : Text)
  /-- A kind of tag that does not exist. -/
  | unknownTagKind (name : Text)
  /-- A belief over no observations, for the tag with this text. -/
  | noTruths (tag : Text)
  | emptyDelimiter
  | unknownLevel (name : Text)
  /-- A whole number too large for a double. -/
  | tooLarge
  /-- Bytes that are no text. -/
  | undecodable
  /-- A document with broken structure. -/
  | brokenDocument
  /-- A scalar of a document without a value. -/
  | scalar (error : ScalarError)
  /-- A whole number with more digits than are shown. -/
  | unshowable
  /-- Refused settings, by field. -/
  | settings (refusals : List (Text × Refusal))
  deriving DecidableEq

/-- The wording of a failure; the structural ones have none. -/
def Fault.message : Fault → Text
  | parse e => e.message
  | confidence x => "Confidence must be in [0, 1], got ".toList ++ x.exact
  | negativeCycles n => "number_of_cycles must be >= 0, got ".toList ++ Text.ofInt n
  | cyclesNotCounted => "number_of_cycles must be an int or None".toList
  | notATag kind => "Unknown tag type: ".toList ++ kind
  | unknownTagKind name => "Unknown tag type: ".toList ++ Text.quoted name
  | noTruths tag => "No related truths for ".toList ++ tag
  | emptyDelimiter => "empty separator".toList
  | unknownLevel name => "Unknown level: ".toList ++ Text.quoted name
  | scalar e => e.message
  | unshowable => digitLimitPhrase ++ digitLimitAdvice
  | tooDeep | tooLarge | undecodable | brokenDocument | settings _ => []

end TagReasoner
