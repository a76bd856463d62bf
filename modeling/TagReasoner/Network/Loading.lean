import TagReasoner.Network.DataFile
import TagReasoner.Notice

/-!
# Loading nodes from data files

A record that cannot be read stops a strict loading; a lenient one leaves it out and tells so. Both
name the file and the number of the record. Other faults stop either loading, among them a record
with more rules one inside another than there is room for.
-/

namespace TagReasoner

/-- Reads the node of a record. -/
def Numbered.node (r : Numbered) (depth : Nat) (s : Settings) (now : Binary64) :
    Except Fault Node :=
  r.2.bind fun tokens => Node.ofRecordWithin depth s now tokens

/-- The nodes of numbered records, in order, and the errors of those that are left out. -/
def readNodes (depth : Nat) (s : Settings) (now : Binary64) (path : Text) (strict : Bool) :
    List Numbered → Except Fault (List Node × List ParseError)
  | [] => .ok ([], [])
  | r :: rest =>
    match r.node depth s now with
    | .ok n => (readNodes depth s now path strict rest).map fun (nodes, errors) => (n :: nodes, errors)
    | .error (.parse e) =>
      let e := .inRecord path r.1 e
      if strict then .error (.parse e)
      else
        (readNodes depth s now path strict rest).map fun (nodes, errors) => (nodes, e :: errors)
    | .error f => .error f

/-- The nodes of a data file and what was told while loading them. -/
structure Loaded where
  nodes : List Node
  notices : List Notice

/-- Loads the nodes of a data file, with room for `depth` rules one inside another. A strict loading
fails with the first error. -/
def DataFile.load (f : DataFile) (depth : Nat) (s : Settings) (delimiter : Text) (now : Binary64)
    (strict : Bool) : Except Fault Loaded :=
  (f.records delimiter).bind fun records =>
    (readNodes depth s now (plainPath f.path) strict records).map fun (nodes, errors) =>
      ⟨nodes, errors.map .skipped⟩

end TagReasoner
