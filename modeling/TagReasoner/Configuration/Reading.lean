import TagReasoner.Configuration.Settings
import TagReasoner.Configuration.Value
import TagReasoner.Configuration.Variables
import TagReasoner.Text.Pieces
import TagReasoner.Text.UpperCase

/-!
# Reading settings

The value of a setting comes from the first source that has one: what is given directly, the
environment, a file of environment variables, the default. Variables are named by a mark and the
name of the setting, in letters of any case. A value that does not suit its setting is refused, and
all refusals are told together, by the name of the setting.
-/

namespace TagReasoner

/-- Where settings come from. -/
structure Sources where
  given : List (Text × Document)
  environment : List (Text × Text)
  /-- The text of a file of environment variables. -/
  file : Text

namespace Sources

/-- A name in lower case. Apart from the letters of ASCII one other character has its lower case
there, the sign of the kelvin. -/
def lowerName (name : Text) : Text :=
  Number.lowerAscii (name.map fun c => if c.toNat = 0x212A then 'k' else c)

/-- The names are the same but for the case of letters. -/
def sameName (a b : Text) : Bool := lowerName a == lowerName b

/-- The value that is given under a name, or else under the first one that differs in case. -/
def givenValue? (s : Sources) (name : Text) : Option Document :=
  ((s.given.find? fun g => g.1 = name).or (s.given.find? fun g => sameName g.1 name)).map (·.2)

/-- The bindings of the file. It may start with a mark of the byte order. -/
def bindings (s : Sources) : List Variables.Binding :=
  let t := Text.unifyLineEnds s.file
  let t := if t.head? = some (Char.ofNat 0xFEFF) then t.drop 1 else t
  Variables.resolved s.environment (Variables.bindings t)

/-- The value of the last variable of the environment with a name. -/
def environmentValue? (s : Sources) (name : Text) : Option Text :=
  (s.environment.reverse.find? fun v => sameName v.1 name).map (·.2)

/-- The value of the last variable of the file with a name. -/
def fileValue? (s : Sources) (name : Text) : Option Text :=
  (s.bindings.reverse.find? fun b => sameName b.name name).bind (·.value)

/-- The value of a setting in the first source that has one; `mark` starts the names of variables. -/
def value? (s : Sources) (mark name : Text) : Option Document :=
  (s.givenValue? name).or <|
    ((s.environmentValue? (mark ++ name)).or (s.fileValue? (mark ++ name))).map .text

end Sources

/-- The value of a setting, or its default where no source has one. -/
def settingOr (value : Option Document) (read : Document → Except Refusal α) (standard : α) :
    Except Refusal α :=
  (value.map read).getD (.ok standard)

/-- The refusal of a setting, if it was refused. -/
def refusalOf (name : String) : Except Refusal α → List (Text × Refusal)
  | .error r => [(name.toList, r)]
  | .ok _ => []

/-- Reads the settings from their sources. -/
def Settings.read (s : Sources) (mark : Text) : Except Fault Settings :=
  let d := Settings.standard
  let value (name : String) := s.value? mark name.toList
  let logLevel := settingOr (value "log_level") SettingValue.text d.logLevel
  let nodeMaxAge := settingOr (value "node_max_age") SettingValue.real d.nodeMaxAge
  let nodeStrength := settingOr (value "node_strength") SettingValue.whole d.nodeStrength
  let cutoff := settingOr (value "output_weight_cutoff") SettingValue.real d.outputWeightCutoff
  let delimiter := settingOr (value "record_delimiter") SettingValue.text d.recordDelimiter
  let rest := settingOr (value "rest_cycles") SettingValue.positive ⟨d.restCycles, d.rest_pos⟩
  let ply := settingOr (value "search_ply") SettingValue.positive ⟨d.searchPly, d.ply_pos⟩
  let cap := settingOr (value "think_cycle_cap") SettingValue.positive ⟨d.thinkCycleCap, d.cap_pos⟩
  match logLevel, nodeMaxAge, nodeStrength, cutoff, delimiter, rest, ply, cap with
  | .ok logLevel, .ok nodeMaxAge, .ok nodeStrength, .ok cutoff, .ok delimiter, .ok rest, .ok ply,
      .ok cap =>
    .ok
      { thinkCycleCap := cap.1, restCycles := rest.1, nodeMaxAge := nodeMaxAge
        nodeStrength := nodeStrength, outputWeightCutoff := cutoff, searchPly := ply.1
        recordDelimiter := delimiter, logLevel := Text.upper logLevel
        cap_pos := cap.2, rest_pos := rest.2, ply_pos := ply.2 }
  | _, _, _, _, _, _, _, _ =>
    .error <| .settings <|
      refusalOf "log_level" logLevel ++ refusalOf "node_max_age" nodeMaxAge ++
        refusalOf "node_strength" nodeStrength ++ refusalOf "output_weight_cutoff" cutoff ++
        refusalOf "record_delimiter" delimiter ++ refusalOf "rest_cycles" rest ++
        refusalOf "search_ply" ply ++ refusalOf "think_cycle_cap" cap

end TagReasoner
