import TagReasoner.Configuration.Settings
import TagReasoner.Error
import TagReasoner.Text.UpperCase

/-!
# Logging

The logger has a level and handlers. Configuring it gives it a handler the first time and sets its
level, which is named in letters of any case; no name means the level of the settings.
-/

namespace TagReasoner

/-- The levels by name, in upper case. -/
def logLevels : List (String × Nat) :=
  [("CRITICAL", 50), ("FATAL", 50), ("ERROR", 40), ("WARNING", 30), ("WARN", 30), ("INFO", 20),
   ("DEBUG", 10), ("NOTSET", 0)]

/-- The number of a level. -/
def levelNumber? (name : Text) : Option Nat :=
  (logLevels.find? fun l => l.1.toList = name).map (·.2)

/-- A logger: its level and how many handlers it has. -/
structure Logger where
  level : Nat
  handlers : Nat
  deriving DecidableEq

/-- A logger that has not been configured. -/
def Logger.fresh : Logger := ⟨0, 0⟩

/-- Configures the logger. An unknown level is refused. -/
def Logger.configure (l : Logger) (s : Settings) (level : Option Text) : Except Fault Logger :=
  let chosen := level.getD []
  let name := Text.upper (if chosen.isEmpty then s.logLevel else chosen)
  match levelNumber? name with
  | some number => .ok ⟨number, max l.handlers 1⟩
  | none => .error (.unknownLevel name)

/-- Configures the logger several times; the loggers in between are the answer. -/
def Logger.configureAll (s : Settings) : Logger → List (Option Text) → Except Fault (List Logger)
  | _, [] => .ok []
  | l, level :: levels => do
    let l' ← l.configure s level
    return l' :: (← configureAll s l' levels)

end TagReasoner
