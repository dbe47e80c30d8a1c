import RubyLint.RubyVersion
import RubyLint.Severity

/-!
# Configuration

What a run is told: the version of the programs it looks at, how much the offenses of each rule
weigh, and how often a text is corrected at most.
-/

namespace RubyLint

/-- What the configuration says about one rule. -/
inductive RuleLevel where
  | deny
  | warn
  | allow
deriving DecidableEq, Inhabited

namespace RuleLevel

def name : RuleLevel → String
  | .deny => "deny"
  | .warn => "warn"
  | .allow => "allow"

def ofName? : String → Option RuleLevel
  | "deny" => some .deny
  | "warn" => some .warn
  | "allow" => some .allow
  | _ => none

/-- The severity of the rule's offenses; none if they are not reported. -/
def severity? : RuleLevel → Option Severity
  | .deny => some .error
  | .warn => some .warning
  | .allow => none

end RuleLevel

/-- What a run is told. -/
structure Config where
  target : RubyVersion
  /-- what is said about single rules, by their identifiers -/
  rules : List (String × RuleLevel)
  maxIterations : Nat
  /-- the size from which a literal in a loop is reported -/
  loopLiteralSize : Nat
  /-- the size from which a literal in a method is reported -/
  methodLiteralSize : Nat

namespace Config

def standard : Config := ⟨.standard, [], 200, 1, 1⟩

def level? (c : Config) (rule : String) : Option RuleLevel :=
  (c.rules.find? fun r => r.1 == rule).map Prod.snd

/-- The severity of a rule's offenses; none if they are not reported. -/
def severity? (c : Config) (rule : String) (otherwise : Severity) : Option Severity :=
  match c.level? rule with
  | some level => level.severity?
  | none => some otherwise

def isEnabled (c : Config) (rule : String) : Bool := c.level? rule != some .allow

end Config

/-- Why there is no configuration. -/
inductive ConfigError where
  /-- the text is no document, or not one of a configuration -/
  | malformed
  | version (text : String)
  | noIterations
  | missingPath (path : String)
  | tooLarge (size : Nat) (path : String)
deriving DecidableEq

namespace ConfigError

/-- The largest file that is read, in bytes. -/
def maxFileSize : Nat := 1024 * 1024

def message : ConfigError → String
  | .malformed => "invalid toml"
  | .version text => RubyVersion.invalidMessage text
  | .noIterations => "Configuration error: correction.max_iterations must be at least 1"
  | .missingPath path => s!"Configuration error: Path does not exist: {path}"
  | .tooLarge size path =>
    s!"Configuration error: Config file too large ({size} bytes, max {maxFileSize} bytes): {path}"

end ConfigError

namespace Config

/-- A run needs at least one pass. -/
def fault? (c : Config) : Option ConfigError :=
  if c.maxIterations = 0 then some .noIterations else none

end Config

end RubyLint
