import Accessors.Log.Record
import Accessors.Scope

/-! # Settings

What steers classification and planning, and the options through which the settings are given. -/

namespace Accessors

/-- The settings of classification and planning. -/
structure Config where
  /-- The scope of members and cases when neither they nor their type are annotated. -/
  defaultScope : Scope := .all
  /-- Recognised pairs of wrappers merge into combinations. -/
  nestedCombinations : Bool := true
  /-- Wrappers nested too deeply are refused. -/
  strictNesting : Bool := false
  /-- Records below this level are not written. -/
  logLevel : Level := .notice
deriving DecidableEq, Repr

/-- The settings that were given; the others keep their defaults. -/
structure Config.Given where
  defaultScope : Option Scope := none
  nestedCombinations : Option Bool := none
  strictNesting : Option Bool := none
  logLevel : Option Level := none

/-- The settings in force when some were given. -/
def Config.Given.settings (g : Config.Given) : Config :=
  let d : Config := {}
  { defaultScope := g.defaultScope.getD d.defaultScope
    nestedCombinations := g.nestedCombinations.getD d.nestedCombinations
    strictNesting := g.strictNesting.getD d.strictNesting
    logLevel := g.logLevel.getD d.logLevel }

/-- An option as it is registered. A switch takes no value and has no default text. -/
structure OptionRow where
  name : String
  defaultText : String
  valueName : String
  isSwitch : Bool
  description : String
deriving DecidableEq, Repr

/-- The registered options, one per setting. -/
def Config.options : List OptionRow :=
  let d : Config := {}
  [ { name := "kpath.default-scope", defaultText := d.defaultScope.name, valueName := "scope",
      isSwitch := false,
      description :=
        "Scope of members and cases without an annotation: all, readable, writable or owned" },
    { name := "kpath.nested-combinations", defaultText := toString d.nestedCombinations,
      valueName := "", isSwitch := false,
      description :=
        "Merge nested wrapper pairs such as optional<unique_ptr<T>> into one shape" },
    { name := "kpath.strict-nesting", defaultText := "", valueName := "", isSwitch := true,
      description :=
        "Reject wrappers nested too deeply instead of treating the inner type as opaque" },
    { name := "kpath.log-level", defaultText := d.logLevel.name, valueName := "level",
      isSwitch := false,
      description := "Minimum severity to log: debug, info, notice, warning or error" } ]

end Accessors
