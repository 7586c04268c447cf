/-!
# Colours

Whether output is coloured is settled by environment variables. The output itself
is never taken for a terminal unless they say so.

* `Settings`: the environment variables;
* `Settings.forceColours`: colours whatever the output is;
* `Settings.unattended`: whether a build service runs the program;
* `Settings.terminalColours`: colours as on a terminal;
* `Settings.colours`: the decision.
-/

namespace Tripwire.Command

/-- The environment variables, by their names. -/
abbrev Settings := String → Option String

namespace Settings

/-- Whether a variable is set, if only to nothing. -/
def has (s : Settings) (name : String) : Bool := (s name).isSome

/-- Whether a variable is set to something else than zero. -/
def switchedOn (s : Settings) (name : String) : Bool := (s name).any fun value => value != "0"

/-- Whether a variable is set to one of some values. -/
def isOneOf (s : Settings) (name : String) (values : List String) : Bool :=
  (s name).any values.contains

/-- Whether colours are asked for whatever the output is. -/
def forceColours (s : Settings) : Bool := s.has "FORCE_COLOR" || s.switchedOn "CLICOLOR_FORCE"

/-- Whether the output is to be treated as a terminal. -/
def assumeTerminal (s : Settings) : Bool := s.switchedOn "IGNORE_IS_TERMINAL"

/-- Variables that build services set, each for itself. -/
def buildServiceNames : List String :=
  ["CI_NAME", "GITHUB_ACTION", "GITLAB_CI", "NETLIFY", "TRAVIS", "CODEBUILD_SRC_DIR",
    "BUILDER_OUTPUT", "GITLAB_DEPLOYMENT", "NOW_GITHUB_DEPLOYMENT", "NOW_BUILDER",
    "BITBUCKET_DEPLOYMENT", "GERRIT_PROJECT", "SYSTEM_TEAMFOUNDATIONCOLLECTIONURI", "BITRISE_IO",
    "BUDDY_WORKSPACE_ID", "BUILDKITE", "CIRRUS_CI", "APPVEYOR", "CIRCLECI", "SEMAPHORE", "DRONE",
    "DSARI", "TDDIUM", "STRIDER", "TASKCLUSTER_ROOT_URL", "JENKINS_URL", "bamboo.buildKey",
    "GO_PIPELINE_NAME", "HUDSON_URL", "WERCKER", "MAGNUM", "NEVERCODE", "RENDER", "SAIL_CI",
    "SHIPPABLE"]

/-- Whether an unattended build is running. Build services say so in `CI` or in a variable of their
own, even an empty one; one is known only by the place of its `NODE`. -/
def unattended (s : Settings) : Bool :=
  s.isOneOf "CI" ["true", "1", "woodpecker"] || buildServiceNames.any s.has ||
    (s "NODE").any fun place => "//heroku/node/bin/node".toList.isSuffixOf place.toList

/-- Whether a terminal with these settings would show colours. -/
def terminalColours (s : Settings) : Bool :=
  s.has "TERM" || s.has "COLORTERM" || s.switchedOn "CLICOLOR" ||
    s.isOneOf "TERM_PROGRAM" ["iTerm.app", "Apple_Terminal"] || s.unattended

/-- Whether output is coloured. A terminal called `dumb` shows no colours unless they are forced. -/
def colours (s : Settings) : Bool :=
  !s.has "NO_COLOR" &&
    (s.forceColours ||
      (s.assumeTerminal && !s.isOneOf "TERM" ["dumb"] && s.terminalColours))

/-- The variables that `colours` depends on. -/
def colourNames : List String :=
  ["NO_COLOR", "FORCE_COLOR", "CLICOLOR_FORCE", "IGNORE_IS_TERMINAL", "TERM", "COLORTERM",
    "CLICOLOR", "TERM_PROGRAM", "CI", "NODE"] ++ buildServiceNames

/-- Whether the terminal cannot edit a line, by its name. -/
def plainTerminal (s : Settings) : Bool :=
  (s "TERM").any fun name =>
    ["dumb", "cons25", "emacs"].contains (String.ofList (name.toList.map Char.toLower))

end Settings

end Tripwire.Command
