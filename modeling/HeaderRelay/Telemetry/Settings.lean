/-!
# Telemetry settings

Settings of the log come from environment variables, each with a fallback. Setting up telemetry a
second time fails, because the metrics are registered once for all.
-/
namespace HeaderRelay.Telemetry

/-- Settings of the log. Mirrors `TelemetryConfig`. -/
structure Settings where
  serviceName : String
  logLevel : String
  /-- Whether log lines are JSON. -/
  jsonLogs : Bool
  deriving DecidableEq, Repr

/-- Whether a text turns a setting on: `1`, or `true` in any case of its letters. Mirrors `parse_flag`. -/
def isOn (text : String) : Bool := text.toList.map Char.toLower == "true".toList || text == "1"

/-- The settings that environment variables give. Mirrors `from_env`. -/
def Settings.ofEnvironment (env : List (String × String)) : Settings where
  serviceName := (env.lookup "RELAYER_SERVICE_NAME").getD "bridge-relayer"
  logLevel := ((env.lookup "RELAYER_LOG_LEVEL").or (env.lookup "RUST_LOG")).getD "info"
  jsonLogs := ((env.lookup "RELAYER_JSON_LOGS").map isOn).getD false

/-- Why telemetry could not be set up. Mirrors `TelemetryError`. -/
inductive SetupError where
  /-- The metrics are registered already. -/
  | alreadyRegistered
  deriving DecidableEq, Repr

def SetupError.message : SetupError → String
  | .alreadyRegistered =>
    "Failed to initialize Prometheus metrics: Duplicate metrics collector registration attempted"

/-- Registers the metrics; the result is whether they are registered from then on. Mirrors `register_metrics`. -/
def register (registered : Bool) : Except SetupError Bool :=
  if registered then .error .alreadyRegistered else .ok true

end HeaderRelay.Telemetry
