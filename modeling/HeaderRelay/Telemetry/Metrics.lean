import HeaderRelay.Text.Decimal

/-!
# Metrics

What is measured is kept as the list of observations; a metric is a sum over it. A counter is a double,
so a sum that is exact as a number may be rounded in what the counter shows. The exposition text shows
the metrics in families by name: a head of two lines, then one line per label set, ordered by label
values. A family without label sets is left out.
-/
namespace HeaderRelay.Telemetry

/-- Something that was measured. -/
inductive Observation where
  /-- A sync cycle of an engine ended. -/
  | cycle (engine : String) (ok : Bool) (seconds : Float)
  /-- A contract took headers from an engine. -/
  | headers (engine : String) (count : Nat)
  /-- A read was tried again. -/
  | retry

namespace Observation

/-- The duration, for a cycle of `engine`. -/
def secondsOf? (engine : String) : Observation → Option Float
  | .cycle e _ seconds => if e = engine then some seconds else none
  | _ => none

/-- The number of headers, when `engine` submitted them. -/
def headersOf? (engine : String) : Observation → Option Nat
  | .headers e count => if e = engine then some count else none
  | _ => none

/-- Whether a cycle of `engine` ended with outcome `ok`. -/
def isCycle (engine : String) (ok : Bool) : Observation → Bool
  | .cycle e o _ => e == engine && o == ok
  | _ => false

def isRetry : Observation → Bool
  | .retry => true
  | _ => false

def cycleEngine? : Observation → Option String
  | .cycle e _ _ => some e
  | _ => none

def headersEngine? : Observation → Option String
  | .headers e _ => some e
  | _ => none

end Observation

/-- Everything measured so far, in order. -/
abbrev Metrics := List Observation

namespace Metrics

def cycles (m : Metrics) (engine : String) (ok : Bool) : Nat := m.countP (·.isCycle engine ok)

def headers (m : Metrics) (engine : String) : Nat := total (m.filterMap (·.headersOf? engine))

def retries (m : Metrics) : Nat := m.countP (·.isRetry)

end Metrics

/-! ## Counters -/

def floatOfCount (n : Nat) : Float := (UInt64.ofNat n).toFloat

/-- The counter of an engine's headers: one submission is added after the other. -/
def Metrics.headerCounter (m : Metrics) (engine : String) : Float :=
  (m.filterMap (·.headersOf? engine)).foldl (fun sum n => sum + floatOfCount n) 0.0

/-- The counter of an engine's headers as a count of 64 bits. -/
def Metrics.shownHeaders (m : Metrics) (engine : String) : Nat := (m.headerCounter engine).toUInt64.toNat

/-! ## Exposition -/

/-- One line of a family. -/
structure Sample where
  /-- What the line's name has after the family's. -/
  suffix : String
  labels : List (String × String)
  value : Float

/-- A family of lines under one head. -/
structure Family where
  name : String
  help : String
  type : String
  samples : List Sample

def quoteLabel (s : String) : String :=
  String.ofList ('"' :: (s.toList.flatMap fun c =>
    if c = '\\' then ['\\', '\\'] else if c = '\n' then ['\\', 'n'] else if c = '"' then ['\\', '"'] else [c])
    ++ ['"'])

def labelText (labels : List (String × String)) : String :=
  if labels.isEmpty then ""
  else "\x7b" ++ String.intercalate "," (labels.map fun l => l.1 ++ "=" ++ quoteLabel l.2) ++ "\x7d"

def Sample.text (family : String) (s : Sample) : String :=
  family ++ s.suffix ++ labelText s.labels ++ " " ++ positionalText s.value ++ "\n"

/-- A family with its head, unless it has no lines. -/
def Family.text (f : Family) : String :=
  if f.samples.isEmpty then ""
  else
    "# HELP " ++ f.name ++ " " ++ f.help ++ "\n# TYPE " ++ f.name ++ " " ++ f.type ++ "\n" ++
      String.join (f.samples.map (Sample.text f.name))

/-- Puts a name in its place among names in ascending order, unless it is there. -/
def insertName (name : String) : List String → List String
  | [] => [name]
  | n :: rest => if name < n then name :: n :: rest else if n = name then n :: rest else n :: insertName name rest

/-- The names in ascending order, each once. -/
def distinctNames (names : List String) : List String := names.foldl (fun acc n => insertName n acc) []

/-- The upper bounds of the duration buckets, in seconds: each is twice the one before. -/
def bucketBounds : (count : Nat) → (first : Float) → List Float
  | 0, _ => []
  | count + 1, first => first :: bucketBounds count (first * 2.0)

/-- The lines of one engine's durations: how many are at most each bound, their sum, their number. -/
def durationSamples (m : Metrics) (engine : String) : List Sample :=
  let seconds := m.filterMap (·.secondsOf? engine)
  let upTo (bound : Float) : Sample :=
    ⟨"_bucket", [("engine", engine), ("le", positionalText bound)],
      floatOfCount (seconds.filter fun s => decide (s ≤ bound)).length⟩
  (bucketBounds 14 0.01).map upTo ++
    [⟨"_bucket", [("engine", engine), ("le", "+Inf")], floatOfCount seconds.length⟩,
      ⟨"_sum", [("engine", engine)], seconds.foldl (· + ·) 0.0⟩,
      ⟨"_count", [("engine", engine)], floatOfCount seconds.length⟩]

/-- The line of one engine's cycles with one outcome, if there were any. -/
def cycleSample? (m : Metrics) (engine : String) (ok : Bool) : Option Sample :=
  let n := m.cycles engine ok
  if n = 0 then none
  else some ⟨"", [("engine", engine), ("outcome", if ok then "ok" else "error")], floatOfCount n⟩

/-- The line of one engine's headers. -/
def headerSample (m : Metrics) (engine : String) : Sample :=
  ⟨"", [("engine", engine)], m.headerCounter engine⟩

/-- All families, by name. -/
def Metrics.families (m : Metrics) : List Family :=
  let cycleEngines := distinctNames (m.filterMap (·.cycleEngine?))
  let headerEngines := distinctNames (m.filterMap (·.headersEngine?))
  [⟨"relayer_headers_submitted_total", "Headers submitted to contracts", "counter",
      headerEngines.map (headerSample m)⟩,
    ⟨"relayer_query_retries_total", "Total read-only query retries", "counter",
      [⟨"", [], floatOfCount m.retries⟩]⟩,
    ⟨"relayer_sync_cycle_duration_seconds", "Time spent in one sync cycle", "histogram",
      cycleEngines.flatMap (durationSamples m)⟩,
    ⟨"relayer_sync_cycles_total", "Total sync cycles run", "counter",
      cycleEngines.flatMap fun e => [false, true].filterMap (cycleSample? m e)⟩]

/-- The exposition text. Mirrors `encode_metrics`. -/
def Metrics.text (m : Metrics) : String := String.join (m.families.map Family.text)

end HeaderRelay.Telemetry
