import HeaderRelay.Config.Basic
import HeaderRelay.Text.Blank

/-!
# Settings from the environment

Two environment variables override settings: the pause between cycles and the deadline of a call. Each
holds a count of milliseconds, with blanks around it or not.
-/
namespace HeaderRelay.Config

def cycleDelayVariable : String := "RELAYER_CYCLE_DELAY_MS"

def callTimeoutVariable : String := "RELAYER_CALL_TIMEOUT_MS"

/-- The count that a variable holds; `none` when it is not set. Mirrors `parse_ms`. -/
def override? (env : List (String × String)) (key : String) : Except InvalidSetting (Option Nat) :=
  match env.lookup key with
  | none => .ok none
  | some value =>
    match Text.count? (Text.trimBlank value.toList) with
    | some n => .ok (some n)
    | none => .error (.badOverride key value)

/-- The settings under the environment, which are kept up to the first variable that holds no count, and that
variable's fault. Mirrors `apply_overrides`. -/
def override (env : List (String × String)) (c : Config) : Except InvalidSetting Unit × Config :=
  match override? env cycleDelayVariable with
  | .error e => (.error e, c)
  | .ok delay =>
    let c := { c with cycleDelay := delay.getD c.cycleDelay }
    match override? env callTimeoutVariable with
    | .error e => (.error e, c)
    | .ok timeout => (.ok (), { c with contract := { c.contract with timeout := timeout.getD c.contract.timeout } })

end HeaderRelay.Config
