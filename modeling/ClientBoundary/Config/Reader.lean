import ClientBoundary.Config.Basic
import ClientBoundary.Disk.Access
import ClientBoundary.Json.Reader
import ClientBoundary.Text.Utf8

/-!
# Reading a configuration

A configuration is a JSON value: a boolean, or an object whose only key is `isServer`, with a
boolean. When the key stands in it more than once the last one counts.
-/

namespace ClientBoundary

/-- What is wrong with a configuration. -/
inductive ConfigError where
  | notAConfig
  | unknownKeys (keys : List Text)
  | isServerNotBoolean
  | unreadable (path : Path) (fault : DiskFault)
  | invalidJson (path : Path) (source : Text) (fault : Json.Fault) (offset : Nat)
deriving DecidableEq, Repr, Inhabited

namespace ConfigError

/-- The message of an error. -/
def message : ConfigError → Text
  | .notAConfig => "config must be a boolean or an object with \x60isServer\x60"
  | .unknownKeys keys => "unknown config key(s): " ++ Text.join ", " keys
  | .isServerNotBoolean => "config field \x60isServer\x60 must be a boolean"
  | .unreadable path fault => "cannot read config " ++ path.text ++ ": " ++ fault.message path
  | .invalidJson path source fault offset =>
    "invalid JSON in config " ++ path.text ++ ": " ++ Json.faultMessage source fault offset

end ConfigError

/-- Why no configuration could be loaded. -/
inductive ConfigFailure where
  /-- The configuration is wrong. -/
  | config (error : ConfigError)
  /-- The file is not well-formed UTF-8. -/
  | notUtf8
  /-- The file holds an integer with too many digits. -/
  | tooManyDigits
deriving DecidableEq, Repr, Inhabited

namespace Config

/-- The only key of the options. -/
def serverKey : Text := "isServer"

/-- The last value of a key among members. -/
def lastValue? (key : Text) (members : List (Text × Json)) : Option Json :=
  ((members.filter (·.1 = key)).getLast?).map (·.2)

/-- The keys among members that are none of the options, in order. -/
def unknownKeys (members : List (Text × Json)) : List Text :=
  (((members.map (·.1)).filter (· ≠ serverKey)).eraseDups).mergeSort
    fun a b => (Text.compare a b).isLE

/-- The configuration that a value denotes. -/
def ofJson : Json → Except ConfigError Config
  | .bool on => .ok (.all on)
  | .object members =>
    match unknownKeys members with
    | [] => match lastValue? serverKey members with
      | some (.bool isServer) => .ok (.options isServer)
      | _ => .error .isServerNotBoolean
    | keys => .error (.unknownKeys keys)
  | _ => .error .notAConfig

/-- The configuration in the bytes of a file. -/
def ofBytes (path : Path) (bytes : ByteArray) : Except ConfigFailure Config :=
  match Text.ofFile? bytes with
  | none => .error .notUtf8
  | some source =>
    match Json.parse source with
    | .error (.malformed fault offset) =>
      .error (.config (.invalidJson path source fault offset))
    | .error .tooManyDigits => .error .tooManyDigits
    | .ok value => (ofJson value).mapError .config

/-- Load the configuration from a file. -/
def load {m : Type → Type} [Monad m] [MonadDisk m] (path : Path) :
    m (Except ConfigFailure Config) := do
  match ← MonadDisk.read path with
  | .error fault => return .error (.config (.unreadable path fault))
  | .ok bytes => return ofBytes path bytes

end Config

end ClientBoundary
