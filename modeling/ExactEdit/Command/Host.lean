import ExactEdit.Settings.Load
import ExactEdit.Storage.Disk

/-! # Hosts

A command runs on a host: a storage with the few further things that commands need. A disk with
an environment is one, and so is the machine that the program runs on.

## Main definitions

* `Host` — what commands need
* `Host.loadSettings` — the settings of a host
* `Disk.host` — a disk with an environment
-/

namespace ExactEdit

/-- What commands need from where they run. -/
structure Host (m : Type → Type) extends Storage m where
  /-- Whether a path leads to something. -/
  isThere : String → m Bool
  /-- The bytes of a file, if it can be read. -/
  readBytes : String → m (Option ByteArray)
  /-- Makes a file or covers it; tells whether that was possible. -/
  create : String → String → m Bool
  /-- Makes a directory and those above it; tells whether that was possible. -/
  makeDirectories : String → m Bool
  /-- Names and values of the environment variables. -/
  environment : m (List (String × String))

namespace Host

variable {m : Type → Type} [Monad m]

/-- The first of some settings files that is there, with its bytes. -/
def findSettings (host : Host m) :
    List (String × SettingsFormat) → m (Option (SettingsFormat × Option ByteArray))
  | [] => return none
  | (name, format) :: rest => do
    if ← host.isThere name then return some (format, ← host.readBytes name)
    else findSettings host rest

/-- The settings of a host. -/
def loadSettings (host : Host m) : m (Except SettingsError Settings) := do
  let file ← host.findSettings settingsFiles
  return Settings.load file (← host.environment)

end Host

namespace Disk

/-- A change of a disk, which stays as it is if the change is not possible. -/
def attempt (change : Disk → Except DiskError Disk) : StateM Disk Bool := fun disk =>
  match change disk with
  | .ok disk => (true, disk)
  | .error _ => (false, disk)

/-- A disk with an environment. -/
def host (environment : List (String × String)) : Host (StateM Disk) where
  toStorage := Disk.storage
  isThere path := fun disk => (disk.isThere path, disk)
  readBytes path := fun disk => ((disk.readBytes path).toOption, disk)
  create path text := attempt fun disk => disk.writeFile path text.toUTF8
  makeDirectories path := attempt fun disk => disk.makeDirectories path
  environment := pure environment

end Disk

end ExactEdit
