/-! # Codes of the remote API

Messages carry these enumerations as plain integers. A message with an unknown integer is still a
message: only asking for the member fails. -/

namespace PduWire.Catalog

/-- An integer that is no member of an enumeration. -/
structure UnknownCode where
  enumeration : String
  code : Int
deriving DecidableEq, Repr

/-- The text shown for an unknown integer. -/
def UnknownCode.message (e : UnknownCode) : String := s!"Unknown {e.enumeration} code {e.code}"

/-- An enumeration whose members travel as integers. -/
class Coded (α : Type) where
  /-- The name of the enumeration. -/
  title : String
  /-- The members in the order of their codes. -/
  members : List α
  code : α → Int
  name : α → String

/-- The member with this code. -/
def ofCode (α : Type) [Coded α] (n : Int) : Except UnknownCode α :=
  match (Coded.members (α := α)).find? (Coded.code · = n) with
  | some a => .ok a
  | none => .error ⟨Coded.title α, n⟩

/-- The life cycle of a simulation. -/
inductive SimulationState where
  | stopped
  | runnable
  | running
  | stopping
  | resetting
  | error
  | terminated
  /-- Stands for any state where a change of state is awaited. -/
  | any
  | count
deriving DecidableEq, Repr

instance : Coded SimulationState where
  title := "SimulationState"
  members :=
    [.stopped, .runnable, .running, .stopping, .resetting, .error, .terminated, .any, .count]
  code
    | .stopped => 0
    | .runnable => 1
    | .running => 2
    | .stopping => 3
    | .resetting => 4
    | .error => 5
    | .terminated => 6
    | .any => 7
    | .count => 8
  name
    | .stopped => "Stopped"
    | .runnable => "Runnable"
    | .running => "Running"
    | .stopping => "Stopping"
    | .resetting => "Resetting"
    | .error => "Error"
    | .terminated => "Terminated"
    | .any => "Any"
    | .count => "Count"

/-- What a simulation is told to do. -/
inductive SimControlCommand where
  | start
  | stop
  | reset
deriving DecidableEq, Repr

instance : Coded SimControlCommand where
  title := "SimControlCommand"
  members := [.start, .stop, .reset]
  code
    | .start => 0
    | .stop => 1
    | .reset => 2
  name
    | .start => "Start"
    | .stop => "Stop"
    | .reset => "Reset"

/-- What an asset is told and acknowledges. -/
inductive SimAssetEvent where
  | none
  | start
  | stop
  | reset
  | error
deriving DecidableEq, Repr

instance : Coded SimAssetEvent where
  title := "SimAssetEvent"
  members := [.none, .start, .stop, .reset, .error]
  code
    | .none => 0
    | .start => 1
    | .stop => 2
    | .reset => 3
    | .error => 4
  name
    | .none => "None"
    | .start => "Start"
    | .stop => "Stop"
    | .reset => "Reset"
    | .error => "Error"

/-- How far a call has come. -/
inductive ServiceStatus where
  | none
  | doing
  | canceling
  | done
  | error
deriving DecidableEq, Repr

instance : Coded ServiceStatus where
  title := "ServiceStatus"
  members := [.none, .doing, .canceling, .done, .error]
  code
    | .none => 0
    | .doing => 1
    | .canceling => 2
    | .done => 3
    | .error => 4
  name
    | .none => "None"
    | .doing => "Doing"
    | .canceling => "Canceling"
    | .done => "Done"
    | .error => "Error"

/-- How a call ended. -/
inductive ServiceResultCode where
  | ok
  | error
  | canceled
  | invalid
  | busy
deriving DecidableEq, Repr

instance : Coded ServiceResultCode where
  title := "ServiceResultCode"
  members := [.ok, .error, .canceled, .invalid, .busy]
  code
    | .ok => 0
    | .error => 1
    | .canceled => 2
    | .invalid => 3
    | .busy => 4
  name
    | .ok => "Ok"
    | .error => "Error"
    | .canceled => "Canceled"
    | .invalid => "Invalid"
    | .busy => "Busy"

/-- Whether a request asks for a service or calls one off. -/
inductive ServiceOpcode where
  | request
  | cancel
deriving DecidableEq, Repr

instance : Coded ServiceOpcode where
  title := "ServiceOpcode"
  members := [.request, .cancel]
  code
    | .request => 0
    | .cancel => 1
  name
    | .request => "Request"
    | .cancel => "Cancel"

/-- The services of the remote API. -/
def serviceNames : List String :=
  ["HakoRemoteApi/Join", "HakoRemoteApi/GetSimState", "HakoRemoteApi/SimControl",
    "HakoRemoteApi/GetEvent", "HakoRemoteApi/AckEvent"]

end PduWire.Catalog
