import PduWire.Catalog.Codes
import PduWire.Record.Message

/-! # Messages of the remote API

Two headers and ten bodies, a request and a response for each service. Names and texts lie in the
base region, 128 bytes each; only the request for an event has its name in the heap. -/

namespace PduWire.Catalog

/-- The bytes of a name, its terminator included. -/
def nameCapacity : Nat := 128

/-- A name or a short text in the base region. -/
abbrev Name := FixedText nameCapacity

/-- The type name of a message of the catalog. -/
def typeName (name : String) : String := "hako_srv_msgs/" ++ name

/-- A field that holds a 32-bit word. -/
def wordField (name : String) (offset : Nat) : Field := ⟨name, .scalar .uint32, offset⟩

/-- A field that holds a signed 32-bit word. -/
def signedWordField (name : String) (offset : Nat) : Field := ⟨name, .scalar .int32, offset⟩

/-- A field that holds a truth value. -/
def flagField (name : String) (offset : Nat) : Field := ⟨name, .scalar .bool, offset⟩

/-- A field that holds a name. -/
def nameField (name : String) (offset : Nat) : Field := ⟨name, .fixedString nameCapacity, offset⟩

/-! ## Headers -/

/-- The header of every request. -/
structure ServiceRequestHeader where
  requestId : UInt32
  serviceName : Name
  clientName : Name
  opcode : UInt32
  statusPollIntervalMsec : Int32
deriving DecidableEq, Repr

instance : PacketHeader ServiceRequestHeader where
  schema := ⟨typeName "ServiceRequestHeader", 268,
    [wordField "request_id" 0, nameField "service_name" 4, nameField "client_name" 132,
      wordField "opcode" 260, signedWordField "status_poll_interval_msec" 264]⟩
  toRecord m :=
    .cons (.scalar ⟨.uint32 m.requestId, rfl⟩) <| .cons (.fixedString m.serviceName) <|
    .cons (.fixedString m.clientName) <| .cons (.scalar ⟨.uint32 m.opcode, rfl⟩) <|
    .cons (.scalar ⟨.int32 m.statusPollIntervalMsec, rfl⟩) .nil
  ofRecord
    | .cons (.scalar ⟨.uint32 requestId, _⟩) <| .cons (.fixedString serviceName) <|
      .cons (.fixedString clientName) <| .cons (.scalar ⟨.uint32 opcode, _⟩) <|
      .cons (.scalar ⟨.int32 interval, _⟩) .nil =>
      ⟨requestId, serviceName, clientName, opcode, interval⟩
  ofRecord_toRecord _ := rfl
  toRecord_ofRecord
    | .cons (.scalar ⟨.uint32 _, _⟩) <| .cons (.fixedString _) <| .cons (.fixedString _) <|
      .cons (.scalar ⟨.uint32 _, _⟩) <| .cons (.scalar ⟨.int32 _, _⟩) .nil => rfl
  bodyOffset := 268

/-- The header of every response. -/
structure ServiceResponseHeader where
  requestId : UInt32
  serviceName : Name
  clientName : Name
  status : UInt32
  processingPercentage : UInt32
  resultCode : Int32
deriving DecidableEq, Repr

instance : PacketHeader ServiceResponseHeader where
  schema := ⟨typeName "ServiceResponseHeader", 272,
    [wordField "request_id" 0, nameField "service_name" 4, nameField "client_name" 132,
      wordField "status" 260, wordField "processing_percentage" 264,
      signedWordField "result_code" 268]⟩
  toRecord m :=
    .cons (.scalar ⟨.uint32 m.requestId, rfl⟩) <| .cons (.fixedString m.serviceName) <|
    .cons (.fixedString m.clientName) <| .cons (.scalar ⟨.uint32 m.status, rfl⟩) <|
    .cons (.scalar ⟨.uint32 m.processingPercentage, rfl⟩) <|
    .cons (.scalar ⟨.int32 m.resultCode, rfl⟩) .nil
  ofRecord
    | .cons (.scalar ⟨.uint32 requestId, _⟩) <| .cons (.fixedString serviceName) <|
      .cons (.fixedString clientName) <| .cons (.scalar ⟨.uint32 status, _⟩) <|
      .cons (.scalar ⟨.uint32 percentage, _⟩) <| .cons (.scalar ⟨.int32 result, _⟩) .nil =>
      ⟨requestId, serviceName, clientName, status, percentage, result⟩
  ofRecord_toRecord _ := rfl
  toRecord_ofRecord
    | .cons (.scalar ⟨.uint32 _, _⟩) <| .cons (.fixedString _) <| .cons (.fixedString _) <|
      .cons (.scalar ⟨.uint32 _, _⟩) <| .cons (.scalar ⟨.uint32 _, _⟩) <|
      .cons (.scalar ⟨.int32 _, _⟩) .nil => rfl
  bodyOffset := 272

/-! ## Bodies -/

/-- Asks to take part in a simulation. -/
structure JoinRequest where
  name : Name
deriving DecidableEq, Repr

instance : Message JoinRequest where
  schema := ⟨typeName "JoinRequest", 128, [nameField "name" 0]⟩
  toRecord m := .cons (.fixedString m.name) .nil
  ofRecord | .cons (.fixedString name) .nil => ⟨name⟩
  ofRecord_toRecord _ := rfl
  toRecord_ofRecord | .cons (.fixedString _) .nil => rfl

/-- Answers a request to take part. -/
structure JoinResponse where
  statusCode : UInt32
  message : Name
deriving DecidableEq, Repr

instance : Message JoinResponse where
  schema :=
    ⟨typeName "JoinResponse", 132, [wordField "status_code" 0, nameField "message" 4]⟩
  toRecord m := .cons (.scalar ⟨.uint32 m.statusCode, rfl⟩) <| .cons (.fixedString m.message) .nil
  ofRecord
    | .cons (.scalar ⟨.uint32 statusCode, _⟩) <| .cons (.fixedString message) .nil =>
      ⟨statusCode, message⟩
  ofRecord_toRecord _ := rfl
  toRecord_ofRecord | .cons (.scalar ⟨.uint32 _, _⟩) <| .cons (.fixedString _) .nil => rfl

/-- Asks for the state of a simulation. -/
structure GetSimStateRequest where
  name : Name
deriving DecidableEq, Repr

instance : Message GetSimStateRequest where
  schema := ⟨typeName "GetSimStateRequest", 128, [nameField "name" 0]⟩
  toRecord m := .cons (.fixedString m.name) .nil
  ofRecord | .cons (.fixedString name) .nil => ⟨name⟩
  ofRecord_toRecord _ := rfl
  toRecord_ofRecord | .cons (.fixedString _) .nil => rfl

/-- The state of a simulation at one time. -/
structure GetSimStateResponse where
  simState : UInt32
  masterTime : Int64
  isPduCreated : Bool
  isSimulationMode : Bool
  isPduSyncMode : Bool
deriving DecidableEq, Repr

instance : Message GetSimStateResponse where
  schema := ⟨typeName "GetSimStateResponse", 32,
    [wordField "sim_state" 0, ⟨"master_time", .scalar .int64, 8⟩, flagField "is_pdu_created" 16,
      flagField "is_simulation_mode" 20, flagField "is_pdu_sync_mode" 24]⟩
  toRecord m :=
    .cons (.scalar ⟨.uint32 m.simState, rfl⟩) <| .cons (.scalar ⟨.int64 m.masterTime, rfl⟩) <|
    .cons (.scalar ⟨.bool m.isPduCreated, rfl⟩) <|
    .cons (.scalar ⟨.bool m.isSimulationMode, rfl⟩) <|
    .cons (.scalar ⟨.bool m.isPduSyncMode, rfl⟩) .nil
  ofRecord
    | .cons (.scalar ⟨.uint32 simState, _⟩) <| .cons (.scalar ⟨.int64 masterTime, _⟩) <|
      .cons (.scalar ⟨.bool created, _⟩) <| .cons (.scalar ⟨.bool simulation, _⟩) <|
      .cons (.scalar ⟨.bool sync, _⟩) .nil =>
      ⟨simState, masterTime, created, simulation, sync⟩
  ofRecord_toRecord _ := rfl
  toRecord_ofRecord
    | .cons (.scalar ⟨.uint32 _, _⟩) <| .cons (.scalar ⟨.int64 _, _⟩) <|
      .cons (.scalar ⟨.bool _, _⟩) <| .cons (.scalar ⟨.bool _, _⟩) <|
      .cons (.scalar ⟨.bool _, _⟩) .nil => rfl

/-- Tells a simulation what to do. -/
structure SimControlRequest where
  name : Name
  op : UInt32
deriving DecidableEq, Repr

instance : Message SimControlRequest where
  schema := ⟨typeName "SimControlRequest", 132, [nameField "name" 0, wordField "op" 128]⟩
  toRecord m := .cons (.fixedString m.name) <| .cons (.scalar ⟨.uint32 m.op, rfl⟩) .nil
  ofRecord | .cons (.fixedString name) <| .cons (.scalar ⟨.uint32 op, _⟩) .nil => ⟨name, op⟩
  ofRecord_toRecord _ := rfl
  toRecord_ofRecord | .cons (.fixedString _) <| .cons (.scalar ⟨.uint32 _, _⟩) .nil => rfl

/-- Answers what a simulation was told. -/
structure SimControlResponse where
  statusCode : UInt32
  message : Name
deriving DecidableEq, Repr

instance : Message SimControlResponse where
  schema :=
    ⟨typeName "SimControlResponse", 132, [wordField "status_code" 0, nameField "message" 4]⟩
  toRecord m := .cons (.scalar ⟨.uint32 m.statusCode, rfl⟩) <| .cons (.fixedString m.message) .nil
  ofRecord
    | .cons (.scalar ⟨.uint32 statusCode, _⟩) <| .cons (.fixedString message) .nil =>
      ⟨statusCode, message⟩
  ofRecord_toRecord _ := rfl
  toRecord_ofRecord | .cons (.scalar ⟨.uint32 _, _⟩) <| .cons (.fixedString _) .nil => rfl

/-- Asks for the next event of an asset. The name lies in the heap. -/
structure GetEventRequest where
  name : String
deriving DecidableEq, Repr

instance : Message GetEventRequest where
  schema := ⟨typeName "GetEventRequest", 8, [⟨"name", .string, 0⟩]⟩
  toRecord m := .cons (.string m.name) .nil
  ofRecord | .cons (.string name) .nil => ⟨name⟩
  ofRecord_toRecord _ := rfl
  toRecord_ofRecord | .cons (.string _) .nil => rfl

/-- Delivers an event. -/
structure GetEventResponse where
  eventCode : UInt32
deriving DecidableEq, Repr

instance : Message GetEventResponse where
  schema := ⟨typeName "GetEventResponse", 4, [wordField "event_code" 0]⟩
  toRecord m := .cons (.scalar ⟨.uint32 m.eventCode, rfl⟩) .nil
  ofRecord | .cons (.scalar ⟨.uint32 eventCode, _⟩) .nil => ⟨eventCode⟩
  ofRecord_toRecord _ := rfl
  toRecord_ofRecord | .cons (.scalar ⟨.uint32 _, _⟩) .nil => rfl

/-- Acknowledges an event with the outcome of handling it. -/
structure AckEventRequest where
  name : Name
  eventCode : UInt32
  resultCode : UInt32
deriving DecidableEq, Repr

instance : Message AckEventRequest where
  schema := ⟨typeName "AckEventRequest", 136,
    [nameField "name" 0, wordField "event_code" 128, wordField "result_code" 132]⟩
  toRecord m :=
    .cons (.fixedString m.name) <| .cons (.scalar ⟨.uint32 m.eventCode, rfl⟩) <|
    .cons (.scalar ⟨.uint32 m.resultCode, rfl⟩) .nil
  ofRecord
    | .cons (.fixedString name) <| .cons (.scalar ⟨.uint32 eventCode, _⟩) <|
      .cons (.scalar ⟨.uint32 resultCode, _⟩) .nil => ⟨name, eventCode, resultCode⟩
  ofRecord_toRecord _ := rfl
  toRecord_ofRecord
    | .cons (.fixedString _) <| .cons (.scalar ⟨.uint32 _, _⟩) <|
      .cons (.scalar ⟨.uint32 _, _⟩) .nil => rfl

/-- Answers an acknowledgement. -/
structure AckEventResponse where
  ackCode : UInt32
deriving DecidableEq, Repr

instance : Message AckEventResponse where
  schema := ⟨typeName "AckEventResponse", 4, [wordField "ack_code" 0]⟩
  toRecord m := .cons (.scalar ⟨.uint32 m.ackCode, rfl⟩) .nil
  ofRecord | .cons (.scalar ⟨.uint32 ackCode, _⟩) .nil => ⟨ackCode⟩
  ofRecord_toRecord _ := rfl
  toRecord_ofRecord | .cons (.scalar ⟨.uint32 _, _⟩) .nil => rfl

end PduWire.Catalog
