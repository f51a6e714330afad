import PduWire.Catalog.Messages

/-! # Building and reading messages of the remote API

Building checks that every name fits its field. Reading turns the integer codes of a message into
members of their enumerations. -/

namespace PduWire.Catalog

/-- A name, if it fits. -/
def checkName (text : String) : Except Error Name := FixedText.ofText nameCapacity text

/-- The code of a member as an unsigned word. -/
def codeWord {α : Type} [Coded α] (a : α) : UInt32 := .ofNat (Coded.code a).toNat

namespace ServiceRequestHeader

/-- The header of a request for a service. -/
def make (requestId : UInt32) (serviceName clientName : String) (opcode : ServiceOpcode)
    (statusPollIntervalMsec : Int32) : Except Error ServiceRequestHeader := do
  return {
    requestId
    serviceName := ← checkName serviceName
    clientName := ← checkName clientName
    opcode := codeWord opcode
    statusPollIntervalMsec }

/-- What the request asks for. -/
def opcode? (h : ServiceRequestHeader) : Except UnknownCode ServiceOpcode :=
  ofCode _ h.opcode.toNat

end ServiceRequestHeader

namespace ServiceResponseHeader

/-- The header of the response to a request. -/
def reply (request : ServiceRequestHeader) (status : ServiceStatus)
    (processingPercentage : UInt32) (resultCode : ServiceResultCode) : ServiceResponseHeader where
  requestId := request.requestId
  serviceName := request.serviceName
  clientName := request.clientName
  status := codeWord status
  processingPercentage := processingPercentage
  resultCode := .ofInt (Coded.code resultCode)

/-- How far the call has come. -/
def status? (h : ServiceResponseHeader) : Except UnknownCode ServiceStatus :=
  ofCode _ h.status.toNat

/-- How the call ended. -/
def resultCode? (h : ServiceResponseHeader) : Except UnknownCode ServiceResultCode :=
  ofCode _ h.resultCode.toInt

/-- Whether the call is done and ended well. -/
def isOk (h : ServiceResponseHeader) : Bool :=
  match h.status?, h.resultCode? with
  | .ok .done, .ok .ok => true
  | _, _ => false

end ServiceResponseHeader

/-- The request to take part under a name. -/
def JoinRequest.make (name : String) : Except Error JoinRequest := do
  return ⟨← checkName name⟩

/-- The answer to a request to take part. -/
def JoinResponse.make (statusCode : UInt32) (message : String) : Except Error JoinResponse := do
  return ⟨statusCode, ← checkName message⟩

/-- The request for the state of a simulation. -/
def GetSimStateRequest.make (name : String) : Except Error GetSimStateRequest := do
  return ⟨← checkName name⟩

/-- The state of the simulation. -/
def GetSimStateResponse.state? (m : GetSimStateResponse) : Except UnknownCode SimulationState :=
  ofCode _ m.simState.toNat

/-- The request that tells a simulation what to do. -/
def SimControlRequest.make (name : String) (command : SimControlCommand) :
    Except Error SimControlRequest := do
  return ⟨← checkName name, codeWord command⟩

/-- What the simulation is told to do. -/
def SimControlRequest.command? (m : SimControlRequest) : Except UnknownCode SimControlCommand :=
  ofCode _ m.op.toNat

/-- The answer to what a simulation was told. -/
def SimControlResponse.make (statusCode : UInt32) (message : String) :
    Except Error SimControlResponse := do
  return ⟨statusCode, ← checkName message⟩

/-- The event that is delivered. -/
def GetEventResponse.event? (m : GetEventResponse) : Except UnknownCode SimAssetEvent :=
  ofCode _ m.eventCode.toNat

/-- The acknowledgement of an event. -/
def AckEventRequest.make (name : String) (event : SimAssetEvent) (resultCode : UInt32) :
    Except Error AckEventRequest := do
  return ⟨← checkName name, codeWord event, resultCode⟩

/-- The event that is acknowledged. -/
def AckEventRequest.event? (m : AckEventRequest) : Except UnknownCode SimAssetEvent :=
  ofCode _ m.eventCode.toNat

end PduWire.Catalog
