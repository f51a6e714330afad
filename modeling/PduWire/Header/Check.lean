import PduWire.Header.Basic
import PduWire.Settings

/-! # Headers of received buffers

A received header is trusted only after its words have been compared with each other, with the
length of the buffer and with the settings. The first check that fails is reported. -/

namespace PduWire.Header

/-- What is wrong with a header. -/
inductive Fault where
  /-- The buffer of `size` bytes has no room for a header. -/
  | short (size : Nat)
  | magic (found : Nat)
  | version (found : Nat)
  /-- The base region starts inside the header. -/
  | baseInHeader (baseOffset : Nat)
  /-- The regions do not follow one another. -/
  | disorder (baseOffset heapOffset totalSize : Nat)
  /-- The message is longer than the buffer. -/
  | pastBuffer (totalSize : Nat)
  /-- The message is shorter than the buffer, and the settings ask for its exact length. -/
  | inexact (totalSize : Nat)
  | overLimit (totalSize limit : Nat)
  /-- The base region is smaller than the struct that it should hold. -/
  | smallBase (baseSize structSize : Nat)
deriving DecidableEq, Repr

/-- Eight hexadecimal digits. -/
def hexWord (n : Nat) : String :=
  let digits := String.ofList (Nat.toDigits 16 n)
  "0x" ++ String.ofList (List.replicate (8 - digits.length) '0') ++ digits

/-- A guess at how a wrong magic number came about. -/
def guessMagic (found : Nat) : String :=
  if found = 0 then "uninitialized buffer"
  else if found = wordMax then "corrupted buffer"
  else if Bytes.ofNat 4 found = (Bytes.ofNat 4 magicNumber).reverse then
    "byte order (endianness) mismatch"
  else "not a PDU or data corruption"

/-- The text shown for a fault. -/
def Fault.text : Fault → String
  | short size => s!"buffer shorter than metadata header ({size} < {length})"
  | magic found =>
    s!"invalid magic {hexWord found}, expected {hexWord magicNumber} ({guessMagic found})"
  | version found => s!"unsupported version {found}, expected {currentVersion}"
  | baseInHeader base => s!"base_off {base} overlaps metadata header"
  | disorder base heap total =>
    s!"region offsets not monotonic (base_off {base}, heap_off {heap}, total_size {total})"
  | pastBuffer total => s!"total_size {total} exceeds buffer length"
  | inexact total => s!"total_size {total} differs from buffer length"
  | overLimit total limit => s!"total_size {total} exceeds limit {limit}"
  | smallBase base size => s!"base region holds {base} bytes, struct needs {size}"

/-- The first fault of a header in a buffer of `size` bytes. -/
def fault? (h : Header) (size : Nat) (settings : Settings) : Option Fault :=
  if h.magic ≠ magicNumber then some (.magic h.magic)
  else if settings.checkVersion ∧ h.version ≠ currentVersion then some (.version h.version)
  else if h.baseOffset < length then some (.baseInHeader h.baseOffset)
  else if h.heapOffset < h.baseOffset ∨ h.totalSize < h.heapOffset then
    some (.disorder h.baseOffset h.heapOffset h.totalSize)
  else if size < h.totalSize then some (.pastBuffer h.totalSize)
  else if settings.exactLength ∧ h.totalSize ≠ size then some (.inexact h.totalSize)
  else if settings.maxSize < h.totalSize then some (.overLimit h.totalSize settings.maxSize)
  else none

/-- The header of a received buffer, once every check has passed. -/
def parse (buffer : Bytes) (settings : Settings) : Except Error Header :=
  if buffer.length < length then
    .error (.corruptHeader (Fault.short buffer.length).text buffer.length)
  else
    match (read buffer).fault? buffer.length settings with
    | none => .ok (read buffer)
    | some fault => .error (.corruptHeader fault.text buffer.length)

/-- The size of the message that a buffer starts with. -/
def messageSize (buffer : Bytes) : Except Error Nat :=
  (parse buffer {}).map (·.totalSize)

/-- The base region has to hold a whole struct of `structSize` bytes. -/
def checkBase (h : Header) (structSize bufferSize : Nat) : Except Error Unit :=
  if h.baseSize < structSize then
    .error (.corruptHeader (Fault.smallBase h.baseSize structSize).text bufferSize)
  else
    .ok ()

end PduWire.Header
