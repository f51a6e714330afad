/-! # Causes of failure -/

namespace PduWire

/-- Why a message could not be written or read.

A `field` is the dotted path of the field at fault, outermost name first; it is empty as long as
the failing operation does not know which field it serves. -/
inductive Error where
  /-- The header is missing, cut off or inconsistent. -/
  | corruptHeader (reason : String) (bufferSize : Nat)
  /-- A read or write would leave the buffer of `got` bytes. -/
  | outOfBounds (field : String) (offset need got : Nat)
  /-- A value does not have the width that its place has. -/
  | invalidWidth (field kind : String) (expected got : Nat)
  /-- No scalar kind has this name or tag. -/
  | unknownKind (kind : String)
  /-- The value of a field is not of the kind that the schema declares. -/
  | schemaMismatch (field expected actual : String)
  /-- The bytes of a text are not UTF-8, or the text does not fit its form. -/
  | invalidString (field reason : String)
  /-- The caller's buffer does not hold the message. -/
  | bufferTooSmall (need got : Nat)
  /-- The message exceeds the limit in force or the range of a header word. -/
  | messageTooLarge (size limit : Nat)
  /-- No schema is registered under this name. -/
  | unknownType (name : String)
  /-- The field table is malformed, or its document could not be read. -/
  | invalidSchema (reason : String)
  /-- Two fields claim a common byte of the base region. -/
  | overlappingWrite (start stop : Nat)
  /-- The result of an operation on addresses is no address. -/
  | overflow (operation : String)
deriving DecidableEq, Repr

namespace Error

/-- The text shown for a failure. -/
def message : Error → String
  | corruptHeader reason bufferSize =>
    s!"Corrupt PDU metadata: {reason} (buffer: {bufferSize} bytes)"
  | outOfBounds field offset need got =>
    s!"Out of bounds access for field '{field}': need {need} bytes at offset {offset}, " ++
      s!"buffer has {got}"
  | invalidWidth field kind expected got =>
    s!"Invalid width for field '{field}' ({kind}): expected {expected} bytes, got {got}"
  | unknownKind kind => s!"Unknown primitive kind '{kind}'"
  | schemaMismatch field expected actual =>
    s!"Schema mismatch for field '{field}': schema declares {expected}, value is {actual}"
  | invalidString field reason => s!"Invalid string in field '{field}': {reason}"
  | bufferTooSmall need got => s!"Output buffer too small: need {need} bytes, got {got}"
  | messageTooLarge size limit => s!"PDU too large: {size} bytes exceeds limit {limit}"
  | unknownType name => s!"Unknown PDU type '{name}'"
  | invalidSchema reason => s!"Invalid schema: {reason}"
  | overlappingWrite start stop => s!"overlapping base-region write at [{start}, {stop})"
  | overflow operation => s!"attempt to {operation} with overflow"

/-- The path of `inner` seen from a struct that holds it in the field `name`. -/
def joinPath (name inner : String) : String :=
  if inner.isEmpty then name else s!"{name}.{inner}"

/-- The same failure seen from the struct that holds the failing value in the field `name`.
Failures that are about no field stay as they are. -/
def inField (name : String) : Error → Error
  | outOfBounds field offset need got => outOfBounds (joinPath name field) offset need got
  | invalidWidth field kind expected got => invalidWidth (joinPath name field) kind expected got
  | schemaMismatch field expected actual => schemaMismatch (joinPath name field) expected actual
  | invalidString field reason => invalidString (joinPath name field) reason
  | e => e

/-- Whether the received bytes are at fault, rather than the caller. -/
def isDataFault : Error → Bool
  | corruptHeader .. | outOfBounds .. | invalidString .. => true
  | _ => false

end Error

/-- Names the field in which a computation fails. -/
def inField {α : Type _} (name : String) : Except Error α → Except Error α
  | .ok a => .ok a
  | .error e => .error (e.inField name)

@[simp] theorem inField_ok {α : Type _} (name : String) (a : α) :
    inField name (.ok a) = .ok a := rfl

@[simp] theorem inField_error {α : Type _} (name : String) (e : Error) :
    inField name (.error e : Except Error α) = .error (e.inField name) := rfl

theorem inField_eq_ok_iff {α : Type _} {name : String} {x : Except Error α} {a : α} :
    inField name x = .ok a ↔ x = .ok a := by
  cases x <;> simp

@[simp] theorem ok_bind {α β : Type _} (a : α) (f : α → Except Error β) :
    (.ok a : Except Error α) >>= f = f a := rfl

@[simp] theorem error_bind {α β : Type _} (e : Error) (f : α → Except Error β) :
    (.error e : Except Error α) >>= f = .error e := rfl

@[simp] theorem pure_eq_ok {α : Type _} (a : α) : (pure a : Except Error α) = .ok a := rfl

/-- A computation in two steps succeeds if both of them do. -/
theorem bind_eq_ok_iff {α β : Type _} {x : Except Error α} {f : α → Except Error β} {b : β} :
    x >>= f = .ok b ↔ ∃ a, x = .ok a ∧ f a = .ok b := by
  cases x with
  | ok a => exact ⟨fun h ↦ ⟨a, rfl, h⟩, fun ⟨_, rfl, h⟩ ↦ h⟩
  | error e => exact ⟨nofun, fun ⟨_, h, _⟩ ↦ nomatch h⟩

/-- A check in front of a computation has to pass. -/
theorem check_bind_eq_ok_iff {β : Type _} {x : Except Error Unit} {f : Unit → Except Error β}
    {b : β} : x >>= f = .ok b ↔ x = .ok () ∧ f () = .ok b :=
  bind_eq_ok_iff.trans ⟨fun ⟨_, h⟩ ↦ h, fun h ↦ ⟨(), h⟩⟩

/-- Where every step has a known result, so has the whole list. -/
theorem mapM_eq_pure_map {m : Type _ → Type _} [Monad m] [LawfulMonad m] {α β : Type _} {f : α → m β}
    {g : α → β} {xs : List α} (h : ∀ x ∈ xs, f x = pure (g x)) : xs.mapM f = pure (xs.map g) := by
  induction xs with
  | nil => rfl
  | cons x xs ih =>
    rw [List.mapM_cons, h x List.mem_cons_self, ih fun y hy ↦ h y (List.mem_cons_of_mem _ hy),
      pure_bind, pure_bind, List.map_cons]

end PduWire
