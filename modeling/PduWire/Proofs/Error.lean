import PduWire.Size

/-! # Failures of walks

Who is to blame for a failure, what becomes of it on the way out of nested structs, and which step
of a walk it comes from. -/

namespace PduWire

/-! ## Who is to blame -/

/-- Whether a failure says that the field table is wrong. -/
def Error.isTableFault : Error → Bool
  | .invalidSchema _ | .unknownKind _ | .overlappingWrite _ _ => true
  | _ => false

@[simp] theorem Error.isTableFault_inField (name : String) (e : Error) :
    (e.inField name).isTableFault = e.isTableFault := by
  cases e <;> rfl

@[simp] theorem Error.isDataFault_inField (name : String) (e : Error) :
    (e.inField name).isDataFault = e.isDataFault := by
  cases e <;> rfl

/-- A number that no word holds is reported with the largest one that it does. -/
theorem checkWord_eq_error_iff {n : Nat} {e : Error} :
    checkWord n = .error e ↔ wordMax < n ∧ e = .messageTooLarge n wordMax := by
  unfold checkWord
  by_cases hle : n ≤ wordMax
  · rw [if_pos hle]
    exact iff_of_false nofun fun h ↦ Nat.not_lt_of_le hle h.1
  · rw [if_neg hle, and_iff_right (Nat.lt_of_not_le hle), Except.error.injEq, eq_comm]

/-! ## Paths of failures -/

/-- A failure seen from outside: `path` names the fields on the way to it, outermost first. -/
def Error.inPath (path : List String) (e : Error) : Error := path.foldr Error.inField e

/-- Names the fields on the way to where a computation fails, outermost first. -/
def inPath {α : Type _} (path : List String) (x : Except Error α) : Except Error α :=
  path.foldr inField x

section Path

variable {α β : Type _} {path : List String} {x : Except Error α}

@[simp] theorem inPath_ok (path : List String) (a : α) :
    inPath path (.ok a : Except Error α) = .ok a := by
  induction path with
  | nil => rfl
  | cons name path ih => exact congrArg (inField name) ih

@[simp] theorem inPath_error (path : List String) (e : Error) :
    inPath path (.error e : Except Error α) = .error (e.inPath path) := by
  induction path with
  | nil => rfl
  | cons name path ih => exact congrArg (inField name) ih

theorem inPath_append_singleton (path : List String) (name : String) (x : Except Error α) :
    inPath (path ++ [name]) x = inPath path (inField name x) := List.foldr_append

theorem inPath_bind (path : List String) (x : Except Error α) (f : α → Except Error β) :
    inPath path (x >>= f) = inPath path x >>= fun a ↦ inPath path (f a) := by
  cases x with
  | ok a => rw [inPath_ok, ok_bind, ok_bind]
  | error e => rw [inPath_error, error_bind, error_bind, inPath_error]

@[simp] theorem Error.isTableFault_inPath (path : List String) (e : Error) :
    (e.inPath path).isTableFault = e.isTableFault := by
  induction path with
  | nil => rfl
  | cons name path ih => exact (Error.isTableFault_inField name _).trans ih

@[simp] theorem Error.isDataFault_inPath (path : List String) (e : Error) :
    (e.inPath path).isDataFault = e.isDataFault := by
  induction path with
  | nil => rfl
  | cons name path ih => exact (Error.isDataFault_inField name _).trans ih

theorem Error.inPath_invalidWidth (path : List String) (field kind : String)
    (expected got : Nat) : (invalidWidth field kind expected got).inPath path =
      .invalidWidth (path.foldr joinPath field) kind expected got := by
  induction path with
  | nil => rfl
  | cons name path ih => exact congrArg (inField name) ih

theorem Error.inPath_invalidString (path : List String) (field reason : String) :
    (invalidString field reason).inPath path =
      .invalidString (path.foldr joinPath field) reason := by
  induction path with
  | nil => rfl
  | cons name path ih => exact congrArg (inField name) ih

theorem Error.inField_eq_outOfBounds_iff {name field : String} {e : Error}
    {offset need got : Nat} :
    e.inField name = .outOfBounds field offset need got ↔
      ∃ inner, e = .outOfBounds inner offset need got ∧ joinPath name inner = field := by
  cases e <;> simp [inField, and_comm, and_assoc, eq_comm]

/-- A read that is out of bounds is so on the way out as well, and nothing else becomes one. -/
theorem Error.inPath_eq_outOfBounds_iff {field : String} {e : Error} {offset need got : Nat} :
    e.inPath path = .outOfBounds field offset need got ↔
      ∃ inner, e = .outOfBounds inner offset need got ∧ path.foldr joinPath inner = field := by
  induction path generalizing field with
  | nil => simp [inPath]
  | cons name path ih =>
    have hcons : e.inPath (name :: path) = (e.inPath path).inField name := rfl
    rw [hcons, inField_eq_outOfBounds_iff]
    constructor
    · rintro ⟨outer, houter, rfl⟩
      obtain ⟨inner, rfl, rfl⟩ := ih.1 houter
      exact ⟨inner, rfl, rfl⟩
    · rintro ⟨inner, rfl, rfl⟩
      exact ⟨_, ih.2 ⟨inner, rfl, rfl⟩, rfl⟩

end Path

/-! ## Steps of a walk -/

/-- A computation in two steps fails if one of them does. -/
theorem bind_eq_error_iff {α β : Type _} {x : Except Error α} {f : α → Except Error β} {e : Error} :
    x >>= f = .error e ↔ x = .error e ∨ ∃ a, x = .ok a ∧ f a = .error e := by
  cases x with
  | ok a => simp
  | error e' => simp

/-- Whether a computation, if it fails, says that a field table or its document is no good. -/
def BlamesSchema {α : Type _} (x : Except Error α) : Prop :=
  ∀ e, x = .error e → ∃ reason, e = .invalidSchema reason

theorem blamesSchema_ok {α : Type _} (a : α) : BlamesSchema (.ok a : Except Error α) := by
  rintro e ⟨⟩

theorem blamesSchema_invalidSchema {α : Type _} (reason : String) :
    BlamesSchema (.error (.invalidSchema reason) : Except Error α) := by
  rintro e ⟨⟩
  exact ⟨reason, rfl⟩

theorem BlamesSchema.bind {α β : Type _} {x : Except Error α} {f : α → Except Error β}
    (hx : BlamesSchema x) (hf : ∀ a, BlamesSchema (f a)) : BlamesSchema (x >>= f) := by
  intro e h
  rcases bind_eq_error_iff.1 h with h | ⟨a, _, h⟩
  · exact hx e h
  · exact hf a e h

section Traversal

variable {α β : Type _} {xs : List α} {f : α → Except Error Unit} {e : Error}

theorem forM_eq_ok_iff : forM xs f = .ok () ↔ ∀ x ∈ xs, f x = .ok () := by
  induction xs with
  | nil => exact iff_of_true rfl nofun
  | cons x xs ih => rw [List.forM_cons, check_bind_eq_ok_iff, ih, List.forall_mem_cons]

/-- A walk fails at the first of its steps that does. -/
theorem forM_eq_error_iff :
    forM xs f = .error e ↔ ∃ before x after, xs = before ++ x :: after ∧
      (∀ y ∈ before, f y = .ok ()) ∧ f x = .error e := by
  induction xs with
  | nil => exact iff_of_false nofun fun ⟨_, _, _, h, _⟩ ↦ nomatch List.append_eq_nil_iff.1 h.symm
  | cons x xs ih =>
    rw [List.forM_cons, bind_eq_error_iff]
    constructor
    · rintro (hx | ⟨_, hx, hrest⟩)
      · exact ⟨[], x, xs, rfl, nofun, hx⟩
      · obtain ⟨before, y, after, rfl, hbefore, hy⟩ := ih.1 hrest
        exact ⟨x :: before, y, after, rfl, List.forall_mem_cons.2 ⟨hx, hbefore⟩, hy⟩
    · rintro ⟨before, y, after, heq, hbefore, hy⟩
      cases before with
      | nil =>
        obtain ⟨rfl, rfl⟩ := List.cons.inj heq
        exact .inl hy
      | cons first before =>
        obtain ⟨rfl, rfl⟩ := List.cons.inj heq
        obtain ⟨hfirst, hbefore⟩ := List.forall_mem_cons.1 hbefore
        exact .inr ⟨(), hfirst, ih.2 ⟨before, y, after, rfl, hbefore, hy⟩⟩

/-- A list of results that fails to come together lacks one of them. -/
theorem exists_of_mapM_eq_error {f : α → Except Error β} (h : xs.mapM f = .error e) :
    ∃ x ∈ xs, f x = .error e := by
  induction xs with
  | nil => cases h
  | cons x xs ih =>
    rw [List.mapM_cons, bind_eq_error_iff] at h
    rcases h with hx | ⟨_, _, h⟩
    · exact ⟨x, List.mem_cons_self, hx⟩
    · rcases bind_eq_error_iff.1 h with hrest | ⟨_, _, hpure⟩
      · obtain ⟨x', hmem, hx'⟩ := ih hrest
        exact ⟨x', List.mem_cons_of_mem _ hmem, hx'⟩
      · cases hpure

end Traversal

end PduWire
