import Mathlib.Data.List.Nodup
import PduWire.Error
import PduWire.Json.Shape
import PduWire.Proofs.Json.Depth

/-! # What readers of JSON values find

An object with the names that a reader asks for is read as a record of its values. Whatever a reader
takes out of a value, from an object or an array, lies less deep than the value itself. -/

namespace PduWire

namespace Json

theorem asInt?_ofInt {low high n : Int} (hlow : low ≤ n) (hhigh : n ≤ high) :
    (ofInt n).asInt? low high = some n := if_pos ⟨hlow, hhigh⟩

theorem asNat?_ofNat {limit n : Nat} (h : n ≤ limit) : (ofNat n).asNat? limit = some n := by
  rw [asNat?, ofNat, asInt?_ofInt (Int.natCast_nonneg n) (Int.ofNat_le.2 h)]
  rfl

theorem asSize?_ofNat {n : Nat} (h : n ≤ wordMax) : (ofNat n).asSize? = some n := by
  have haddress : wordMax ≤ addressMax := by decide
  exact asNat?_ofNat (Nat.le_trans h haddress)

theorem eq_array_of_asArray? {j : Json} {items : List Json} (h : j.asArray? = some items) :
    j = array items := by
  unfold asArray? at h
  split at h
  · rw [Option.some.inj h]
  · cases h

/-! ## Records -/

theorem member?_of_mem {members : List (String × Json)} (h : (members.map (·.1)).Nodup)
    {m : String × Json} (hm : m ∈ members) : member? members m.1 = some (some m.2) := by
  have hfilter : members.filter (·.1 = m.1) = [m] := by
    have hmem (n : String × Json) : n ∈ members.filter (·.1 = m.1) ↔ n ∈ [m] := by
      rw [List.mem_filter, List.mem_singleton, decide_eq_true_iff]
      refine ⟨fun ⟨hn, hname⟩ ↦ List.inj_on_of_nodup_map h hn hm hname, ?_⟩
      rintro rfl
      exact ⟨hm, rfl⟩
    exact List.perm_singleton.1 <|
      (List.perm_ext_iff_of_nodup (h.of_map.filter _) (List.nodup_singleton m)).2 hmem
  rw [member?, hfilter]

/-- An object whose members have the names of a record is that record. -/
theorem record?_object {members : List (String × Json)} {names : List String}
    (hnames : members.map (·.1) = names) (h : names.Nodup) :
    (object members).record? names = some (members.map (·.2)) := by
  subst hnames
  have hfields : (object members).fields? (members.map (·.1)) =
      some (members.map fun m ↦ some m.2) := by
    rw [fields?, List.mapM_map]
    exact mapM_eq_pure_map fun m hm ↦ member?_of_mem h hm
  have hall : (members.map fun m ↦ some m.2).mapM id = some (members.map (·.2)) := by
    rw [List.mapM_map]
    exact mapM_eq_pure_map fun _ _ ↦ rfl
  rw [record?, hfields]
  exact hall

@[simp] theorem record?_singleton (name : String) (value : Json) :
    (object [(name, value)]).record? [name] = some [value] :=
  record?_object rfl (List.nodup_singleton name)

/-- The first member of an object in front of what it tells about the others. -/
theorem tagged?_cons {name : String} {tag : Json} {members : List (String × Json)}
    (h : ∀ m ∈ members, m.1 ≠ name) :
    (object ((name, tag) :: members)).tagged? name = some (tag, object members) := by
  have hothers : members.filter (·.1 = name) = [] :=
    List.filter_eq_nil_iff.2 fun m hm ↦ by simpa using h m hm
  have hkept : members.filter (·.1 ≠ name) = members :=
    List.filter_eq_self.2 fun m hm ↦ by simpa using h m hm
  have hmember : member? ((name, tag) :: members) name = some (some tag) := by
    rw [member?, List.filter_cons_of_pos (by simp), hothers]
  rw [tagged?, hmember, List.filter_cons_of_neg (by simp), hkept]
  rfl

/-! ## Depth -/

theorem mem_of_member? {members : List (String × Json)} {name : String} {value : Json}
    (h : member? members name = some (some value)) : ∃ m ∈ members, m.2 = value := by
  unfold member? at h
  rcases hfound : members.filter (·.1 = name) with _ | ⟨m, _ | ⟨_, _⟩⟩
  · rw [hfound] at h
    cases h
  · rw [hfound] at h
    cases h
    exact ⟨m, (List.mem_filter.1 (hfound ▸ List.mem_singleton_self m)).1, rfl⟩
  · rw [hfound] at h
    cases h

theorem mem_of_fields?_array {names : List String} {items : List Json} {value : Json}
    {values : List (Option Json)} (h : (array items).fields? names = some values)
    (hv : some value ∈ values) : value ∈ items := by
  rw [fields?] at h
  split at h
  · cases h
    rcases List.mem_append.1 hv with hv | hv
    · obtain ⟨item, hitem, ⟨⟩⟩ := List.mem_map.1 hv
      exact hitem
    · cases List.eq_of_mem_replicate hv
  · cases h

theorem depth_lt_of_fields? {names : List String} {j value : Json} {values : List (Option Json)}
    (h : j.fields? names = some values) (hv : some value ∈ values) : value.depth < j.depth := by
  cases j with
  | object members =>
    obtain ⟨name, _, hmember⟩ := exists_of_mem_mapM h _ hv
    obtain ⟨m, hm, rfl⟩ := mem_of_member? hmember
    exact depth_lt_of_mem_object hm
  | array items => exact depth_lt_of_mem_array (mem_of_fields?_array h hv)
  | _ => cases h

theorem mem_of_record? {names : List String} {j : Json} {values : List Json}
    (h : j.record? names = some values) :
    ∃ fields, j.fields? names = some fields ∧ ∀ value ∈ values, some value ∈ fields := by
  obtain ⟨fields, hfields, hall⟩ := Option.bind_eq_some_iff.1 h
  refine ⟨fields, hfields, fun value hvalue ↦ ?_⟩
  obtain ⟨_, hmem, rfl⟩ := exists_of_mem_mapM hall value hvalue
  exact hmem

theorem mem_of_record?_array {names : List String} {items values : List Json}
    (h : (array items).record? names = some values) : ∀ value ∈ values, value ∈ items := by
  obtain ⟨_, hfields, hmem⟩ := mem_of_record? h
  exact fun value hvalue ↦ mem_of_fields?_array hfields (hmem value hvalue)

/-- The values of a record lie less deep than the record. -/
theorem depth_lt_of_record? {names : List String} {j : Json} {values : List Json}
    (h : j.record? names = some values) : ∀ value ∈ values, value.depth < j.depth := by
  obtain ⟨_, hfields, hmem⟩ := mem_of_record? h
  exact fun value hvalue ↦ depth_lt_of_fields? hfields (hmem value hvalue)

/-- What is left of a value without its tag is no deeper, and not flat. -/
theorem depth_le_of_tagged? {name : String} {j tag content : Json}
    (h : j.tagged? name = some (tag, content)) : 0 < content.depth ∧ content.depth ≤ j.depth := by
  cases j with
  | object members =>
    obtain ⟨_, _, h⟩ := Option.bind_eq_some_iff.1 h
    obtain ⟨_, _, ⟨⟩⟩ := Option.bind_eq_some_iff.1 h
    refine ⟨Nat.succ_pos _, depth_object_le_iff.2 fun m hm ↦ ?_⟩
    exact membersDepth_le_iff.1 (Nat.le_refl _) m (List.mem_filter.1 hm).1
  | array items =>
    cases items with
    | nil => cases h
    | cons first rest =>
      cases h
      refine ⟨Nat.succ_pos _, depth_array_le_iff.2 fun item hitem ↦ ?_⟩
      exact itemsDepth_le_iff.1 (Nat.le_max_right ..) item hitem
  | _ => cases h

end Json

end PduWire
