import PduWire.Bytes
import PduWire.Size

/-! # The header of a message

Every message starts with six little-endian words: a magic number, a version, the offset of the
base region, the offset of the heap region, the size of the whole message, and a reserved word.

```text
[0 .. 24)                        header
[baseOffset .. heapOffset)       base region: everything of fixed size
[heapOffset .. totalSize)        heap region: texts and sequences
``` -/

namespace PduWire

/-- The words of a header but the reserved one. -/
structure Header where
  magic : Nat
  version : Nat
  baseOffset : Nat
  heapOffset : Nat
  totalSize : Nat
deriving DecidableEq, Repr

namespace Header

/-- The length of a header. -/
def length : Nat := 24

/-- The first word of every message. -/
def magicNumber : Nat := 0x12345678

/-- The version of this layout. -/
def currentVersion : Nat := 2

/-- The base region starts at a multiple of this. -/
def baseAlignment : Nat := 8

/-- The length of the base region. -/
def baseSize (h : Header) : Nat := h.heapOffset - h.baseOffset

/-- The length of the heap region. -/
def heapSize (h : Header) : Nat := h.totalSize - h.heapOffset

/-- The base region of the buffer that the header stands in. -/
def baseRegion (h : Header) (buffer : Bytes) : Bytes :=
  (buffer.drop h.baseOffset).take h.baseSize

/-- The heap region of the buffer that the header stands in. -/
def heapRegion (h : Header) (buffer : Bytes) : Bytes :=
  (buffer.drop h.heapOffset).take h.heapSize

/-- The header of a message with regions of these sizes. Every offset has to fit a word. -/
def ofSizes (baseSize heapSize : Nat) : Except Error Header := do
  let base ← alignUp length baseAlignment
  let heap := saturate (base + baseSize)
  let total := saturate (heap + heapSize)
  return {
    magic := magicNumber
    version := currentVersion
    baseOffset := ← checkWord base
    heapOffset := ← checkWord heap
    totalSize := ← checkWord total }

/-- The bytes of a header. The reserved word is zero. -/
def image (h : Header) : Bytes :=
  Bytes.ofNat 4 h.magic ++ Bytes.ofNat 4 h.version ++ Bytes.ofNat 4 h.baseOffset ++
    Bytes.ofNat 4 h.heapOffset ++ Bytes.ofNat 4 h.totalSize ++ Bytes.ofNat 4 0

/-- The word at `offset`. -/
def word (buffer : Bytes) (offset : Nat) : Nat := Bytes.toNat ((buffer.drop offset).take 4)

/-- The header whose words stand at the start of the buffer, whatever they say. -/
def read (buffer : Bytes) : Header where
  magic := word buffer 0
  version := word buffer 4
  baseOffset := word buffer 8
  heapOffset := word buffer 12
  totalSize := word buffer 16

@[simp] theorem length_image (h : Header) : h.image.length = length := by
  simp [image, length]

theorem alignUp_length : alignUp length baseAlignment = .ok length := rfl

theorem ofSizes_eq_ok_iff {base heap : Nat} {h : Header} :
    ofSizes base heap = .ok h ↔ length + base + heap ≤ wordMax ∧
      h = ⟨magicNumber, currentVersion, length, length + base, length + base + heap⟩ := by
  have hw : wordMax < addressMax := by decide
  have hl : length ≤ wordMax := by decide
  simp only [ofSizes, alignUp_length, checkWord, if_pos hl, bind, Except.bind, pure, Except.pure]
  by_cases h₁ : length + base ≤ wordMax
  · rw [saturate_of_le (by omega : length + base ≤ addressMax)]
    by_cases h₂ : length + base + heap ≤ wordMax
    · rw [saturate_of_le (by omega : length + base + heap ≤ addressMax)]
      simp [h₁, h₂, eq_comm]
    · simp [h₁, h₂, mt (saturate_le_iff hw).1 h₂]
  · simp [mt (saturate_le_iff hw).1 h₁, show ¬length + base + heap ≤ wordMax by omega]

theorem word_image (h : Header) (rest : Bytes) :
    [0, 4, 8, 12, 16].map (word (h.image ++ rest)) =
      [h.magic, h.version, h.baseOffset, h.heapOffset, h.totalSize].map (· % (wordMax + 1)) := by
  have drop_word (k n : Nat) (hk : 4 ≤ k) : List.drop k (Bytes.ofNat 4 n) = [] :=
    List.drop_eq_nil_of_le (by simpa using hk)
  simp [word, image, List.drop_append, Bytes.toNat_ofNat, wordMax, drop_word]

/-- Reading the image of a header gives the header back. -/
theorem read_image {h : Header} (rest : Bytes) (hm : h.magic ≤ wordMax) (hv : h.version ≤ wordMax)
    (hb : h.baseOffset ≤ wordMax) (hh : h.heapOffset ≤ wordMax) (ht : h.totalSize ≤ wordMax) :
    read (h.image ++ rest) = h := by
  have := h.word_image rest
  simp only [List.map_cons, List.map_nil, List.cons.injEq, and_true] at this
  obtain ⟨h₀, h₁, h₂, h₃, h₄⟩ := this
  have fits {n : Nat} (hn : n ≤ wordMax) : n % (wordMax + 1) = n :=
    Nat.mod_eq_of_lt (Nat.lt_succ_of_le hn)
  simp only [read, h₀, h₁, h₂, h₃, h₄, fits hm, fits hv, fits hb, fits hh, fits ht]

end Header

end PduWire
