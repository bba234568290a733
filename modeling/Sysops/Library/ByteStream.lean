import Sysops.Library.ByteOrder

/-!
# One direction of a connection

A reliable ordered stream of bytes, as `send` and `recv` see it: what was
written so far, how much of it was read, and whether the writer has
closed. A read takes any non-empty piece of what is there, and is empty
only at the end.
-/

namespace Sysops

structure ByteStream where
  written : List Byte
  /-- How many bytes have been read. -/
  consumed : Nat
  closed : Bool

/-- The result of a read into a buffer of the given size. -/
abbrev Chunk (size : Nat) := { bytes : List Byte // bytes.length ≤ size }

namespace ByteStream

variable (s : ByteStream)

def empty : ByteStream := ⟨[], 0, false⟩

def rest : List Byte := s.written.drop s.consumed

def write (bytes : List Byte) : Option ByteStream :=
  if s.closed then none else some { s with written := s.written ++ bytes }

def close : ByteStream := { s with closed := true }

/-- Everything was read, and nothing more will come. -/
def AtEnd : Prop := s.closed = true ∧ s.rest = []

instance : Decidable s.AtEnd := inferInstanceAs (Decidable (_ ∧ _))

/-- A read that returns `n` bytes. -/
def read (size n : Nat) : Option (Chunk size × ByteStream) :=
  if h : n ≤ size ∧ n ≤ s.rest.length ∧ (0 < n ∨ s.AtEnd) then
    some (⟨s.rest.take n, by rw [List.length_take]; omega⟩,
      { s with consumed := s.consumed + n })
  else none

variable {s}

theorem write_eq_some {bytes : List Byte} {t : ByteStream}
    (h : s.write bytes = some t) :
    t = { s with written := s.written ++ bytes } := by
  unfold write at h
  split at h
  · cases h
  · exact (Option.some.inj h).symm

theorem read_eq_some {size n : Nat} {r : Chunk size × ByteStream}
    (h : s.read size n = some r) :
    n ≤ size ∧ n ≤ s.rest.length ∧ (0 < n ∨ s.AtEnd) ∧
      r.1.val = s.rest.take n ∧
      r.2 = { s with consumed := s.consumed + n } := by
  unfold read at h
  split at h
  · rename_i hn
    obtain rfl := Option.some.inj h
    exact ⟨hn.1, hn.2.1, hn.2.2, rfl, rfl⟩
  · cases h

/-- The stream holds blocks of one size, of which block `k` starts with
`f x` if `x` is the element `k` of the list. -/
structure Blocks {α : Type} (size : Nat) (f : α → List Byte) (l : List α)
    (bytes : List Byte) : Prop where
  length : bytes.length = size * l.length
  block : ∀ k x, l[k]? = some x → f x <+: bytes.drop (size * k)

namespace Blocks

variable {α : Type} {size : Nat} {f : α → List Byte} {l : List α}
  {bytes : List Byte}

theorem nil : Blocks size f [] [] where
  length := rfl
  block k x h := by cases h

/-- One more block. -/
theorem append (h : Blocks size f l bytes) {x : α} {b : List Byte}
    (hlength : b.length = size) (hb : f x <+: b) :
    Blocks size f (l ++ [x]) (bytes ++ b) := by
  constructor
  · rw [List.length_append, h.length, hlength, List.length_append]
    show _ = size * (l.length + 1)
    rw [Nat.mul_succ]
  · intro k y hy
    rw [List.getElem?_append] at hy
    split at hy
    · rename_i hk
      have hle : size * k ≤ bytes.length := by
        rw [h.length]
        exact Nat.mul_le_mul_left size (Nat.le_of_lt hk)
      rw [List.drop_append_of_le_length hle]
      exact (h.block k y hy).trans (List.prefix_append _ _)
    · rename_i hk
      -- the new block is the last one
      have hkl : k = l.length := by
        have hlt := (List.getElem?_eq_some_iff.mp hy).1
        simp only [List.length_singleton] at hlt
        omega
      subst hkl
      simp only [Nat.sub_self, List.getElem?_cons_zero,
        Option.some.injEq] at hy
      subst hy
      rw [← h.length, List.drop_left]
      exact hb

/-- Behind a block boundary there is either a whole block or nothing. -/
theorem exists_block (h : Blocks size f l bytes) {k : Nat}
    (hk : size * k < bytes.length) : ∃ x, l[k]? = some x := by
  rw [h.length] at hk
  have hlt : k < l.length := Nat.lt_of_mul_lt_mul_left hk
  exact ⟨l[k], List.getElem?_eq_getElem hlt⟩

end Blocks

end ByteStream

end Sysops
