import Sysops.Cw03.Walk
import Mathlib.Data.Nat.Find

/-!
# `reverse_file` on a file that becomes shorter

No call fails, but the stream may show anything of its file at each of them,
whatever `ftell` said before: the file may have been cut, hold less than its
size says, or be read out of the buffer as it was. The loop byte by byte
counts its turns. The loop over blocks counts what it reads, and does not
look whether its seek worked: a read before the end of the first block that
finds too little is the last that finds anything.
-/

namespace Sysops.Cw03

open Stdio

/-- No call fails; what the stream shows may change between the calls. -/
def changing (files : Nat → RegularFile) : Env where
  file i := (files i).bytes
  fault _ := none

/-- What a stream can show of a file that changes, from its second seek on.
The seeks from the end are told the size of the file. A read may find in the
buffer what the file held at an earlier call, and it goes on in the file
behind that. -/
structure Shows (size : Nat → Nat) (data files : Nat → RegularFile) :
    Prop where
  size : ∀ i < 2, (files i).bytes.length = size i
  more : ∀ i, 2 ≤ i → (data i).bytes.length ≤ (files i).bytes.length
  earlier : ∀ i, 2 ≤ i →
    ∃ t ≤ i, (files i).bytes.length ≤ (data t).bytes.length

namespace Bytes

/-- Every turn returns or leaves less to do. -/
theorem turn_lowers (env : Env) (s : Locals) :
    (∃ r, turn env s = .error r) ∨
      ∃ io, turn env s = .ok ⟨s.bytesRemaining - 1, io⟩ := by
  rw [turn]
  dsimp only
  split
  · exact .inl ⟨_, rfl⟩
  · split
    · exact .inl ⟨_, rfl⟩
    · exact .inr ⟨_, rfl⟩

theorem reverseFile_total (env : Env) (io : Streams) :
    ∃ fuel x, reverseFile env fuel io = some x := by
  by_cases hseek : (fseek env (-1) .end io).1 = 0
  · have hloop : ∃ fuel x, loop Locals.Continues (turn env) fuel
        ⟨ftell (fseek env (-1) .end io).2 + 1,
          (fseek env (-1) .end io).2⟩ = some x ∧ True := by
      refine loop_total (I := fun _ => True) (Q := fun _ => True)
        (fun s => s.bytesRemaining.toNat) ?_ (fun _ _ _ => trivial) trivial
      intro s _ hcontinues
      unfold Locals.Continues at hcontinues
      rcases turn_lowers env s with ⟨r, hr⟩ | ⟨io, hio⟩
      · exact .inl ⟨r, hr, trivial⟩
      · refine .inr ⟨_, hio, trivial, ?_⟩
        show (s.bytesRemaining - 1).toNat < s.bytesRemaining.toNat
        omega
    obtain ⟨fuel, x, hx, -⟩ := hloop
    refine ⟨fuel, returned x, ?_⟩
    simp only [reverseFile, hseek, ne_eq, not_true, if_false]
    rw [hx]
    rfl
  · exact ⟨0, _, if_pos hseek⟩

end Bytes

namespace Blocks

section Advance

variable {env : Env} {b j n : Nat}

/-- A read that does not start in the first block, or that reaches its end,
or with which all is read. -/
def Advances (env : Env) (b j : Nat) : Prop :=
  b ≤ (stand env b j).place + found env b j ∨ ¬ Reaches env b (j + 1)

/-- What is left to read, twice, and the blocks before the place. -/
def measure (env : Env) (b j : Nat) : Nat :=
  2 * ((env.file 0).length - total env b j) + (stand env b j).place / b

/-- Turns that advance lower the measure. -/
theorem measure_succ (hb : 1 ≤ b) (hseek : env.fault (3 * j + 4) = none)
    (hreaches : Reaches env b (j + 1)) (hadvances : Advances env b j) :
    measure env b (j + 1) < measure env b j := by
  have hle : b ≤ (stand env b j).place + found env b j :=
    hadvances.resolve_right fun h => h hreaches
  have htotal : total env b (j + 1) = total env b j + found env b j := rfl
  rw [Reaches, htotal] at hreaches
  by_cases hplace : b ≤ (stand env b j).place
  · -- a block back
    have hnext : (stand env b (j + 1)).place = (stand env b j).place - b := by
      rw [stand, Stand.next, if_pos ⟨hseek, hplace⟩]
    have hdiv : (stand env b j).place / b =
        ((stand env b j).place - b) / b + 1 :=
      Nat.div_eq_sub_div hb hplace
    rw [measure, measure, htotal, hnext, hdiv]
    omega
  · -- to the second block, with something read
    have hnext : (stand env b (j + 1)).place =
        (stand env b j).place + found env b j := by
      rw [stand, Stand.next, if_neg fun h => hplace h.2]
      rfl
    have hfound : found env b j ≤ b := found_le
    have hafter : ((stand env b j).place + found env b j) / b < 2 :=
      Nat.div_lt_of_lt_mul (by omega)
    have hbefore : (stand env b j).place / b = 0 :=
      Nat.div_eq_of_lt (Nat.lt_of_not_le hplace)
    rw [measure, measure, htotal, hnext, hbefore]
    omega

/-- If all turns advance, the loop ends. -/
theorem exists_not_reaches (hb : 1 ≤ b)
    (hseeks : ∀ j, env.fault (3 * j + 4) = none)
    (hadvances : ∀ j, Reaches env b j → Advances env b j) :
    ∃ n, ¬ Reaches env b n := by
  by_contra hall
  have hreaches : ∀ j, Reaches env b j := fun j => by
    by_contra hj
    exact hall ⟨j, hj⟩
  have hdescent : ∀ j, measure env b j + j ≤ measure env b 0 := by
    intro j
    induction j with
    | zero => exact Nat.le_refl _
    | succ j ih =>
        have hlower := measure_succ hb (hseeks j) (hreaches (j + 1))
          (hadvances j (hreaches j))
        omega
  have hlast := hdescent (measure env b 0 + 1)
  omega

/-- After a turn that does not advance, nothing is read and no seek
works. -/
theorem stand_of_not_advances (h : ¬ Advances env b j) (n : Nat) :
    stand env b (j + 1 + n) = ⟨(stand env b j).place + found env b j, true⟩ ∧
      total env b (j + 1 + n) = total env b (j + 1) := by
  have hless : ¬ b ≤ (stand env b j).place + found env b j :=
    fun hle => h (.inl hle)
  induction n with
  | zero =>
      have hfound : found env b j < b := by omega
      refine ⟨?_, rfl⟩
      rw [Nat.add_zero, stand, Stand.next, if_neg fun hback => hless
        (Nat.le_trans hback.2 (Nat.le_add_right _ _))]
      show Stand.mk _ (_ || decide (found env b j < b)) = _
      rw [decide_eq_true hfound, Bool.or_true]
      rfl
  | succ n ih =>
      have hnothing : found env b (j + 1 + n) = 0 := by
        rw [found, ih.1]
        rfl
      constructor
      · rw [← Nat.add_assoc, stand, ih.1, Stand.next,
          if_neg fun hback => hless hback.2]
        rfl
      · rw [← Nat.add_assoc, total, hnothing, ih.2, Nat.add_zero]

theorem reaches_of_not_advances (h : ¬ Advances env b j) (n : Nat) :
    Reaches env b n := by
  have hnext : Reaches env b (j + 1) := by
    by_contra hlast
    exact h (.inr hlast)
  have hfar : Reaches env b (j + 1 + n) := by
    rw [Reaches, (stand_of_not_advances h n).2]
    exact hnext
  exact reaches_of_le (Nat.le_add_left n (j + 1)) hfar

/-- At the end of the file the stream stands behind the first block, when
the file always holds a block. -/
theorem le_place_of_ended (hlength : ∀ i, b ≤ (env.file i).length)
    (hended : (stand env b j).ended = true) : b ≤ (stand env b j).place := by
  induction j with
  | zero => cases hended
  | succ j ih =>
      have hblock := hlength (3 * j + 2)
      rw [stand, Stand.next] at hended ⊢
      split
      · rename_i hback
        rw [if_pos hback] at hended
        cases hended
      · rename_i hback
        rw [if_neg hback] at hended
        show b ≤ (stand env b j).place + (stand env b j).found env b j
        cases hbefore : (stand env b j).ended with
        | true => exact Nat.le_trans (ih hbefore) (Nat.le_add_right _ _)
        | false =>
            have hless : (stand env b j).found env b j < b := by
              rw [hbefore, Bool.false_or] at hended
              exact of_decide_eq_true hended
            rw [Stand.found, hbefore, if_neg Bool.false_ne_true] at hless ⊢
            omega

/-- A file that always holds a block lets every turn advance. -/
theorem advances_of_length (hlength : ∀ i, b ≤ (env.file i).length) (j : Nat) :
    Advances env b j := by
  have hblock := hlength (3 * j + 2)
  refine .inl ?_
  cases hended : (stand env b j).ended with
  | true =>
      exact Nat.le_trans (le_place_of_ended hlength hended)
        (Nat.le_add_right _ _)
  | false =>
      rw [found, Stand.found, hended, if_neg Bool.false_ne_true]
      omega

end Advance

/-- The second seek does not work, or each turn advances. -/
def ReadsOn (files : Nat → RegularFile) (b : Nat) : Prop :=
  (files 1).bytes.length < (files 0).bytes.length % b ∨
    ∀ j, Reaches (changing files) b j → Advances (changing files) b j

theorem enters_changing {files : Nat → RegularFile} {b : Nat} :
    Enters (changing files) b ↔
      (files 0).bytes.length % b ≤ (files 1).bytes.length :=
  ⟨fun h => h.2.2, fun h => ⟨rfl, rfl, h⟩⟩

/-- The loop over blocks ends. -/
theorem reverseFile_of_readsOn {files : Nat → RegularFile} {b : Nat}
    (hb : 1 ≤ b) (hint : b < 2 ^ 31) (h : ReadsOn files b) :
    ∃ fuel y, reverseFile (changing files) b fuel .opened = some y := by
  have hlong : ∀ i, ((changing files).file i).length < 2 ^ 63 :=
    fun i => (files i).size_lt
  by_cases henters : Enters (changing files) b
  · have hadvances := h.resolve_left
      (Nat.not_lt.mpr (enters_changing.mp henters))
    have hend := exists_not_reaches hb (fun _ => rfl) hadvances
    refine ⟨Nat.find hend, _, reverseFile_ends hint hlong henters ?_
      (Nat.find_spec hend)⟩
    intro j hj
    exact ⟨Decidable.not_not.mp (Nat.find_min hend hj), rfl, .inl rfl⟩
  · obtain ⟨io, hio⟩ := reverseFile_of_not_enters hlong henters
    exact ⟨0, _, hio 0⟩

/-- A turn that does not advance hangs the loop. -/
theorem readsOn_of_reverseFile {files : Nat → RegularFile} {b fuel : Nat}
    {y : Int × Streams} (hint : b < 2 ^ 31)
    (h : reverseFile (changing files) b fuel .opened = some y) :
    ReadsOn files b := by
  by_cases henters : Enters (changing files) b
  · refine .inr fun j _ => ?_
    by_contra hstuck
    have hnever := reverseFile_never hint (fun i => (files i).size_lt) henters
      (fun n => ⟨reaches_of_not_advances hstuck n, rfl, .inl rfl⟩) fuel
    rw [hnever] at h
    cases h
  · exact .inl (Nat.lt_of_not_le (mt enters_changing.mpr henters))

end Blocks

/-- **Whatever the stream shows at each call, both versions end exactly if
the reads of the one with blocks advance.** -/
theorem reversal_ends_iff (files : Nat → RegularFile) {b : Nat} (hb : 1 ≤ b)
    (hint : b < 2 ^ 31) :
    ((∃ fuel y, Bytes.reverseFile (changing files) fuel .opened = some y) ∧
      ∃ fuel y, Blocks.reverseFile (changing files) b fuel .opened = some y) ↔
      Blocks.ReadsOn files b := by
  constructor
  · rintro ⟨-, fuel, y, hy⟩
    exact Blocks.readsOn_of_reverseFile hint hy
  · intro h
    exact ⟨Bytes.reverseFile_total _ _, Blocks.reverseFile_of_readsOn hb hint h⟩

/-- Cut from four bytes to two after `ftell`. -/
theorem reversal_ends_two_left : ∃ files : Nat → RegularFile,
    (files 0).bytes = [1, 2, 3, 4] ∧ (∀ i, (files (i + 1)).bytes = [1, 2]) ∧
      ∃ fuel y, Blocks.reverseFile (changing files) 2 fuel .opened =
        some y := by
  refine ⟨fun i => if i = 0 then ⟨[1, 2, 3, 4], by decide⟩
    else ⟨[1, 2], by decide⟩, rfl, fun _ => rfl, ?_⟩
  refine ((reversal_ends_iff _ (by decide) (by decide)).mpr ?_).2
  refine .inr fun j _ => Blocks.advances_of_length (fun i => ?_) j
  cases i with
  | zero => decide
  | succ i => exact Nat.le_refl 2

section Stated

variable {data files : Nat → RegularFile} {b q : Nat}

/-- The size is said to be `q` blocks, and there is less than one: the walk
finds nothing on its way to the start of the file. -/
theorem Blocks.stand_of_stated
    (hshows : Shows (fun _ => q * b) data files)
    (hdata : ∀ i, (data i).bytes.length < b) {j : Nat} (hj : j ≤ q) :
    stand (changing files) b j = ⟨(q - j) * b, false⟩ ∧
      total (changing files) b j = 0 := by
  induction j with
  | zero =>
      refine ⟨?_, rfl⟩
      show Stand.mk ((files 1).bytes.length - (files 0).bytes.length % b)
        false = _
      rw [hshows.size 0 (by decide), hshows.size 1 (by decide),
        Nat.mul_mod_left, Nat.sub_zero, Nat.sub_zero]
  | succ j ih =>
      obtain ⟨hstand, htotal⟩ := ih (Nat.le_of_succ_le hj)
      have hback : (q - j) * b = (q - (j + 1)) * b + b := by
        rw [← Nat.succ_mul]
        congr 1
        omega
      have hfound : found (changing files) b j = 0 := by
        obtain ⟨t, -, ht⟩ := hshows.earlier (3 * j + 2) (Nat.le_add_left 2 _)
        have hless := hdata t
        rw [found, hstand, Stand.found, if_neg Bool.false_ne_true]
        show min b ((files (3 * j + 2)).bytes.length - (q - j) * b) = 0
        omega
      rw [stand, hstand, Stand.next, if_pos ⟨rfl, by dsimp only; omega⟩,
        total, htotal, hfound]
      refine ⟨?_, rfl⟩
      show Stand.mk ((q - j) * b - b) false = _
      rw [hback, Nat.add_sub_cancel]

/-- What it finds there is not enough. -/
theorem Blocks.not_readsOn_of_stated (hq : 1 ≤ q)
    (hshows : Shows (fun _ => q * b) data files)
    (hdata : ∀ i, (data i).bytes.length < b) : ¬ ReadsOn files b := by
  have hsize : (files 0).bytes.length = q * b := hshows.size 0 (by decide)
  have hblock : b ≤ q * b := Nat.le_mul_of_pos_left b hq
  obtain ⟨hstand, htotal⟩ := stand_of_stated hshows hdata (Nat.le_refl q)
  have hfound : found (changing files) b q < b := by
    obtain ⟨t, -, ht⟩ := hshows.earlier (3 * q + 2) (Nat.le_add_left 2 _)
    have hless := hdata t
    rw [found, hstand, Stand.found, if_neg Bool.false_ne_true]
    show min b ((files (3 * q + 2)).bytes.length - (q - q) * b) < b
    omega
  rintro (hseek | hadvances)
  · rw [hsize, Nat.mul_mod_left] at hseek
    exact Nat.not_lt_zero _ hseek
  · have hreaches : Reaches (changing files) b q := by
      show total (changing files) b q < (files 0).bytes.length
      omega
    rcases hadvances q hreaches with hle | hlast
    · rw [hstand, Nat.sub_self, Nat.zero_mul, Nat.zero_add] at hle
      exact absurd hfound (Nat.not_lt.mpr hle)
    · refine hlast ?_
      show total (changing files) b q + found (changing files) b q <
        (files 0).bytes.length
      omega

end Stated

/-- A file that says that it has 4096 bytes, and has five. -/
theorem reversal_never_ends : ¬ ∀ (size : Nat → Nat)
    (data files : Nat → RegularFile) (b : Nat), 1 ≤ b → b < 2 ^ 31 →
    (∀ i, (data i).bytes.length < size 0) → Shows size data files →
    (∃ fuel y, Bytes.reverseFile (changing files) fuel .opened = some y) ∧
      ∃ fuel y, Blocks.reverseFile (changing files) b fuel .opened =
        some y := by
  intro hclaim
  have hlong : (List.replicate 4096 (0 : UInt8)).length < 2 ^ 63 := by
    rw [List.length_replicate]
    decide
  have hshows : Shows (fun _ => 4 * 1024) (fun _ => ⟨[1, 2, 3, 4, 5], by decide⟩)
      fun i => if i < 2 then ⟨List.replicate 4096 0, hlong⟩
        else ⟨[1, 2, 3, 4, 5], by decide⟩ := by
    constructor
    · intro i hi
      rw [if_pos hi]
      exact List.length_replicate
    · intro i hi
      rw [if_neg (Nat.not_lt.mpr hi)]
    · intro i hi
      rw [if_neg (Nat.not_lt.mpr hi)]
      exact ⟨i, Nat.le_refl i, Nat.le_refl _⟩
  obtain ⟨-, fuel, y, hy⟩ := hclaim _ _ _ 1024 (by decide) (by decide)
    (fun _ => by show 5 < 4 * 1024; decide) hshows
  exact Blocks.not_readsOn_of_stated (by decide) hshows
    (fun _ => by show 5 < 1024; decide)
    (Blocks.readsOn_of_reverseFile (by decide) hy)

end Sysops.Cw03
