import Sysops.Cw03.Reverse

/-!
# The walk of `reverse_file` through the file

Where each turn of the loop over blocks stands and how much it finds there,
from the lengths of the file and the seeks that fail alone; the states of
the loop are those of the walk. On a file that stays as it is the walk goes
from the last block to the first and meets each byte once.
-/

namespace Sysops.Cw03

open Stdio

namespace Blocks

/-- Where the stream stands before a turn, with its end-of-file indicator. -/
structure Stand where
  place : Nat
  ended : Bool

section Walk

variable (env : Env) (b : Nat)

/-- How many bytes the `fread` of turn `j` finds. -/
def Stand.found (stand : Stand) (j : Nat) : Nat :=
  if stand.ended then 0
  else min b ((env.file (3 * j + 2)).length - stand.place)

/-- One block back, or on where the seek of turn `j` fails. -/
def Stand.next (stand : Stand) (j : Nat) : Stand :=
  if env.fault (3 * j + 4) = none ∧ b ≤ stand.place then
    ⟨stand.place - b, false⟩
  else ⟨stand.place + stand.found env b j,
    stand.ended || decide (stand.found env b j < b)⟩

/-- The stand before turn `j`. -/
def stand : Nat → Stand
  | 0 => ⟨(env.file 1).length - (env.file 0).length % b, false⟩
  | j + 1 => (stand j).next env b j

def found (j : Nat) : Nat :=
  (stand env b j).found env b j

/-- The bytes read before turn `j`. -/
def total : Nat → Nat
  | 0 => 0
  | j + 1 => total j + found env b j

/-- What turn `j` reads. -/
def block (j : Nat) : List UInt8 :=
  ((env.file (3 * j + 2)).drop (stand env b j).place).take (found env b j)

/-- What is written before turn `j`. -/
def output : Nat → List UInt8
  | 0 => []
  | j + 1 => output j ++ (block env b j).reverse

/-- Where the bytes written before turn `j` come from. -/
def sources : Nat → List Nat
  | 0 => []
  | j + 1 => sources j ++
      (List.range' (stand env b j).place (found env b j)).reverse

/-- The state before turn `j`. -/
def locals (j : Nat) : Locals where
  bytesRemaining := (env.file 0).length - total env b j
  io := ⟨(stand env b j).place, (stand env b j).ended, false, output env b j,
    3 * j + 2⟩

/-- The loop comes to turn `j`. -/
def Reaches (j : Nat) : Prop :=
  total env b j < (env.file 0).length

instance (j : Nat) : Decidable (Reaches env b j) :=
  inferInstanceAs (Decidable (_ < _))

end Walk

section States

variable {env : Env} {b i j : Nat}

theorem continues_locals :
    (locals env b j).Continues ↔ Reaches env b j := by
  show (0 : Int) < (env.file 0).length - total env b j ↔ _
  unfold Reaches
  omega

/-- The loop comes to all turns before one that it comes to. -/
theorem reaches_of_le (hij : i ≤ j) (h : Reaches env b j) :
    Reaches env b i := by
  induction j with
  | zero =>
      rw [Nat.le_zero.mp hij]
      exact h
  | succ j ih =>
      rcases Nat.le_succ_iff.mp hij with hle | rfl
      · refine ih hle (Nat.lt_of_le_of_lt ?_ h)
        exact Nat.le_add_right _ _
      · exact h

theorem found_le : found env b j ≤ b := by
  rw [found, Stand.found]
  split
  · exact Nat.zero_le b
  · exact Nat.min_le_left _ _

theorem length_block : (block env b j).length = found env b j := by
  rw [block, List.length_take, List.length_drop, found, Stand.found]
  split <;> omega

theorem take_unread :
    (unread env (locals env b j).io).take b = block env b j := by
  show (if (stand env b j).ended then []
    else (env.file (3 * j + 2)).drop (stand env b j).place).take b = _
  rw [block, found, Stand.found]
  split
  · rw [List.take_zero, List.take_nil]
  · rw [List.take_eq_take_min, List.length_drop]

theorem place_lt (hlong : ∀ i, (env.file i).length < 2 ^ 63) :
    (stand env b j).place < 2 ^ 63 := by
  induction j with
  | zero =>
      have h := hlong 1
      show (env.file 1).length - (env.file 0).length % b < _
      omega
  | succ j ih =>
      have h := hlong (3 * j + 2)
      rw [stand, Stand.next]
      split
      · show (stand env b j).place - b < _
        omega
      · show (stand env b j).place + (stand env b j).found env b j < _
        rw [Stand.found]
        split <;> omega

/-- The calls of turn `j` that are tested succeed; that nothing is written
cannot fail. -/
def Succeeds (env : Env) (b j : Nat) : Prop :=
  env.fault (3 * j + 2) = none ∧
    (env.fault (3 * j + 3) = none ∨ found env b j = 0)

theorem turn_locals (hb : b < 2 ^ 31)
    (hlong : ∀ i, (env.file i).length < 2 ^ 63) (hreaches : Reaches env b j)
    (hcalls : Succeeds env b j) :
    turn env b (locals env b j) = .ok (locals env b (j + 1)) := by
  obtain ⟨hread, hwrite⟩ := hcalls
  have hle : found env b j ≤ b := found_le
  have hfile := hlong 0
  have hplace : (stand env b j).place < 2 ^ 63 := place_lt hlong
  have hempty : env.fault (3 * j + 2 + 1) = none ∨
      (unread env (locals env b j).io).take b = [] := by
    rw [take_unread, ← List.length_eq_zero_iff, length_block]
    exact hwrite
  have hremaining : longOf ((locals env b j).bytesRemaining - found env b j) =
      (locals env b (j + 1)).bytesRemaining := by
    show longOf ((env.file 0).length - total env b j - found env b j) =
      ((env.file 0).length : Int) - (total env b j + found env b j : Nat)
    unfold Reaches at hreaches
    rw [longOf_eq (by omega) (by omega)]
    omega
  have hoffset : offset b (found env b j) = -(b : Int) - found env b j :=
    longOf_eq (by omega) (by omega)
  rw [turn_ok rfl hread hempty, take_unread, length_block, hremaining, hoffset,
    fseek_back (p := (stand env b j).place) (n := b) ?_ hplace]
  · congr 1
    rw [locals, Locals.mk.injEq]
    refine ⟨rfl, ?_⟩
    rw [seekBack, copied, take_unread, length_block]
    show (if env.fault (3 * j + 4) = none ∧ b ≤ (stand env b j).place then _
      else _) = Streams.mk ((stand env b j).next env b j).place
        ((stand env b j).next env b j).ended _ _ _
    rw [Stand.next]
    split <;> rfl
  · show (((stand env b j).place +
      ((unread env (locals env b j).io).take b).length : Nat) : Int) + _ = _
    rw [take_unread, length_block]
    omega

/-- A turn in which a call that is tested fails. -/
theorem turn_fails (hcalls : ¬ Succeeds env b j) :
    ∃ io, turn env b (locals env b j) = .error (-1, io) := by
  by_cases hread : env.fault (3 * j + 2) = none
  · obtain ⟨io, hio, herror, hcall⟩ : ∃ io,
        fread env b (locals env b j).io = (block env b j, io) ∧
          io.error = false ∧ io.calls = 3 * j + 3 := by
      rw [fread_ok hread, take_unread]
      exact ⟨_, rfl, rfl, rfl⟩
    have hfault : env.fault io.calls ≠ none := by
      rw [hcall]
      exact fun h => hcalls ⟨hread, .inl h⟩
    have hdata : (block env b j).reverse ≠ [] := by
      intro hnil
      refine hcalls ⟨hread, .inr ?_⟩
      rw [← length_block, List.reverse_eq_nil_iff.mp hnil, List.length_nil]
    have hless := fwrite_fails hfault hdata
    rw [List.length_reverse] at hless
    refine ⟨(fwrite env (block env b j).reverse io).2, ?_⟩
    simp only [turn, hio, ferror, herror, reverseText_eq, if_pos hless,
      Bool.false_eq_true, if_false]
  · have herror : (fread env b (locals env b j).io).2.error = true :=
      fread_fails hread b
    refine ⟨(fread env b (locals env b j).io).2, ?_⟩
    simp only [turn, ferror, herror, if_true]

/-- The loop goes along the walk. -/
theorem loopWalk (hb : b < 2 ^ 31) (hlong : ∀ i, (env.file i).length < 2 ^ 63) :
    LoopWalk Locals.Continues (turn env b) (fun j s => s = locals env b j)
      (Reaches env b) (Succeeds env b) fun r => r.1 = -1 where
  cond_iff := by
    rintro j _ rfl
    exact continues_locals
  turn := by
    rintro j _ rfl hreaches hcalls
    exact ⟨_, turn_locals hb hlong hreaches hcalls, rfl⟩
  fail := by
    rintro j _ rfl _ hcalls
    obtain ⟨io, hio⟩ := turn_fails hcalls
    exact ⟨_, hio, rfl⟩

end States

/-! ## What `reverse_file` returns -/

section Outcomes

variable {env : Env} {b n : Nat}

/-- Both seeks before the loop succeed. -/
def Enters (env : Env) (b : Nat) : Prop :=
  env.fault 0 = none ∧ env.fault 1 = none ∧
    (env.file 0).length % b ≤ (env.file 1).length

theorem reverseFile_of_enters (hlong : ∀ i, (env.file i).length < 2 ^ 63)
    (henters : Enters env b) (fuel : Nat) :
    reverseFile env b fuel .opened =
      (loop Locals.Continues (turn env b) fuel (locals env b 0)).map
        returned := by
  have hend : fseek env 0 .end .opened =
      (0, ⟨(env.file 0).length, false, false, [], 1⟩) :=
    fseek_end (n := 0) henters.1 rfl (Nat.zero_le _) (hlong 0)
  have hseek : fseek env (((env.file 0).length : Int).tmod b * -1) .end
      ⟨(env.file 0).length, false, false, [], 1⟩ =
      (0, ⟨(env.file 1).length - (env.file 0).length % b, false, false, [],
        2⟩) := by
    refine fseek_end henters.2.1 ?_ henters.2.2 (hlong 1)
    rw [← Int.ofNat_tmod]
    omega
  simp only [reverseFile, hend, ftell, hseek, ne_eq, not_true, if_false]
  rw [show locals env b 0 = ⟨(env.file 0).length,
    ⟨(env.file 1).length - (env.file 0).length % b, false, false, [], 2⟩⟩ by
      rw [locals, Locals.mk.injEq]
      refine ⟨?_, rfl⟩
      show ((env.file 0).length : Int) - (0 : Nat) = _
      omega]

theorem reverseFile_of_not_enters (hlong : ∀ i, (env.file i).length < 2 ^ 63)
    (henters : ¬ Enters env b) :
    ∃ io, ∀ fuel, reverseFile env b fuel .opened = some (-1, io) := by
  by_cases hfirst : env.fault 0 = none
  · have hend : fseek env 0 .end .opened =
        (0, ⟨(env.file 0).length, false, false, [], 1⟩) :=
      fseek_end (n := 0) hfirst rfl (Nat.zero_le _) (hlong 0)
    have hseek : fseek env (((env.file 0).length : Int).tmod b * -1) .end
        ⟨(env.file 0).length, false, false, [], 1⟩ =
        (-1, ⟨(env.file 0).length, false, false, [], 2⟩) := by
      refine fseek_fails ?_
      by_cases hsecond : env.fault 1 = none
      · have hbefore : ¬ (env.file 0).length % b ≤ (env.file 1).length :=
          fun h => henters ⟨hfirst, hsecond, h⟩
        refine .inr ?_
        show ((env.file 1).length : Int) +
          ((env.file 0).length : Int).tmod b * -1 < 0
        rw [← Int.ofNat_tmod]
        omega
      · exact .inl hsecond
    refine ⟨⟨(env.file 0).length, false, false, [], 2⟩, fun fuel => ?_⟩
    simp only [reverseFile, hend, ftell, hseek, ne_eq, not_true, if_false]
    rfl
  · have hend : fseek env 0 .end .opened =
        (-1, ⟨0, false, false, [], 1⟩) := fseek_fails (.inl hfirst)
    refine ⟨⟨0, false, false, [], 1⟩, fun fuel => ?_⟩
    simp only [reverseFile, hend]
    rfl

/-- The loop ends before turn `n`. -/
theorem reverseFile_ends (hb : b < 2 ^ 31)
    (hlong : ∀ i, (env.file i).length < 2 ^ 63) (henters : Enters env b)
    (hgo : ∀ j < n, Reaches env b j ∧ Succeeds env b j)
    (hend : ¬ Reaches env b n) :
    reverseFile env b n .opened = some (0, (locals env b n).io) := by
  obtain ⟨_, rfl, hloop⟩ := (loopWalk hb hlong).ends rfl hgo hend
  rw [reverseFile_of_enters hlong henters, hloop]
  rfl

/-- Turn `n` meets a failure that is tested. -/
theorem reverseFile_fails (hb : b < 2 ^ 31)
    (hlong : ∀ i, (env.file i).length < 2 ^ 63) (henters : Enters env b)
    (hgo : ∀ j < n, Reaches env b j ∧ Succeeds env b j)
    (hlast : Reaches env b n) (hfails : ¬ Succeeds env b n) :
    ∃ io, reverseFile env b (n + 1) .opened = some (-1, io) := by
  obtain ⟨⟨_, io⟩, rfl, hloop⟩ := (loopWalk hb hlong).fails rfl hgo hlast hfails
  refine ⟨io, ?_⟩
  rw [reverseFile_of_enters hlong henters, hloop]
  rfl

theorem reverseFile_never (hb : b < 2 ^ 31)
    (hlong : ∀ i, (env.file i).length < 2 ^ 63) (henters : Enters env b)
    (hgo : ∀ j, Reaches env b j ∧ Succeeds env b j) (fuel : Nat) :
    reverseFile env b fuel .opened = none := by
  rw [reverseFile_of_enters hlong henters,
    (loopWalk hb hlong).never rfl hgo fuel]
  rfl

end Outcomes

/-! ## A file that stays as it is, and seeks that work -/

section Still

variable {env : Env} {bytes : List UInt8} {b j : Nat}

/-- No turn reads behind the end. -/
theorem place_add_found_le (hfile : ∀ i, env.file i = bytes) :
    (stand env b j).place + found env b j ≤ bytes.length := by
  have hplace : (stand env b j).place ≤ bytes.length := by
    induction j with
    | zero =>
        rw [stand, hfile, hfile]
        exact Nat.sub_le _ _
    | succ j ih =>
        rw [stand, Stand.next]
        split
        · exact Nat.le_trans (Nat.sub_le _ _) ih
        · show (stand env b j).place + (stand env b j).found env b j ≤ _
          rw [Stand.found, hfile]
          split <;> omega
  rw [found, Stand.found, hfile]
  split <;> omega

theorem take_drop_eq_map {n p : Nat} (h : p + n ≤ bytes.length) :
    (bytes.drop p).take n = (List.range' p n).map fun i => bytes.getD i 255 := by
  apply List.ext_getElem
  · rw [List.length_take, List.length_drop, List.length_map,
      List.length_range']
    omega
  · intro i hi hi'
    rw [List.length_map, List.length_range'] at hi'
    rw [List.getElem_take, List.getElem_drop, List.getElem_map,
      List.getElem_range', Nat.one_mul, List.getD_eq_getElem _ _ (by omega)]

theorem output_eq (hfile : ∀ i, env.file i = bytes) :
    output env b j = (sources env b j).map fun p => bytes.getD p 255 := by
  induction j with
  | zero => rfl
  | succ j ih =>
      rw [output, sources, ih, block, hfile,
        take_drop_eq_map (place_add_found_le hfile), List.map_append,
        List.map_reverse]

/-- Back by a block in every turn. -/
theorem stand_of_seeks (hfile : ∀ i, env.file i = bytes)
    (hseeks : ∀ i < j, env.fault (3 * i + 4) = none)
    (hj : j ≤ bytes.length / b) :
    stand env b j = ⟨(bytes.length / b - j) * b, false⟩ := by
  induction j with
  | zero =>
      have hdiv : bytes.length / b * b + bytes.length % b = bytes.length := by
        rw [Nat.mul_comm]
        exact Nat.div_add_mod _ _
      rw [stand, hfile, hfile, Stand.mk.injEq, Nat.sub_zero]
      exact ⟨by omega, rfl⟩
  | succ j ih =>
      have hback : (bytes.length / b - j) * b =
          (bytes.length / b - (j + 1)) * b + b := by
        rw [← Nat.succ_mul]
        congr 1
        omega
      have hle : b ≤ (bytes.length / b - j) * b := by omega
      rw [stand, ih (fun i hi => hseeks i (Nat.lt_succ_of_lt hi)) (by omega),
        Stand.next, if_pos ⟨hseeks j (Nat.lt_succ_self j), hle⟩]
      show Stand.mk ((bytes.length / b - j) * b - b) false = _
      rw [hback, Nat.add_sub_cancel]

/-- What a turn reads lies before what was read. -/
theorem total_of_seeks (hb : 1 ≤ b) (hfile : ∀ i, env.file i = bytes)
    (hseeks : ∀ i < j, env.fault (3 * i + 4) = none)
    (hj : j ≤ bytes.length / b) :
    (bytes.length / b - j) * b + found env b j + total env b j =
      bytes.length := by
  have hmod : bytes.length % b < b := Nat.mod_lt _ hb
  have hdiv : bytes.length / b * b + bytes.length % b = bytes.length := by
    rw [Nat.mul_comm]
    exact Nat.div_add_mod _ _
  have hfound : ∀ i ≤ j, found env b i =
      min b (bytes.length - (bytes.length / b - i) * b) := by
    intro i hi
    rw [found, stand_of_seeks hfile
      (fun i' hi' => hseeks i' (Nat.lt_of_lt_of_le hi' hi)) (by omega),
      Stand.found, if_neg Bool.false_ne_true, hfile]
  induction j with
  | zero =>
      rw [hfound 0 (Nat.le_refl 0), Nat.sub_zero]
      show _ + _ + 0 = _
      omega
  | succ j ih =>
      have hbefore := ih (fun i hi => hseeks i (Nat.lt_succ_of_lt hi))
        (by omega) fun i hi => hfound i (Nat.le_succ_of_le hi)
      have hback : (bytes.length / b - j) * b =
          (bytes.length / b - (j + 1)) * b + b := by
        rw [← Nat.succ_mul]
        congr 1
        omega
      rw [hfound (j + 1) (Nat.le_refl _)]
      show _ + _ + (total env b j + found env b j) = _
      omega

theorem reaches_of_seeks (hb : 1 ≤ b) (hfile : ∀ i, env.file i = bytes)
    (hseeks : ∀ i < j, env.fault (3 * i + 4) = none)
    (hj : j ≤ bytes.length / b) (hne : 0 < bytes.length) :
    Reaches env b j := by
  rw [Reaches, hfile]
  cases j with
  | zero => exact hne
  | succ j =>
      have hbefore := total_of_seeks (j := j) hb hfile
        (fun i hi => hseeks i (Nat.lt_succ_of_lt hi)) (by omega)
      have hleft : 0 < (bytes.length / b - j) * b :=
        Nat.mul_pos (by omega) hb
      show total env b j + found env b j < _
      omega

/-- After the block at the start everything is read. -/
theorem total_last (hb : 1 ≤ b) (hfile : ∀ i, env.file i = bytes)
    (hseeks : ∀ i < bytes.length / b, env.fault (3 * i + 4) = none) :
    total env b (bytes.length / b + 1) = bytes.length := by
  have hlast := total_of_seeks hb hfile hseeks (Nat.le_refl _)
  rw [Nat.sub_self, Nat.zero_mul, Nat.zero_add] at hlast
  rw [total, Nat.add_comm, hlast]

/-- Where the seeks work, the bytes come from the end of the file. -/
theorem sources_of_seeks (hb : 1 ≤ b) (hfile : ∀ i, env.file i = bytes)
    (hseeks : ∀ i < bytes.length / b, env.fault (3 * i + 4) = none)
    (hj : j ≤ bytes.length / b + 1) :
    sources env b j =
      (List.range' (bytes.length - total env b j) (total env b j)).reverse := by
  induction j with
  | zero => rfl
  | succ j ih =>
      have hbefore : ∀ i < j, env.fault (3 * i + 4) = none :=
        fun i hi => hseeks i (by omega)
      have hplace : (stand env b j).place = (bytes.length / b - j) * b := by
        rw [stand_of_seeks hfile hbefore (by omega)]
      have hall := total_of_seeks hb hfile hbefore (by omega)
      have htotal : total env b (j + 1) = found env b j + total env b j :=
        Nat.add_comm _ _
      have hstart : bytes.length - total env b j =
          bytes.length - total env b (j + 1) + found env b j := by
        omega
      have hend : (stand env b j).place =
          bytes.length - total env b (j + 1) := by
        omega
      rw [sources, ih (by omega), hend, ← List.reverse_append, hstart,
        List.range'_append_1, htotal]

end Still

/-- The turns of a call of `reverse_file`, with the states before them. -/
structure Run (env : Env) (b n : Nat) (run : Nat → Locals) : Prop where
  entry : ∀ fuel, reverseFile env b fuel .opened =
    (loop Locals.Continues (turn env b) fuel (run 0)).map returned
  step : ∀ i < n, (run i).Continues ∧
    turn env b (run i) = .ok (run (i + 1))
  stop : ¬ (run n).Continues

/-- A turn that reads the byte at `x`. -/
def Reads (env : Env) (b : Nat) (s : Locals) (x : Nat) : Prop :=
  s.io.pos ≤ x ∧ x < s.io.pos + (fread env b s.io).1.length

section Calm

variable {b i x : Nat} {bytes : List UInt8}

theorem locals_calm (hi : i ≤ bytes.length / b) :
    (locals (.calm bytes) b i).io.pos = (bytes.length / b - i) * b := by
  show (stand (.calm bytes) b i).place = _
  rw [stand_of_seeks (fun _ => rfl) (fun _ _ => rfl) hi]

theorem total_calm (bytes : List UInt8) (hb : 1 ≤ b)
    (hi : i ≤ bytes.length / b) :
    (bytes.length / b - i) * b + found (.calm bytes) b i +
      total (.calm bytes) b i = bytes.length :=
  total_of_seeks hb (fun _ => rfl) (fun _ _ => rfl) hi

/-- The turns end when everything is read; those of the empty file at
once. -/
theorem exists_turns (hb : 1 ≤ b) (bytes : List UInt8) :
    ∃ n ≤ bytes.length / b + 1, (∀ i < n, Reaches (.calm bytes) b i) ∧
      ¬ Reaches (.calm bytes) b n ∧
      (0 < bytes.length → n = bytes.length / b + 1) := by
  by_cases hne : 0 < bytes.length
  · refine ⟨bytes.length / b + 1, Nat.le_refl _, ?_, ?_, fun _ => rfl⟩
    · intro i hi
      exact reaches_of_seeks hb (fun _ => rfl) (fun _ _ => rfl)
        (Nat.le_of_lt_succ hi) hne
    · have hlast : total (.calm bytes) b (bytes.length / b + 1) =
          bytes.length := total_last hb (fun _ => rfl) fun _ _ => rfl
      rw [Reaches, hlast]
      exact Nat.lt_irrefl _
  · refine ⟨0, Nat.zero_le _, fun i hi => ?_, hne, fun h => absurd h hne⟩
    exact absurd hi (Nat.not_lt_zero i)

/-- The block of a byte is the quotient of its place. -/
theorem reads_iff (hb : 1 ≤ b) (hi : i ≤ bytes.length / b)
    (hx : x < bytes.length) :
    Reads (.calm bytes) b (locals (.calm bytes) b i) x ↔
      i = bytes.length / b - x / b := by
  have hlength : (fread (.calm bytes) b (locals (.calm bytes) b i).io).1.length =
      found (.calm bytes) b i := by
    rw [fread_ok rfl, take_unread, length_block]
  have hall := total_calm bytes hb hi
  have hle : x / b ≤ bytes.length / b := Nat.div_le_div_right (Nat.le_of_lt hx)
  rw [Reads, hlength, locals_calm hi]
  constructor
  · rintro ⟨hlow, hhigh⟩
    have hfound : found (.calm bytes) b i ≤ b := found_le
    have hdiv : x / b = bytes.length / b - i :=
      Nat.div_eq_of_lt_le hlow (by rw [Nat.succ_mul]; omega)
    omega
  · rintro rfl
    rw [Nat.sub_sub_self hle] at hall ⊢
    refine ⟨Nat.div_mul_le_self x b, ?_⟩
    cases hturn : bytes.length / b - x / b with
    | zero =>
        -- the first turn reads up to the end of the file
        rw [hturn] at hall
        change _ + _ + 0 = _ at hall
        omega
    | succ j =>
        -- all turns after it read whole blocks
        have hbefore := total_calm (i := j) bytes hb (by omega)
        have hback : (bytes.length / b - j) * b = x / b * b + b := by
          rw [← Nat.succ_mul]
          congr 1
          omega
        have hblock : x < x / b * b + b := Nat.lt_div_mul_add hb
        rw [hturn] at hall
        change _ + _ + (total (.calm bytes) b j + found (.calm bytes) b j) = _
          at hall
        omega

/-- **Reversal in blocks reads each byte once and ends**: the blocks that it
reads start at different places, what remains is never negative, and two
runs restore the file. -/
theorem reverse_file_blocks (f : RegularFile) (hb : 1 ≤ b) (hint : b < 2 ^ 31) :
    ∃ n run, Run (.calm f.bytes) b n run ∧
      (∀ i ≤ n, 0 ≤ (run i).bytesRemaining) ∧
      (∀ i < n, ∀ j < n, (run i).io.pos = (run j).io.pos → i = j) ∧
      (∀ x < f.bytes.length,
        ∃! i, i < n ∧ Reads (.calm f.bytes) b (run i) x) ∧
      ∃ fuel y, reverseFile (.calm f.bytes) b fuel .opened = some y ∧
        y.1 = 0 ∧ y.2.written = f.bytes.reverse ∧
        ∃ fuel z, reverseFile (.calm y.2.written) b fuel .opened = some z ∧
          z.1 = 0 ∧ z.2.written = f.bytes := by
  obtain ⟨fuel, y, hy, hstatus, hwritten⟩ := reverseFile_calm f hb
  have hsize : y.2.written.length < 2 ^ 63 := by
    rw [hwritten, List.length_reverse]
    exact f.size_lt
  obtain ⟨fuel', z, hz, hstatus', hwritten'⟩ :=
    reverseFile_calm ⟨y.2.written, hsize⟩ hb
  obtain ⟨bytes, hlong⟩ := f
  obtain ⟨n, hn, hreaches, hstop, hall⟩ := exists_turns hb bytes
  have hfile : ∀ i, ((Env.calm bytes).file i).length < 2 ^ 63 := fun _ => hlong
  refine ⟨n, locals (.calm bytes) b, ⟨?_, ?_, ?_⟩, ?_, ?_, ?_, fuel, y, hy,
    hstatus, hwritten, fuel', z, hz, hstatus', ?_⟩
  · exact reverseFile_of_enters hfile ⟨rfl, rfl, Nat.mod_le _ _⟩
  · intro i hi
    exact ⟨continues_locals.mpr (hreaches i hi),
      turn_locals hint hfile (hreaches i hi) ⟨rfl, .inl rfl⟩⟩
  · exact mt continues_locals.mp hstop
  · -- what remains
    intro i hi
    cases i with
    | zero =>
        show (0 : Int) ≤ bytes.length - (0 : Nat)
        omega
    | succ i =>
        have hturn := total_calm (i := i) bytes hb (by omega)
        show (0 : Int) ≤ bytes.length -
          (total (.calm bytes) b i + found (.calm bytes) b i : Nat)
        omega
  · -- different places
    intro i hi j hj hpos
    rw [locals_calm (by omega), locals_calm (by omega)] at hpos
    have heq := Nat.eq_of_mul_eq_mul_right hb hpos
    omega
  · -- each byte
    intro x hx
    change x < bytes.length at hx
    have hturns := hall (Nat.zero_lt_of_lt hx)
    refine ⟨bytes.length / b - x / b, ⟨?_, ?_⟩, ?_⟩
    · rw [hturns]
      exact Nat.lt_succ_of_le (Nat.sub_le _ _)
    · exact (reads_iff hb (Nat.sub_le _ _) hx).mpr rfl
    · rintro i ⟨hi, hreads⟩
      exact (reads_iff hb (by omega) hx).mp hreads
  · rw [hwritten']
    show y.2.written.reverse = bytes
    rw [hwritten]
    exact List.reverse_reverse bytes

theorem reverse_file_blocks_five : ∃ fuel y,
    reverseFile (.calm [1, 2, 3, 4, 5]) 2 fuel .opened = some y ∧
      y.2.written = [5, 4, 3, 2, 1] := by
  obtain ⟨n, run, -, -, -, -, fuel, y, hy, -, hwritten, -⟩ :=
    reverse_file_blocks ⟨[1, 2, 3, 4, 5], by decide⟩
      (show 1 ≤ 2 by decide) (show 2 < 2 ^ 31 by decide)
  exact ⟨fuel, y, hy, hwritten⟩

end Calm

end Blocks

end Sysops.Cw03
