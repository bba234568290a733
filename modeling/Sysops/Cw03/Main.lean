import Sysops.Cw03.ByteWalk
import Sysops.Cw03.Walk
import Mathlib.Data.Nat.Find

/-!
# `main` of `cw03/zad1/reverse.c`

Which calls may fail without a trace in the status: the seeks in the loop,
and `fclose`, with which the bytes still in the buffer are lost. The bytes
in the file come from where the seeks that fail leave the stream.
-/

namespace Sysops.Cw03

open Stdio

def exitSuccess : Int := 0

def exitFailure : Int := 1

/-- `reverse_file`, compiled with `BLOCK_SIZE` or without. -/
def reverseFile (blockSize : Option Nat) (env : Env) (fuel : Nat)
    (io : Streams) : Option (Int × Streams) :=
  match blockSize with
  | none => Bytes.reverseFile env fuel io
  | some b => Blocks.reverseFile env b fuel io

/-- What `main` meets. -/
structure Setting where
  argc : Int
  /-- Whether `fopen` opens the files. -/
  infile : Bool
  outfile : Bool
  /-- What the output file holds before. -/
  before : List UInt8
  /-- The calls on the streams that fail. -/
  fault : Nat → Option Nat
  /-- How `fclose` of the output file fails. -/
  closing : Option Nat

/-- The file that is read stays as it is. -/
def Setting.env (setting : Setting) (bytes : List UInt8) : Env where
  file _ := bytes
  fault := setting.fault

/-- The status, and what the output file holds in the end. -/
def main (blockSize : Option Nat) (bytes : List UInt8) (setting : Setting)
    (fuel : Nat) : Option (Int × List UInt8) :=
  let nArgs := setting.argc - 1
  if nArgs ≠ 2 then some (exitFailure, setting.before)
  else if !setting.infile then some (exitFailure, setting.before)
  else if !setting.outfile then some (exitFailure, setting.before)
  else
    (reverseFile blockSize (setting.env bytes) fuel .opened).map fun result =>
      -- what `fclose` returns is not tested
      let file := (fclose setting.closing result.2).2
      if result.1 = -1 then (exitFailure, file) else (exitSuccess, file)

/-- All that `main` tests before it calls `reverse_file`. -/
def Setting.Starts (setting : Setting) : Prop :=
  setting.argc = 3 ∧ setting.infile = true ∧ setting.outfile = true

/-! ## Both versions of `reverse_file` -/

section Versions

variable (blockSize : Option Nat) (env : Env)

/-- The seeks before the loop succeed. -/
def Enters : Prop :=
  match blockSize with
  | none => env.fault 0 = none
  | some b => Blocks.Enters env b

/-- The loop comes to turn `j` when the turns before it succeed. -/
def Reaches (j : Nat) : Prop :=
  match blockSize with
  | none => j < (env.file 0).length
  | some b => Blocks.Reaches env b j

/-- The calls of turn `j` that are tested succeed. -/
def Succeeds (j : Nat) : Prop :=
  match blockSize with
  | none => Bytes.Succeeds env j
  | some b => Blocks.Succeeds env b j

/-- Where the bytes written before turn `j` come from. -/
def sources (j : Nat) : List Nat :=
  match blockSize with
  | none => Bytes.sources env j
  | some b => Blocks.sources env b j

end Versions

section Outcomes

variable {blockSize : Option Nat} {env : Env} {bytes : List UInt8} {n : Nat}

/-- A block size is an `int`. -/
def IsSize (blockSize : Option Nat) : Prop :=
  ∀ b ∈ blockSize, 1 ≤ b ∧ b < 2 ^ 31

theorem reaches_of_le {i j : Nat} (hij : i ≤ j)
    (h : Reaches blockSize env j) : Reaches blockSize env i := by
  cases blockSize with
  | none => exact Nat.lt_of_le_of_lt hij h
  | some b => exact Blocks.reaches_of_le hij h

/-- Byte by byte there are as many turns as bytes. -/
theorem turns_eq_length (hreaches : ∀ j < n, j < bytes.length)
    (hend : ¬ n < bytes.length) : n = bytes.length := by
  cases n with
  | zero => omega
  | succ n =>
      have hlast := hreaches n (Nat.lt_succ_self n)
      omega

theorem reverseFile_unique {k l : Nat} {io : Streams} {x y : Int × Streams}
    (hx : reverseFile blockSize env k io = some x)
    (hy : reverseFile blockSize env l io = some y) : x = y := by
  cases blockSize with
  | none => exact Bytes.reverseFile_unique hx hy
  | some b => exact Blocks.reverseFile_unique hx hy

theorem reverseFile_of_not_enters (hfile : ∀ i, env.file i = bytes)
    (hlong : bytes.length < 2 ^ 63) (henters : ¬ Enters blockSize env) :
    ∃ fuel io, reverseFile blockSize env fuel .opened = some (-1, io) := by
  cases blockSize with
  | none =>
      obtain ⟨io, hio⟩ := Bytes.reverseFile_of_fault henters
      exact ⟨0, io, hio 0⟩
  | some b =>
      obtain ⟨io, hio⟩ := Blocks.reverseFile_of_not_enters
        (fun i => hfile i ▸ hlong) henters
      exact ⟨0, io, hio 0⟩

theorem reverseFile_fails (hsize : IsSize blockSize)
    (hfile : ∀ i, env.file i = bytes) (hlong : bytes.length < 2 ^ 63)
    (hne : 0 < bytes.length) (henters : Enters blockSize env)
    (hgo : ∀ j < n, Succeeds blockSize env j) (hn : Reaches blockSize env n)
    (hfails : ¬ Succeeds blockSize env n) :
    ∃ fuel io, reverseFile blockSize env fuel .opened = some (-1, io) := by
  cases blockSize with
  | none =>
      have hn' : n < bytes.length := hfile 0 ▸ hn
      exact Bytes.reverseFile_fails hfile hlong hne henters hgo hn' hfails
  | some b =>
      obtain ⟨io, hio⟩ := Blocks.reverseFile_fails (hsize b rfl).2
        (fun i => hfile i ▸ hlong) henters
        (fun j hj => ⟨Blocks.reaches_of_le (Nat.le_of_lt hj) hn, hgo j hj⟩)
        hn hfails
      exact ⟨n + 1, io, hio⟩

/-- The bytes written, where the loop ends before turn `n`. -/
theorem reverseFile_ends (hsize : IsSize blockSize)
    (hfile : ∀ i, env.file i = bytes) (hlong : bytes.length < 2 ^ 63)
    (hne : 0 < bytes.length) (henters : Enters blockSize env)
    (hgo : ∀ j < n, Reaches blockSize env j ∧ Succeeds blockSize env j)
    (hend : ¬ Reaches blockSize env n) :
    ∃ fuel io, reverseFile blockSize env fuel .opened = some (0, io) ∧
      io.written = (sources blockSize env n).map fun p => bytes.getD p 255 := by
  cases blockSize with
  | none =>
      obtain rfl : n = bytes.length := turns_eq_length
        (fun j hj => hfile 0 ▸ (hgo j hj).1) (hfile 0 ▸ hend)
      exact Bytes.reverseFile_ends hfile hlong hne henters
        fun j hj => (hgo j hj).2
  | some b =>
      refine ⟨n, _, Blocks.reverseFile_ends (hsize b rfl).2
        (fun i => hfile i ▸ hlong) henters hgo hend, ?_⟩
      exact Blocks.output_eq hfile

theorem reverseFile_never (hsize : IsSize blockSize)
    (hfile : ∀ i, env.file i = bytes) (hlong : bytes.length < 2 ^ 63)
    (henters : Enters blockSize env)
    (hgo : ∀ j, Reaches blockSize env j ∧ Succeeds blockSize env j)
    (fuel : Nat) : reverseFile blockSize env fuel .opened = none := by
  cases blockSize with
  | none =>
      -- the turns byte by byte are not more than the bytes
      have hlt : bytes.length < bytes.length := hfile 0 ▸ (hgo bytes.length).1
      exact absurd hlt (Nat.lt_irrefl _)
  | some b =>
      exact Blocks.reverseFile_never (hsize b rfl).2
        (fun i => hfile i ▸ hlong) henters hgo fuel

end Outcomes

/-! ## When success means that the output is complete -/

/-- Where the bytes come from that get to the output file. -/
def kept (closing : Option Nat) (places : List Nat) : List Nat :=
  match closing with
  | none => places
  | some n => places.take n

/-- As many bytes as the file has, each from a place that holds the byte
which is due. -/
def Restores (bytes : List UInt8) (places : List Nat) : Prop :=
  places.length = bytes.length ∧ ∀ x < bytes.length,
    bytes.getD (places.getD x 0) 255 = bytes.getD (bytes.length - 1 - x) 255

/-- A failure that is tested, or a loop that ends, if it does, with the bytes
that are due. -/
def Harmless (blockSize : Option Nat) (bytes : List UInt8)
    (setting : Setting) : Prop :=
  ¬ Enters blockSize (setting.env bytes) ∨
    (∃ j, Reaches blockSize (setting.env bytes) j ∧
      ¬ Succeeds blockSize (setting.env bytes) j) ∨
    ∀ n, (∀ j < n, Reaches blockSize (setting.env bytes) j) →
      ¬ Reaches blockSize (setting.env bytes) n →
      Restores bytes
        (kept setting.closing (sources blockSize (setting.env bytes) n))

/-! ## Failures that are not ignored -/

/-- The seeks that leave the stream before something to read work, with a
file of the given length. -/
def SeeksWork (blockSize : Option Nat) (length : Nat)
    (fault : Nat → Option Nat) : Prop :=
  match blockSize with
  | none => ∀ j, j + 1 < length → fault (3 * j + 3) = none
  | some b => ∀ j < length / b, fault (3 * j + 4) = none

/-- A call that is tested fails: byte by byte in any turn, in blocks before a
seek of the loop fails. The first turn in blocks may have nothing to
write. -/
def TestedFails (blockSize : Option Nat) (length : Nat)
    (fault : Nat → Option Nat) : Prop :=
  match blockSize with
  | none => fault 0 ≠ none ∨
      ∃ j < length, fault (3 * j + 1) ≠ none ∨ fault (3 * j + 2) ≠ none
  | some b => fault 0 ≠ none ∨ fault 1 ≠ none ∨
      ∃ j ≤ length / b, (∀ i < j, fault (3 * i + 4) = none) ∧
        (fault (3 * j + 2) ≠ none ∨
          fault (3 * j + 3) ≠ none ∧ (0 < j ∨ 0 < length % b))

/-- No failure is ignored. -/
structure Unharmed (blockSize : Option Nat) (length : Nat)
    (setting : Setting) : Prop where
  /-- If `fclose` fails, then with all bytes written. -/
  closing : ∀ k ∈ setting.closing, length ≤ k
  seeks : SeeksWork blockSize length setting.fault

/-- When `main` returns success the output file is the reverse of the
input. -/
def Complete (blockSize : Option Nat) (bytes : List UInt8)
    (setting : Setting) : Prop :=
  ∀ fuel status file, main blockSize bytes setting fuel = some (status, file) →
    status = exitSuccess → file = bytes.reverse

section Success

variable {blockSize : Option Nat} {bytes : List UInt8} {setting : Setting}
  {fuel : Nat} {io : Streams}

theorem main_of_starts (hstarts : setting.Starts) (fuel : Nat) :
    main blockSize bytes setting fuel =
      (reverseFile blockSize (setting.env bytes) fuel .opened).map
        fun result => if result.1 = -1
          then (exitFailure, (fclose setting.closing result.2).2)
          else (exitSuccess, (fclose setting.closing result.2).2) := by
  obtain ⟨hargc, hinfile, houtfile⟩ := hstarts
  simp [main, hargc, hinfile, houtfile]

theorem main_of_not_starts (hstarts : ¬ setting.Starts) (fuel : Nat) :
    main blockSize bytes setting fuel =
      some (exitFailure, setting.before) := by
  simp only [main]
  split
  · rfl
  · rename_i hargs
    split
    · rfl
    · rename_i hin
      split
      · rfl
      · rename_i hout
        refine absurd ⟨?_, ?_, ?_⟩ hstarts
        · omega
        · simpa using hin
        · simpa using hout

theorem complete_of_not_starts (hstarts : ¬ setting.Starts) :
    Complete blockSize bytes setting := by
  intro fuel status file hmain hsuccess
  rw [main_of_not_starts hstarts] at hmain
  cases hmain
  cases hsuccess

theorem complete_of_fails (hstarts : setting.Starts)
    (h : ∃ fuel io, reverseFile blockSize (setting.env bytes) fuel .opened =
      some (-1, io)) : Complete blockSize bytes setting := by
  obtain ⟨_, io, hio⟩ := h
  intro fuel status file hmain hsuccess
  rw [main_of_starts hstarts] at hmain
  obtain ⟨result, hresult, heq⟩ := Option.map_eq_some_iff.mp hmain
  rw [reverseFile_unique hresult hio, if_pos rfl] at heq
  cases heq
  cases hsuccess

theorem complete_iff_of_ends (hstarts : setting.Starts)
    (h : reverseFile blockSize (setting.env bytes) fuel .opened =
      some (0, io)) :
    Complete blockSize bytes setting ↔
      (fclose setting.closing io).2 = bytes.reverse := by
  constructor
  · intro hcomplete
    refine hcomplete fuel exitSuccess _ ?_ rfl
    rw [main_of_starts hstarts, h]
    rfl
  · intro hfile fuel' status file hmain hsuccess
    rw [main_of_starts hstarts] at hmain
    obtain ⟨result, hresult, heq⟩ := Option.map_eq_some_iff.mp hmain
    rw [reverseFile_unique hresult h] at heq
    cases heq
    exact hfile

theorem restores_iff {places : List Nat} : Restores bytes places ↔
    (places.map fun p => bytes.getD p 255) = bytes.reverse := by
  constructor
  · rintro ⟨hlength, hplaces⟩
    apply List.ext_getElem
    · rw [List.length_map, List.length_reverse, hlength]
    · intro x hx hx'
      rw [List.length_map] at hx
      have hbyte := hplaces x (hlength ▸ hx)
      rw [List.getD_eq_getElem places 0 hx,
        List.getD_eq_getElem bytes (n := bytes.length - 1 - x) 255
          (by omega)] at hbyte
      rw [List.getElem_map, List.getElem_reverse, hbyte]
  · intro heq
    have hlength : places.length = bytes.length := by
      rw [← List.length_map, heq, List.length_reverse]
    refine ⟨hlength, fun x hx => ?_⟩
    have hbyte : (places.map fun p => bytes.getD p 255).getD x 255 =
        bytes.reverse.getD x 255 := by
      rw [heq]
    rw [List.getD_eq_getElem _ _ (by rw [List.length_map, hlength]; exact hx),
      List.getElem_map, List.getD_eq_getElem bytes.reverse 255
        (by rw [List.length_reverse]; exact hx), List.getElem_reverse] at hbyte
    rw [List.getD_eq_getElem places 0 (hlength ▸ hx),
      List.getD_eq_getElem bytes (n := bytes.length - 1 - x) 255 (by omega)]
    exact hbyte

theorem fclose_eq_iff {places : List Nat}
    (hwritten : io.written = places.map fun p => bytes.getD p 255)
    (closing : Option Nat) :
    (fclose closing io).2 = bytes.reverse ↔
      Restores bytes (kept closing places) := by
  rw [restores_iff]
  cases closing with
  | none => rw [fclose, kept, hwritten]
  | some n => rw [fclose, kept, hwritten, List.map_take]

/-- Where all calls that are tested succeed in the turns that are reached. -/
theorem complete_iff_of_succeeds (hsize : IsSize blockSize)
    (hlong : bytes.length < 2 ^ 63) (hne : 0 < bytes.length)
    (hstarts : setting.Starts) (henters : Enters blockSize (setting.env bytes))
    (hgo : ∀ j, Reaches blockSize (setting.env bytes) j →
      Succeeds blockSize (setting.env bytes) j) :
    Complete blockSize bytes setting ↔
      ∀ n, (∀ j < n, Reaches blockSize (setting.env bytes) j) →
        ¬ Reaches blockSize (setting.env bytes) n →
        Restores bytes
          (kept setting.closing (sources blockSize (setting.env bytes) n)) := by
  have hends : ∀ n, (∀ j < n, Reaches blockSize (setting.env bytes) j) →
      ¬ Reaches blockSize (setting.env bytes) n →
      (Complete blockSize bytes setting ↔ Restores bytes
        (kept setting.closing (sources blockSize (setting.env bytes) n))) := by
    intro n hreaches hend
    obtain ⟨fuel, io, hrun, hwritten⟩ := reverseFile_ends hsize (fun _ => rfl)
      hlong hne henters (fun j hj => ⟨hreaches j hj, hgo j (hreaches j hj)⟩)
      hend
    rw [complete_iff_of_ends hstarts hrun, fclose_eq_iff hwritten]
  constructor
  · intro hcomplete n hreaches hend
    exact (hends n hreaches hend).mp hcomplete
  · intro hrestores
    by_cases hend : ∃ n, ¬ Reaches blockSize (setting.env bytes) n
    · classical
      have hreaches : ∀ j < Nat.find hend,
          Reaches blockSize (setting.env bytes) j :=
        fun j hj => Classical.not_not.mp (Nat.find_min hend hj)
      exact (hends _ hreaches (Nat.find_spec hend)).mpr
        (hrestores _ hreaches (Nat.find_spec hend))
    · -- the loop never ends
      intro fuel status file hmain
      have hreaches : ∀ j, Reaches blockSize (setting.env bytes) j :=
        fun j => Classical.not_not.mp fun hj => hend ⟨j, hj⟩
      rw [main_of_starts hstarts, reverseFile_never hsize (fun _ => rfl) hlong
        henters (fun j => ⟨hreaches j, hgo j (hreaches j)⟩)] at hmain
      cases hmain

/-- Then the bytes come from the end of the file to its start. -/
theorem sources_of_seeksWork {n : Nat} (hsize : IsSize blockSize)
    (hne : 0 < bytes.length)
    (hseeks : SeeksWork blockSize bytes.length setting.fault)
    (hreaches : ∀ j < n, Reaches blockSize (setting.env bytes) j)
    (hend : ¬ Reaches blockSize (setting.env bytes) n) :
    sources blockSize (setting.env bytes) n =
      (List.range' 0 bytes.length).reverse := by
  cases blockSize with
  | none =>
      have hn : n = bytes.length := turns_eq_length hreaches hend
      have hall : Bytes.sources (setting.env bytes) bytes.length =
          (List.range' (bytes.length - bytes.length) bytes.length).reverse :=
        Bytes.sources_of_seeks (fun _ => rfl) hseeks (Nat.le_refl _)
      rw [Nat.sub_self] at hall
      rw [hn]
      exact hall
  | some b =>
      obtain ⟨hb, -⟩ := hsize b rfl
      have hlast : Blocks.total (setting.env bytes) b
          (bytes.length / b + 1) = bytes.length :=
        Blocks.total_last hb (fun _ => rfl) hseeks
      have hn : n = bytes.length / b + 1 := by
        have hge : ¬ n ≤ bytes.length / b := fun hle =>
          hend (Blocks.reaches_of_seeks hb (fun _ => rfl)
            (fun i hi => hseeks i (Nat.lt_of_lt_of_le hi hle)) hle hne)
        have hle : ¬ bytes.length / b + 1 < n := fun hlt => by
          have hmore : Blocks.total _ b (bytes.length / b + 1) < _ :=
            hreaches _ hlt
          rw [hlast] at hmore
          exact Nat.lt_irrefl _ hmore
        omega
      have hall : Blocks.sources (setting.env bytes) b
          (bytes.length / b + 1) = _ :=
        Blocks.sources_of_seeks hb (fun _ => rfl) hseeks (Nat.le_refl _)
      rw [hlast, Nat.sub_self] at hall
      rw [hn]
      exact hall

/-- What `fclose` loses is not needed, and the seeks work. -/
theorem harmless_of_unharmed (hsize : IsSize blockSize)
    (hne : 0 < bytes.length) (h : Unharmed blockSize bytes.length setting) :
    Harmless blockSize bytes setting := by
  refine .inr (.inr fun n hreaches hend => ?_)
  have hkept : kept setting.closing
      (sources blockSize (setting.env bytes) n) =
        (List.range' 0 bytes.length).reverse := by
    rw [sources_of_seeksWork hsize hne h.seeks hreaches hend]
    cases hclosing : setting.closing with
    | none => rfl
    | some k =>
        refine List.take_of_length_le ?_
        rw [List.length_reverse, List.length_range']
        exact h.closing k hclosing
  rw [hkept, restores_iff, List.map_reverse,
    ← Blocks.take_drop_eq_map (by rw [Nat.zero_add]), List.drop_zero,
    List.take_length]

/-- Before a seek fails the loop over blocks comes to all turns, and only
the first may find nothing. -/
theorem Blocks.found_of_seeks {env : Env} {b j : Nat} (hb : 1 ≤ b)
    (hfile : ∀ i, env.file i = bytes)
    (hseeks : ∀ i < j, env.fault (3 * i + 4) = none)
    (hj : j ≤ bytes.length / b) (hsome : 0 < j ∨ 0 < bytes.length % b) :
    found env b j ≠ 0 := by
  have hall := total_of_seeks hb hfile hseeks hj
  cases j with
  | zero =>
      have hdiv : b * (bytes.length / b) + bytes.length % b = bytes.length :=
        Nat.div_add_mod _ _
      rw [Nat.mul_comm] at hdiv
      change (bytes.length / b - 0) * b + _ + 0 = _ at hall
      rw [Nat.sub_zero] at hall
      omega
  | succ j =>
      have hbefore := total_of_seeks (j := j) hb hfile
        (fun i hi => hseeks i (Nat.lt_succ_of_lt hi)) (Nat.le_of_succ_le hj)
      have hback : (bytes.length / b - j) * b =
          (bytes.length / b - (j + 1)) * b + b := by
        rw [← Nat.succ_mul]
        congr 1
        omega
      change _ + _ + (total env b j + found env b j) = _ at hall
      omega

theorem harmless_of_testedFails (hsize : IsSize blockSize)
    (hne : 0 < bytes.length)
    (h : TestedFails blockSize bytes.length setting.fault) :
    Harmless blockSize bytes setting := by
  cases blockSize with
  | none =>
      rcases h with henters | ⟨j, hj, hfails⟩
      · exact .inl henters
      · refine .inr (.inl ⟨j, hj, ?_⟩)
        rintro ⟨hread, hwrite⟩
        rcases hfails with hfails | hfails
        · exact hfails hread
        · exact hfails hwrite
  | some b =>
      obtain ⟨hb, -⟩ := hsize b rfl
      rcases h with hfirst | hsecond | ⟨j, hj, hseeks, hfails⟩
      · exact .inl fun henters => hfirst henters.1
      · exact .inl fun henters => hsecond henters.2.1
      · refine .inr (.inl ⟨j, Blocks.reaches_of_seeks hb (fun _ => rfl) hseeks
          hj hne, ?_⟩)
        rintro ⟨hread, hwrite⟩
        rcases hfails with hfails | ⟨hfails, hsome⟩
        · exact hfails hread
        · rcases hwrite with hwrite | hnothing
          · exact hfails hwrite
          · exact Blocks.found_of_seeks hb (fun _ => rfl) hseeks hj hsome
              hnothing

/-- Success means a complete output exactly when the failures are tested or
harmless. -/
theorem complete_iff_harmless (hlong : bytes.length < 2 ^ 63)
    (hne : 0 < bytes.length) (hsize : IsSize blockSize) :
    Complete blockSize bytes setting ↔
      (setting.Starts → Harmless blockSize bytes setting) := by
  by_cases hstarts : setting.Starts
  · rw [Harmless]
    by_cases henters : Enters blockSize (setting.env bytes)
    · by_cases hfails : ∃ j, Reaches blockSize (setting.env bytes) j ∧
          ¬ Succeeds blockSize (setting.env bytes) j
      · refine iff_of_true (complete_of_fails hstarts ?_)
          fun _ => .inr (.inl hfails)
        classical
        obtain ⟨hreaches, hlast⟩ := Nat.find_spec hfails
        refine reverseFile_fails hsize (fun _ => rfl) hlong hne henters
          (fun j hj => ?_) hreaches hlast
        by_contra hearlier
        exact Nat.find_min hfails hj
          ⟨reaches_of_le (Nat.le_of_lt hj) hreaches, hearlier⟩
      · have hgo : ∀ j, Reaches blockSize (setting.env bytes) j →
            Succeeds blockSize (setting.env bytes) j := by
          intro j hreaches
          by_contra hj
          exact hfails ⟨j, hreaches, hj⟩
        rw [complete_iff_of_succeeds hsize hlong hne hstarts henters hgo]
        constructor
        · intro hrestores _
          exact .inr (.inr hrestores)
        · intro hharmless
          rcases hharmless hstarts with hnot | hsome | hrestores
          · exact absurd henters hnot
          · exact absurd hsome hfails
          · exact hrestores
    · exact iff_of_true (complete_of_fails hstarts
        (reverseFile_of_not_enters (fun _ => rfl) hlong henters))
        fun _ => .inl henters
  · exact iff_of_true (complete_of_not_starts hstarts)
      fun h => absurd h hstarts

/-! ## Byte by byte nothing else is harmless -/

/-- After the first seek that fails the stream stands two bytes too far. -/
theorem Bytes.place_of_seek_fails {env : Env} {j : Nat}
    (hfile : ∀ i, env.file i = bytes) (hj : j + 1 < bytes.length)
    (hseeks : ∀ i < j, env.fault (3 * i + 3) = none)
    (hfails : env.fault (3 * j + 3) ≠ none) :
    place env (j + 1) = bytes.length - j := by
  have hplace : place env j = bytes.length - 1 - j :=
    place_of_seeks hfile (fun i hi => hseeks i hi) (by omega)
  rw [place, hplace, hfile, if_neg fun h => hfails h.1]
  omega

/-- There is a file for which that gives a wrong byte. -/
theorem exists_not_restores {n j : Nat} (hj : j + 1 < n) :
    ∃ bytes : List UInt8, bytes.length = n ∧ ∀ places : List Nat,
      places.getD (j + 1) 0 = n - j → ¬ Restores bytes places := by
  have hlength : ((List.replicate n (1 : UInt8)).set (n - 2 - j) 0).length =
      n := by
    rw [List.length_set, List.length_replicate]
  refine ⟨_, hlength, ?_⟩
  rintro places hplace ⟨-, hbytes⟩
  rw [hlength] at hbytes
  have hbyte := hbytes (j + 1) hj
  have hdue : n - 1 - (j + 1) = n - 2 - j := by omega
  have hread : n - 2 - j ≠ n - j := by omega
  have hless : n - 2 - j < n := by omega
  rw [hplace, hdue, List.getD_eq_getElem?_getD, List.getD_eq_getElem?_getD,
    List.getElem?_set_ne hread, List.getElem?_set_self (by simpa using hless),
    List.getElem?_replicate] at hbyte
  split at hbyte <;> simp at hbyte

/-- Where a failure is ignored, some file is not restored. -/
theorem unharmed_of_complete {n : Nat} (hne : 0 < n) (hlong : n < 2 ^ 63)
    (hstarts : setting.Starts)
    (hfails : ¬ TestedFails none n setting.fault)
    (hcomplete : ∀ bytes : List UInt8, bytes.length = n →
      Complete none bytes setting) : Unharmed none n setting := by
  simp only [TestedFails, not_or, not_not, not_exists, not_and] at hfails
  obtain ⟨henters, hgo⟩ := hfails
  have hrestores : ∀ bytes : List UInt8, bytes.length = n →
      Restores bytes (kept setting.closing
        (Bytes.sources (setting.env bytes) n)) := by
    intro bytes hlength
    have hsize : IsSize none := nofun
    refine (complete_iff_of_succeeds hsize
      (hlength ▸ hlong) (hlength ▸ hne) hstarts henters ?_).mp
      (hcomplete bytes hlength) n ?_ ?_
    · intro j hj
      exact hgo j (hlength ▸ hj)
    · intro j hj
      show j < bytes.length
      omega
    · show ¬ n < bytes.length
      omega
  have hclosing : ∀ k ∈ setting.closing, n ≤ k := by
    intro k hk
    have hall := (hrestores (List.replicate n 0) List.length_replicate).1
    rw [hk, kept, List.length_take, List.length_replicate] at hall
    omega
  refine ⟨hclosing, ?_⟩
  by_contra hseeks
  simp only [SeeksWork, not_forall] at hseeks
  classical
  obtain ⟨hj, hfault⟩ := Nat.find_spec hseeks
  have hbefore : ∀ i < Nat.find hseeks,
      setting.fault (3 * i + 3) = none := by
    intro i hi
    by_contra hearlier
    exact Nat.find_min hseeks hi ⟨by omega, hearlier⟩
  obtain ⟨bytes, rfl, hwrong⟩ := exists_not_restores hj
  refine hwrong _ ?_ (hrestores bytes rfl)
  have hkept : kept setting.closing
      (Bytes.sources (setting.env bytes) bytes.length) =
        Bytes.sources (setting.env bytes) bytes.length := by
    cases hclose : setting.closing with
    | none => rfl
    | some k =>
        refine List.take_of_length_le ?_
        rw [Bytes.sources, List.length_map, List.length_range]
        exact hclosing k hclose
  rw [hkept, Bytes.sources, List.getD_eq_getElem _ _ (by simpa using hj),
    List.getElem_map, List.getElem_range]
  exact Bytes.place_of_seek_fails (fun _ => rfl) hj hbefore hfault

/-- **Success means a complete output if no failure is ignored**: one of the
calls that are tested fails, or all seeks that matter work and `fclose` loses
nothing. Byte by byte this is what it takes for all files of a length. -/
theorem main_success (n : Nat) (hne : 0 < n) (hlong : n < 2 ^ 63)
    {blockSize : Option Nat} (hsize : IsSize blockSize) (setting : Setting) :
    ((setting.Starts → TestedFails blockSize n setting.fault ∨
        Unharmed blockSize n setting) →
      ∀ bytes : List UInt8, bytes.length = n →
        Complete blockSize bytes setting) ∧
    (blockSize = none →
      (∀ bytes : List UInt8, bytes.length = n →
        Complete blockSize bytes setting) →
      setting.Starts → TestedFails blockSize n setting.fault ∨
        Unharmed blockSize n setting) := by
  constructor
  · rintro hnone bytes rfl
    refine (complete_iff_harmless hlong hne hsize).mpr ?_
    intro hstarts
    rcases hnone hstarts with hfails | hunharmed
    · exact harmless_of_testedFails hsize hne hfails
    · exact harmless_of_unharmed hsize hne hunharmed
  · rintro rfl hcomplete hstarts
    by_cases hfails : TestedFails none n setting.fault
    · exact .inl hfails
    · exact .inr (unharmed_of_complete hne hlong hstarts hfails hcomplete)

end Success

/-- Only the last seek fails, as it does in a correct run. -/
theorem main_success_last_seek : Complete none [104, 105]
    ⟨3, true, true, [], fun call => if call = 6 then some 0 else none,
      none⟩ := by
  refine (main_success 2 (by decide) (by decide)
    (show IsSize none from nofun) _).1 ?_ _ rfl
  intro _
  refine .inr ⟨nofun, ?_⟩
  intro j hj
  have hcall : 3 * j + 3 ≠ 6 := by omega
  exact if_neg hcall

/-- The disk is full when the buffer is written at last. -/
theorem main_loses_output : ¬ ∀ (f : RegularFile) (blockSize : Option Nat)
    (setting : Setting), f.bytes ≠ [] → IsSize blockSize →
    Complete blockSize f.bytes setting := by
  intro hclaim
  have hcomplete := hclaim ⟨[104, 105], by decide⟩ none
    ⟨3, true, true, [], fun _ => none, some 0⟩ (by decide) nofun
  have hrun : main none [104, 105]
      ⟨3, true, true, [], fun _ => none, some 0⟩ 2 =
        some (exitSuccess, []) := by decide +kernel
  cases hcomplete 2 exitSuccess [] hrun rfl

end Sysops.Cw03
