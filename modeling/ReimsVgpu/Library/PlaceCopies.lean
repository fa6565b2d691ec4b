import Mathlib.Data.List.Range
import Mathlib.Logic.Function.Basic

/-!
# Values copied from places to places

A store has a value at each place. The values of a list of places are copied to another list of places
in order, each read and then written. Read all before any is written, they come out the same where no
place that is written is read later.

## Main results

* `copyEach_of_ne`, `writeAll_append`.
* `writeAll_readAll`: a run of values read as a whole, and then written.
-/

variable {P V : Type*} [DecidableEq P] (dst src : ℕ → P)

/-- The first values copied, in order, each read and then written. -/
def copyEach : ℕ → (P → V) → P → V
  | 0, m => m
  | n + 1, m =>
    let copied := copyEach n m
    Function.update copied (dst n) (copied (src n))

/-- A run of values read. -/
def readAll (start n : ℕ) (m : P → V) : List V := (List.range' start n).map fun i => m (src i)

/-- A run of values written, in order. -/
def writeAll : ℕ → List V → (P → V) → P → V
  | _, [], m => m
  | start, v :: vs, m => writeAll (start + 1) vs (Function.update m (dst start) v)

theorem writeAll_append (start : ℕ) (vs : List V) (v : V) (m : P → V) :
    writeAll dst start (vs ++ [v]) m =
      Function.update (writeAll dst start vs m) (dst (start + vs.length)) v := by
  induction vs generalizing start m with
  | nil => rfl
  | cons w vs ih =>
    rw [List.cons_append, writeAll, ih, writeAll, List.length_cons, Nat.add_right_comm, Nat.add_assoc]

/-- A place that is not written keeps its value. -/
theorem copyEach_of_ne {start n : ℕ} {p : P} (m : P → V)
    (h : ∀ i, start ≤ i → i < start + n → dst i ≠ p) :
    copyEach dst src (start + n) m p = copyEach dst src start m p := by
  induction n with
  | zero => rfl
  | succ n ih =>
    rw [← Nat.add_assoc, copyEach]
    rw [Function.update_of_ne (h (start + n) (Nat.le_add_right _ _) (by omega)).symm]
    exact ih fun i hle hlt => h i hle (by omega)

/-- A run read as a whole and then written comes out as copied one by one, where no place that is
written in the run is read later in it. -/
theorem writeAll_readAll {start n : ℕ} (m : P → V)
    (h : ∀ i j, start ≤ i → i < j → j < start + n → dst i ≠ src j) :
    writeAll dst start (readAll src start n (copyEach dst src start m)) (copyEach dst src start m) =
      copyEach dst src (start + n) m := by
  induction n with
  | zero => rfl
  | succ n ih =>
    have hread : readAll src start (n + 1) (copyEach dst src start m) =
        readAll src start n (copyEach dst src start m) ++ [copyEach dst src start m (src (start + n))] := by
      rw [readAll, List.range'_concat, List.map_append, Nat.one_mul]
      rfl
    have hlength : (readAll src start n (copyEach dst src start m)).length = n := by
      rw [readAll, List.length_map, List.length_range']
    rw [hread, writeAll_append, hlength, ih fun i j hle hlt hj => h i j hle hlt (by omega),
      ← copyEach_of_ne dst src m fun i hle hlt => h i (start + n) hle hlt (Nat.lt_succ_self _)]
    rfl
