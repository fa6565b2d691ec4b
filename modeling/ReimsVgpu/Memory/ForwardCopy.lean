import Mathlib.Data.Nat.ModEq
import ReimsVgpu.Library.PlaceCopies

/-!
# Copies through aliased mappings

The placement list moves from a mapping of guest pages to another, which may show some of the same
pages. It is copied a page at a time, each page read in full before it is written. Both mappings start
on a page, so a byte of one is a byte of the other only at the same place of a page: what is written of
a chunk is never read later in it, and the bytes come out as copied one by one.

## Main definitions

* `forwardCopy`: the loop over the chunks.
* `View`: a mapping that starts on the edge of a granule.

## Main results

* `forwardCopy_eq_copyEach`.
-/

namespace ReimsVgpu.Memory

/-! ### The loop -/

section

variable {S : Type*} (n : UInt64) (size : UInt64)
  (read : UInt64 → List UInt8 → S → List UInt8 × S) (write : UInt64 → List UInt8 → S → S)

/-- The length of the next chunk. -/
def chunkLen (done : UInt64) : UInt64 := if n - done ≤ size then n - done else size

variable {n size}

theorem chunkLen_spec {done : UInt64} (hdone : done < n) :
    (chunkLen n size done).toNat = min (n.toNat - done.toNat) size.toNat := by
  have hsub : (n - done).toNat = n.toNat - done.toNat :=
    UInt64.toNat_sub_of_le n done (UInt64.le_of_lt hdone)
  rw [chunkLen]
  split_ifs with hle
  · rw [UInt64.le_iff_toNat_le, hsub] at hle
    rw [hsub, min_eq_left hle]
  · rw [UInt64.le_iff_toNat_le, hsub] at hle
    rw [min_eq_right (Nat.le_of_not_le hle)]

theorem toNat_add_chunkLen {done : UInt64} (hdone : done < n) :
    (done + chunkLen n size done).toNat = done.toNat + min (n.toNat - done.toNat) size.toNat := by
  have hlt := UInt64.lt_iff_toNat_lt.mp hdone
  have hbound := n.toNat_lt
  rw [UInt64.toNat_add, chunkLen_spec hdone]
  exact Nat.mod_eq_of_lt (by omega)

variable (n size)

/-- The loop of `forward_copy`: what was read of a chunk lies in the buffer. -/
def forwardCopyLoop (hsize : size ≠ 0) (done : UInt64) (chunk : List UInt8) (s : S) :
    List UInt8 × S :=
  if _ : done < n then
    let len := chunkLen n size done
    if chunk.length < len.toNat then (chunk, s)
    else
      let (bytes, s) := read done (chunk.take len.toNat) s
      forwardCopyLoop hsize (done + len) (bytes ++ chunk.drop len.toNat) (write done bytes s)
  else (chunk, s)
termination_by n.toNat - done.toNat
decreasing_by
  have hdone : done < n := ‹done < n›
  have hlt := UInt64.lt_iff_toNat_lt.mp hdone
  have hpos : 0 < size.toNat := Nat.pos_of_ne_zero fun h => hsize (UInt64.toNat_inj.mp h)
  rw [toNat_add_chunkLen hdone]
  omega

/-- `forward_copy`: the bytes of a chunk are read in full before they are written. -/
def forwardCopy (chunk : List UInt8) (s : S) : List UInt8 × S :=
  let size := UInt64.ofNat chunk.length
  if hsize : size = 0 then (chunk, s) else forwardCopyLoop n size read write hsize 0 chunk s

end

/-! ### Mappings of granules -/

/-- A mapping that starts on the edge of a granule and shows a granule of memory at each of its own. -/
structure View (granule : ℕ) where
  frame : ℕ → ℕ

variable {granule : ℕ}

/-- The byte of memory that a byte of the mapping is. -/
def View.place (v : View granule) (i : ℕ) : ℕ := v.frame (i / granule) * granule + i % granule

/-- `copy_to` of the mapping: its bytes from one on read over a buffer. -/
def View.copyTo (v : View granule) (at' : UInt64) (bytes : List UInt8) (m : ℕ → UInt8) :
    List UInt8 × (ℕ → UInt8) :=
  (readAll v.place at'.toNat bytes.length m, m)

/-- `copy_from` of the mapping: a buffer written over its bytes from one on. -/
def View.copyFrom (v : View granule) (at' : UInt64) (bytes : List UInt8) (m : ℕ → UInt8) : ℕ → UInt8 :=
  writeAll v.place at'.toNat bytes m

/-- Bytes of mappings of granules are one byte only at the same place of a granule. -/
theorem View.place_ne (v v' : View granule) {i j : ℕ} (hlt : i < j) (hnear : j < i + granule) :
    v.place i ≠ v'.place j := by
  intro h
  have hmod : i % granule = j % granule := by
    have h := congrArg (· % granule) h
    simpa only [place, Nat.mul_add_mod_self_right, Nat.mod_mod] using h
  have hdvd : granule ∣ j - i := (Nat.modEq_iff_dvd' hlt.le).mp hmod
  exact absurd (Nat.le_of_dvd (by omega) hdvd) (by omega)

/-! ### The copy -/

section

variable {n : UInt64} (src dst : View granule)

/-- The loop goes on from the bytes copied so far to all of them. -/
theorem forwardCopyLoop_spec {size : UInt64} (hsize : size ≠ 0) (hgranule : size.toNat ≤ granule)
    {done : UInt64} (hdone : done ≤ n) {chunk : List UInt8} (hchunk : chunk.length = size.toNat)
    {m m₀ : ℕ → UInt8} (hm : m = copyEach dst.place src.place done.toNat m₀) :
    (forwardCopyLoop n size src.copyTo dst.copyFrom hsize done chunk m).2 =
      copyEach dst.place src.place n.toNat m₀ := by
  fun_induction forwardCopyLoop n size src.copyTo dst.copyFrom hsize done chunk m with
  | case1 done chunk m hlt len hshort =>
    have hlen : len.toNat = min (n.toNat - done.toNat) size.toNat := chunkLen_spec hlt
    omega
  | case2 done chunk m hlt len hfull bytes m' hread ih =>
    have hlen : len.toNat = min (n.toNat - done.toNat) size.toNat := chunkLen_spec hlt
    have hnext : (done + len).toNat = done.toNat + len.toNat := by
      rw [hlen, toNat_add_chunkLen hlt]
    have htake : (chunk.take len.toNat).length = len.toNat := by
      rw [List.length_take, min_eq_left (Nat.le_of_not_lt hfull)]
    obtain ⟨rfl, rfl⟩ := Prod.mk.inj hread
    have hbytes : (readAll src.place done.toNat (chunk.take len.toNat).length m).length = len.toNat := by
      rw [readAll, List.length_map, List.length_range', htake]
    refine ih ?_ ?_ ?_
    · rw [UInt64.le_iff_toNat_le, hnext, hlen]
      have hle := UInt64.le_iff_toNat_le.mp hdone
      omega
    · rw [List.length_append, hbytes, List.length_drop]
      omega
    · rw [hnext, View.copyFrom, htake, hm]
      exact writeAll_readAll _ _ m₀ fun i j hle hij hj => dst.place_ne src hij (by omega)
  | case3 done chunk m hge =>
    rw [hm, UInt64.le_antisymm hdone (UInt64.not_lt.mp hge)]

variable (n)

/-- The copy with a buffer of a size. -/
theorem forwardCopy_spec {size : UInt64} (hgranule : size.toNat ≤ granule) (hsize : size = 0 → n = 0)
    {chunk : List UInt8} (hchunk : chunk.length = size.toNat) (m : ℕ → UInt8) :
    (forwardCopy n src.copyTo dst.copyFrom chunk m).2 = copyEach dst.place src.place n.toNat m := by
  have hlen : UInt64.ofNat chunk.length = size := by rw [hchunk, UInt64.ofNat_toNat]
  rw [forwardCopy]
  simp only [hlen]
  split_ifs with hzero
  · rw [hsize hzero]
    rfl
  · exact forwardCopyLoop_spec src dst hzero hgranule UInt64.zero_le hchunk rfl

/-- **Copied in chunks of at most a granule, through mappings that show any granules, the bytes come out
as copied one by one.** -/
theorem forwardCopy_eq_copyEach {chunk : List UInt8} (hlength : chunk.length < 2 ^ 64)
    (hgranule : chunk.length ≤ granule) (hchunk : chunk = [] → n = 0) (m : ℕ → UInt8) :
    (forwardCopy n src.copyTo dst.copyFrom chunk m).2 = copyEach dst.place src.place n.toNat m := by
  have hsize : (UInt64.ofNat chunk.length).toNat = chunk.length := UInt64.toNat_ofNat_of_lt' hlength
  refine forwardCopy_spec n src dst (hsize.trans_le hgranule) (fun hzero => hchunk ?_) hsize.symm m
  rw [hzero] at hsize
  exact List.length_eq_zero_iff.mp hsize.symm

/-- The second granule moved on by one: what the first chunk wrote there is read back by the second, so
the data repeats. -/
theorem forwardCopy_repeats :
    (forwardCopy 4 (View.copyTo (⟨id⟩ : View 2)) (View.copyFrom (⟨(· + 1)⟩ : View 2)) [0, 0]
        UInt8.ofNat).2 = copyEach (View.place (⟨(· + 1)⟩ : View 2)) (View.place (⟨id⟩ : View 2)) 4
          UInt8.ofNat ∧
      (List.range 6).map (copyEach (View.place (⟨(· + 1)⟩ : View 2)) (View.place (⟨id⟩ : View 2)) 4
        UInt8.ofNat) = [0, 1, 0, 1, 0, 1] :=
  ⟨@forwardCopy_eq_copyEach 2 4 ⟨id⟩ ⟨(· + 1)⟩ [0, 0] (by decide) (by decide) nofun UInt8.ofNat,
    by decide⟩

end

end ReimsVgpu.Memory
