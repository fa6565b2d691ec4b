import ReimsVgpu.Guest.Features
import Mathlib.Data.Bool.AllAny
import Mathlib.Data.List.TakeWhile
import Mathlib.Tactic.SplitIfs

/-!
# The version negotiated

A version write stores the greatest of the versions that the host knows and the device's feature level
lets through, up to the one asked for.

## Main definitions

* `setBinaryVersion`: a version write.
* `KnownVersion`, `OfferedVersion`.

## Main results

* `setBinaryVersion_self`, `setBinaryVersion_greatest`: the version that is stored.
-/

namespace ReimsVgpu.Guest

/-- `set_binary_version`: the version stored, none where the request is refused; none of all where it
dies. -/
def setBinaryVersion (requested : UInt32) (featureLevel : UInt64) : Option (Option BinaryVersion) :=
  match stepBinaryVersion requested with
  | none => some none
  | some stepped => (clampBinaryVersion stepped.version featureLevel).map some

/-- The version is 0 or one that the host knows. -/
def KnownVersion (version : BinaryVersion) : Prop := version = 0 ∨ (featuresForVersion version).valid = true

/-- A known version that the device's level lets through. -/
def OfferedVersion (featureLevel : UInt64) (version : BinaryVersion) : Prop :=
  KnownVersion version ∧ binaryVersionFromFeatureLevel featureLevel version = some version

def stepLabels : List BinaryVersion := steps.flatMap (·.1)

theorem mem_stepLabels {version : BinaryVersion} (h : (featuresForVersion version).valid = true) :
    version ∈ stepLabels := by
  by_contra hnot
  have hnone : (steps.dropWhile fun s => !s.1.contains version) = [] := by
    refine List.dropWhile_eq_nil_iff.mpr fun s hs => ?_
    rw [Bool.not_eq_true', List.contains_eq_mem, decide_eq_false_iff_not]
    exact fun hv => hnot (List.mem_flatMap.mpr ⟨s, hs, hv⟩)
  unfold featuresForVersion at h
  rw [hnone] at h
  dsimp only at h
  split_ifs at h

theorem KnownVersion.bounds {version : BinaryVersion} (h : KnownVersion version) :
    0 ≤ version.toInt ∧ version.toInt ≤ 245 ∧ version ≠ 1 ∧
      (featuresForVersion version).unsupported = false ∧ version.toUInt32 < 0xf6 := by
  have hall : ∀ v ∈ 0 :: stepLabels, 0 ≤ v.toInt ∧ v.toInt ≤ 245 ∧ v ≠ 1 ∧
      (featuresForVersion v).unsupported = false ∧ v.toUInt32 < 0xf6 :=
    List.all_iff_forall_prop.mp (by decide +kernel)
  exact hall version (h.elim (fun hzero => hzero ▸ List.mem_cons_self)
    fun hvalid => List.mem_cons_of_mem _ (mem_stepLabels hvalid))

/-- The step down from a version goes to the greatest known one below it. -/
theorem stepDown_spec {n : ℕ} (hn : n < 2147483648) : KnownVersion (stepDown n) ∧ (stepDown n).toInt ≤ n ∧
    ∀ u, KnownVersion u → u.toInt < n → u.toInt ≤ (stepDown n).toInt := by
  induction n with
  | zero => exact ⟨.inl rfl, Int.le_refl _, fun u hu hlt => absurd hu.bounds.1 (Int.not_le.mpr hlt)⟩
  | succ n ih =>
    have htoInt : (Int32.ofNat n).toInt = n := Int32.toInt_ofNat_of_lt (by omega)
    rw [stepDown]
    split_ifs with hknown
    · rw [htoInt]
      exact ⟨hknown, by omega, fun u _ hlt => by omega⟩
    · obtain ⟨hdown, hle, hgreatest⟩ := ih (by omega)
      refine ⟨hdown, by omega, fun u hu hun => hgreatest u hu ?_⟩
      have hne : u.toInt ≠ n := fun heq => hknown (Int32.toInt_inj.mp (heq.trans htoInt.symm) ▸ hu)
      omega

/-- A supported request steps to the greatest known version up to it. -/
theorem stepBinaryVersion_spec {requested : UInt32} (hsign : 0 ≤ requested.toInt32)
    (hsupported : (featuresForVersion requested.toInt32).unsupported = false) :
    ∃ n, stepBinaryVersion requested = some n ∧ KnownVersion n.version ∧
      n.version.toInt ≤ requested.toInt32.toInt ∧
      ∀ u, KnownVersion u → u.toInt ≤ requested.toInt32.toInt → u.toInt ≤ n.version.toInt := by
  have hcast := Int32.cast_toNatClampNeg _ hsign
  have hnot : ¬ requested.toInt32 < 0 := fun hlt => Int32.not_le.mpr hlt hsign
  rw [stepBinaryVersion, if_neg hnot]
  simp only [hsupported, Bool.false_eq_true, if_false]
  split_ifs with hvalid hhigh hzero
  · exact ⟨_, rfl, .inr (by decide), Int32.le_iff_toInt_le.mp (Int32.le_of_lt hhigh),
      fun u hu _ => hu.bounds.2.1⟩
  · obtain ⟨hknown, hle, hgreatest⟩ := stepDown_spec (Int32.toNatClampNeg_lt requested.toInt32)
    rw [hcast] at hle hgreatest
    refine ⟨_, rfl, hknown, hle, fun u hu hle => hgreatest u hu ?_⟩
    refine Int.lt_iff_le_and_ne.mpr ⟨hle, fun heq => ?_⟩
    rw [Int32.toInt_inj.mp heq] at hu
    exact hu.elim hzero fun h => by simp [h] at hvalid
  · exact ⟨_, rfl, .inl (not_not.mp hzero), Int.le_refl _, fun u _ => id⟩
  · exact ⟨_, rfl, .inr (by simpa using hvalid), Int.le_refl _, fun u _ => id⟩

/-- The version stored, where the step and the level's clamp are known. -/
theorem setBinaryVersion_eq {requested : UInt32} {featureLevel : UInt64} {n : NegotiatedVersion}
    {version : BinaryVersion} (hstep : stepBinaryVersion requested = some n)
    (hn : KnownVersion n.version) (hversion : KnownVersion version)
    (hclamped : binaryVersionFromFeatureLevel featureLevel n.version = some version) :
    setBinaryVersion requested featureLevel = some (some version) := by
  have hsign : 0 ≤ n.version := Int32.le_iff_toInt_le.mpr hn.bounds.1
  simp [setBinaryVersion, hstep, clampBinaryVersion, hsign, hclamped, hversion.bounds.2.2.1]

/-- A level lets the versions through up to a known one. -/
theorem binaryVersionFromFeatureLevel_eq {featureLevel : UInt64}
    (h : featureLevel < deviceFeatureLevelMax) : ∃ limit, KnownVersion limit ∧
      ∀ version, binaryVersionFromFeatureLevel featureLevel version =
        some (if version ≤ limit then version else limit) := by
  have hlevel : ¬ deviceFeatureLevelMax ≤ featureLevel := UInt64.not_le.mpr h
  simp only [binaryVersionFromFeatureLevel, if_neg hlevel]
  split_ifs
  · exact ⟨62, .inr (by decide), fun _ => rfl⟩
  · exact ⟨113, .inr (by decide), fun _ => rfl⟩
  · exact ⟨209, .inr (by decide), fun _ => rfl⟩
  · exact ⟨245, .inr (by decide), fun _ => rfl⟩

/-- The version stored for a request is the greatest, of those that the host knows and the device's level
lets through, that is not above the one asked for. -/
theorem setBinaryVersion_greatest {requested : UInt32} {featureLevel : UInt64}
    (hlevel : featureLevel < deviceFeatureLevelMax) (hsign : 0 ≤ requested.toInt32)
    (hsupported : (featuresForVersion requested.toInt32).unsupported = false) :
    ∃ version, setBinaryVersion requested featureLevel = some (some version) ∧
      OfferedVersion featureLevel version ∧ version ≤ requested.toInt32 ∧
      ∀ u, OfferedVersion featureLevel u → u ≤ requested.toInt32 → u ≤ version := by
  obtain ⟨n, hstep, hknown, hle, hgreatest⟩ := stepBinaryVersion_spec hsign hsupported
  obtain ⟨limit, hlimit, hclamp⟩ := binaryVersionFromFeatureLevel_eq hlevel
  have hlets (u : BinaryVersion) (hu : OfferedVersion featureLevel u) : u ≤ limit := by
    have hself := Option.some_inj.mp ((hclamp u).symm.trans hu.2)
    split_ifs at hself with hle
    · exact hle
    · exact hself ▸ Int32.le_refl _
  simp only [Int32.le_iff_toInt_le] at *
  by_cases hn : n.version.toInt ≤ limit.toInt
  · have hself := (hclamp n.version).trans (congrArg some (if_pos hn))
    exact ⟨_, setBinaryVersion_eq hstep hknown hknown hself, ⟨hknown, hself⟩, hle, fun u hu => hgreatest u hu.1⟩
  · have hself := (hclamp limit).trans (congrArg some (if_pos (Int.le_refl _)))
    have hclamped := (hclamp n.version).trans (congrArg some (if_neg hn))
    exact ⟨_, setBinaryVersion_eq hstep hknown hlimit hclamped, ⟨hlimit, hself⟩, by omega,
      fun u hu _ => hlets u hu⟩

theorem setBinaryVersion_greatest_44 :
    ∃ version, setBinaryVersion 44 1 = some (some version) ∧ OfferedVersion 1 version ∧
      version ≤ 44 ∧ ∀ u, OfferedVersion 1 u → u ≤ 44 → u ≤ version :=
  @setBinaryVersion_greatest 44 1 (by decide) (by decide) (by decide)

end ReimsVgpu.Guest
