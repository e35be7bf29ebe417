import Deductions.Version.Bump
import Mathlib.Data.List.Basic

namespace Deductions

namespace Version

/-- No number of the version is the greatest that there is. -/
structure HasRoom (v : Version) : Prop where
  major : v.major.toNat + 1 < UInt64.size
  minor : v.minor.toNat + 1 < UInt64.size
  patch : v.patch.toNat + 1 < UInt64.size

/-- The version has the numbers of `w` and is labelled as a pre-release. -/
@[mk_iff]
structure IsPreReleaseOf (v w : Version) : Prop where
  major : v.major = w.major
  minor : v.minor = w.minor
  patch : v.patch = w.patch
  labelled : v.pre ≠ []

/-- The numbers of a breaking release: the major one has grown or, as long as it is zero, the minor one. -/
def IsMajorStep (prev next : Version) : Prop :=
  prev.major < next.major ∨ prev.major = 0 ∧ next.major = 0 ∧ prev.minor < next.minor

section

variable {v : Version} {major minor patch : UInt64}

theorem isLE_compare_nil (labels : List Label) : (compare [] labels).isLE = true := by
  cases labels <;> rfl

theorem compare_nil_ne_lt (labels : List Label) : compare labels [] ≠ .lt := by
  cases labels <;> exact nofun

/-- Not before three numbers come the same numbers without a pre-release, and all later ones. -/
theorem isLE_plain_iff : (compare (plain major minor patch) v).isLE = true ↔
    major < v.major ∨ major = v.major ∧ (minor < v.minor ∨ minor = v.minor ∧
      (patch < v.patch ∨ patch = v.patch ∧ v.pre = [])) := by
  change (Version.compare (plain major minor patch) v).isLE = true ↔ _
  simp only [Version.compare, compareLex, compareOn, Ordering.isLE_then_iff_or, Std.compare_eq_lt,
    Std.compare_eq_iff_eq]
  refine or_congr_right (and_congr_right fun _ => or_congr_right (and_congr_right fun _ =>
    or_congr_right (and_congr_right fun _ => ?_)))
  simp only [preRank, List.isEmpty_iff]
  by_cases released : v.pre = []
  · simp [plain, released, isLE_compare_nil]
  · simp [plain, released]

/-- Not before three numbers come all that are as late, except for their pre-releases. -/
theorem isLE_plain_iff_numbers : (compare (plain major minor patch) v).isLE = true ↔
    (major < v.major ∨ major = v.major ∧ (minor < v.minor ∨ minor = v.minor ∧ patch ≤ v.patch)) ∧
      ¬ v.IsPreReleaseOf (plain major minor patch) := by
  rw [isLE_plain_iff, isPreReleaseOf_iff]
  simp only [plain, UInt64.lt_iff_toNat_lt, UInt64.le_iff_toNat_le, ← UInt64.toNat_inj]
  by_cases released : v.pre = []
  · simp only [released, ne_eq, not_true_eq_false, and_true, and_false, not_false_eq_true]
    omega
  · simp only [released, ne_eq, not_false_eq_true, and_true, and_false, or_false]
    omega

/-- Before three numbers come their pre-releases and all earlier numbers. -/
theorem lt_plain_iff : compare v (plain major minor patch) = .lt ↔
    v.major < major ∨ v.major = major ∧ (v.minor < minor ∨ v.minor = minor ∧
      (v.patch < patch ∨ v.patch = patch ∧ v.pre ≠ [])) := by
  change Version.compare v (plain major minor patch) = .lt ↔ _
  simp only [Version.compare, compareLex, compareOn, Ordering.then_eq_lt, Std.compare_eq_lt,
    Std.compare_eq_iff_eq]
  refine or_congr_right (and_congr_right fun _ => or_congr_right (and_congr_right fun _ =>
    or_congr_right (and_congr_right fun _ => ?_)))
  simp only [preRank, List.isEmpty_iff]
  by_cases released : v.pre = []
  · simp [plain, released, compare_nil_ne_lt]
  · simp [plain, released]

end

theorem toNat_add_one {n : UInt64} (room : n.toNat + 1 < UInt64.size) : (n + 1).toNat = n.toNat + 1 := by
  rw [UInt64.toNat_add]
  exact Nat.mod_eq_of_lt room

theorem lt_add_one {n : UInt64} (room : n.toNat + 1 < UInt64.size) : n < n + 1 := by
  rw [UInt64.lt_iff_toNat_lt, toNat_add_one room]
  exact Nat.lt_succ_self _

/-- What may follow after one change may follow after another that asks for less. -/
theorem satisfies_of_isLE {prev next : Version} {change less : ChangeKind}
    (before : (compare (prev.bump less) (prev.bump change)).isLE = true)
    (follows : prev.satisfies next change = true) : prev.satisfies next less = true :=
  Std.TransCmp.isLE_trans before follows

namespace HasRoom

variable {prev next : Version} (room : prev.HasRoom)
include room

theorem lt_bump {change : ChangeKind} (changed : change ≠ .none) : prev < prev.bump change := by
  cases change with
  | none => exact absurd rfl changed
  | patch => exact lt_plain_iff.mpr (.inr ⟨rfl, .inr ⟨rfl, .inl (lt_add_one room.patch)⟩⟩)
  | minor => exact lt_plain_iff.mpr (.inr ⟨rfl, .inl (lt_add_one room.minor)⟩)
  | major =>
    rw [bump]
    split
    next unstable => exact lt_plain_iff.mpr (.inr ⟨unstable, .inl (lt_add_one room.minor)⟩)
    next => exact lt_plain_iff.mpr (.inl (lt_add_one room.major))

theorem isLE_bump_minor : (compare (prev.bump .patch) (prev.bump .minor)).isLE = true :=
  isLE_plain_iff.mpr (.inr ⟨rfl, .inl (lt_add_one room.minor)⟩)

theorem isLE_bump_major : (compare (prev.bump .minor) (prev.bump .major)).isLE = true := by
  rw [bump, bump]
  split
  next unstable => exact isLE_plain_iff.mpr (.inr ⟨unstable, .inr ⟨rfl, .inr ⟨rfl, rfl⟩⟩⟩)
  next => exact isLE_plain_iff.mpr (.inl (lt_add_one room.major))

theorem lt_of_satisfies {change : ChangeKind} (changed : change ≠ .none)
    (follows : prev.satisfies next change = true) : prev < next :=
  Std.TransCmp.lt_of_lt_of_isLE (room.lt_bump changed) follows

theorem satisfies_major_iff : prev.satisfies next .major = true ↔
    prev.IsMajorStep next ∧ ¬ next.IsPreReleaseOf (prev.bump .major) := by
  have major := toNat_add_one room.major
  have minor := toNat_add_one room.minor
  rw [satisfies, bump, IsMajorStep]
  split
  all_goals
    rw [isLE_plain_iff_numbers]
    refine and_congr_left fun _ => ?_
    simp only [UInt64.lt_iff_toNat_lt, UInt64.le_iff_toNat_le, ← UInt64.toNat_inj, UInt64.toNat_zero] at *
    omega

/-- A pre-release of the first version that may follow has all its numbers. -/
theorem isMajorStep_of_isPreReleaseOf (announces : next.IsPreReleaseOf (prev.bump .major)) :
    prev.IsMajorStep next := by
  obtain ⟨sameMajor, sameMinor, _, _⟩ := announces
  rw [bump] at sameMajor sameMinor
  split at sameMajor
  next unstable =>
    rw [if_pos unstable] at sameMinor
    exact .inr ⟨unstable, sameMajor, sameMinor ▸ lt_add_one room.minor⟩
  next => exact .inl (sameMajor ▸ lt_add_one room.major)

end HasRoom

/-- What may follow after a change may follow after every smaller one, and is later than the version before
unless nothing changed. After a major change it is a breaking release, and any that is not a pre-release of the
first one. -/
theorem satisfies_policy (prev next : Version) (room : prev.HasRoom) :
    (prev.satisfies next .major = true → prev.satisfies next .minor = true) ∧
    (prev.satisfies next .minor = true → prev.satisfies next .patch = true) ∧
    (prev.satisfies next .patch = true → prev.satisfies next .none = true) ∧
    (∀ change, change ≠ .none → prev.satisfies next change = true → prev < next) ∧
    (prev.satisfies next .major = true ↔ prev.IsMajorStep next ∧ ¬ next.IsPreReleaseOf (prev.bump .major)) ∧
    (next.IsPreReleaseOf (prev.bump .major) → prev.IsMajorStep next) :=
  ⟨satisfies_of_isLE room.isLE_bump_major, satisfies_of_isLE room.isLE_bump_minor,
    satisfies_of_isLE (Ordering.isLE_of_eq_lt (room.lt_bump nofun)), fun _ => room.lt_of_satisfies,
    room.satisfies_major_iff, room.isMajorStep_of_isPreReleaseOf⟩

/-- From 0.3.1+b to 0.4.0-rc: this is a breaking release, but it announces the first one that may follow, so that
it is late enough after a patch only. -/
theorem satisfies_policy_announced :
    let prev : Version := { plain 0 3 1 with build := [⟨"b", by decide⟩] }
    let next : Version := ⟨0, 4, 0, [⟨"rc", by decide⟩], [], by decide⟩
    prev.HasRoom ∧ next.IsPreReleaseOf (prev.bump .major) ∧ prev.IsMajorStep next ∧
      prev.satisfies next .major = false ∧ prev.satisfies next .patch = true ∧ prev < next := by
  intro prev next
  have room : prev.HasRoom := ⟨by decide, by decide, by decide⟩
  have announces : next.IsPreReleaseOf (prev.bump .major) := ⟨by decide, by decide, by decide, nofun⟩
  have follows : prev.satisfies next .patch = true := by decide
  obtain ⟨_, _, _, later, major, step⟩ := satisfies_policy prev next room
  exact ⟨room, announces, step announces, Bool.eq_false_iff.mpr fun early => (major.mp early).2 announces, follows,
    later .patch nofun follows⟩

end Version

end Deductions
