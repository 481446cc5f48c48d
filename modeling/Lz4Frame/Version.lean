/-!
# Versions

The version of this library, and the versions of the format rules that it follows.  A release can be
written as a text and as a number, and either of them says which release it is
(`Release.text_of_number`, `Release.number_lt_iff`).
-/

namespace Lz4Frame.Version

/-- A release.  The last two parts have two digits in its number. -/
structure Release where
  major : Nat
  minor : Nat
  patch : Nat
  minor_lt : minor < 100 := by decide
  patch_lt : patch < 100 := by decide

namespace Release

/-- The parts of a release with dots between them. -/
def textOf (major minor patch : Nat) : String :=
  toString major ++ "." ++ toString minor ++ "." ++ toString patch

/-- A release as a text. -/
def text (release : Release) : String := textOf release.major release.minor release.patch

/-- A release as a number. -/
def number (release : Release) : Nat :=
  release.major * 10000 + release.minor * 100 + release.patch

theorem number_div (release : Release) : release.number / 10000 = release.major := by
  have hminor := release.minor_lt
  have hpatch := release.patch_lt
  unfold number
  omega

theorem number_div_mod (release : Release) : release.number / 100 % 100 = release.minor := by
  have hminor := release.minor_lt
  have hpatch := release.patch_lt
  unfold number
  omega

theorem number_mod (release : Release) : release.number % 100 = release.patch := by
  have hpatch := release.patch_lt
  unfold number
  omega

/-- The number of a release spells its text. -/
theorem text_of_number (release : Release) :
    release.text
      = textOf (release.number / 10000) (release.number / 100 % 100) (release.number % 100) := by
  rw [number_div, number_div_mod, number_mod, text]

/-- A later release has a larger number. -/
theorem number_lt_iff (first second : Release) :
    first.number < second.number ↔ first.major < second.major
      ∨ first.major = second.major ∧ (first.minor < second.minor
        ∨ first.minor = second.minor ∧ first.patch < second.patch) := by
  have hminor := first.minor_lt
  have hpatch := first.patch_lt
  have hminor' := second.minor_lt
  have hpatch' := second.patch_lt
  unfold number
  omega

end Release

/-- The version of the library. -/
def library : String := "0.7.0"

/-- The release of the format rules. -/
def rules : Release := { major := 1, minor := 10, patch := 0 }

/-- The release of the format rules as a text. -/
def rulesText : String := rules.text

/-- The release of the format rules as a number. -/
def rulesNumber : Nat := rules.number

/-- The version of the frame interface. -/
def frameInterface : Nat := 100

end Lz4Frame.Version
